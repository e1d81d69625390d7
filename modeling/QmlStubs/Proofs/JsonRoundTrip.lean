import QmlStubs.Json.Printer
import QmlStubs.Proofs.Numerals

/-!
# Printed JSON reads back

The indented text of a value is read as that value again, up to the form of its numerals and to
strings that could not be read in the first place (`Json.reread`):

> `parse? j.indented = some j.reread` (`parse?_indented`).

The proof follows the printer. Each function of the reader is applied to the text of a value with
anything after it that does not continue a numeral, and gives the value and what came after. The
fuel that this takes is counted by `Json.fuel`, which the length of the text bounds.
-/

set_option autoImplicit false

namespace QmlStubs

namespace Json

open Text (Symbol)

/-! ## What is read -/

mutual

/-- What a printed value is read as. -/
def reread : Json → Json
  | .number n => .number n.reread
  | .string s => .string (some (s.getD ""))
  | .array items => .array (rereadItems items)
  | .object members => .object (rereadMembers members)
  | .null => .null
  | .bool b => .bool b

/-- What printed items are read as. -/
def rereadItems : List Json → List Json
  | [] => []
  | v :: rest => v.reread :: rereadItems rest

/-- What printed members are read as. -/
def rereadMembers : List (Option String × Json) → List (Option String × Json)
  | [] => []
  | (k, v) :: rest => (some (k.getD ""), v.reread) :: rereadMembers rest

end

mutual

/-- The fuel that reading a value takes. -/
def fuel : Json → Nat
  | .array items => fuelOfItems items + 1
  | .object members => fuelOfMembers members + 1
  | _ => 1

/-- The fuel that reading items takes. -/
def fuelOfItems : List Json → Nat
  | [] => 0
  | v :: rest => max v.fuel (fuelOfItems rest) + 1

/-- The fuel that reading members takes. -/
def fuelOfMembers : List (Option String × Json) → Nat
  | [] => 0
  | (_, v) :: rest => max v.fuel (fuelOfMembers rest) + 1

end

theorem rereadItems_eq_map (items : List Json) : rereadItems items = items.map reread := by
  induction items with
  | nil => rfl
  | cons v items ih => rw [rereadItems, ih, List.map_cons]

theorem rereadMembers_eq_map (members : List (Option String × Json)) :
    rereadMembers members = members.map fun m => (some (m.1.getD ""), m.2.reread) := by
  induction members with
  | nil => rfl
  | cons m members ih =>
    obtain ⟨k, v⟩ := m
    rw [rereadMembers, ih, List.map_cons]

/-! ## Strings -/

/-- The piece that an escaped character is read as: a control without a short escape is a number
of sixteen bits. -/
def pieceOf (c : Char) : StringPiece :=
  if c < ' ' ∧ c ∉ ['\x08', '\x0c', '\n', '\r', '\t'] then .unit c.toNat else .char c

theorem hexDigit?_digitChar {n : Nat} (h : n < 16) : hexDigit? (some (Nat.digitChar n)) = some n := by
  have hall : ∀ n < 16, hexDigit? (some (Nat.digitChar n)) = some n := by decide
  exact hall n h

theorem stringPieces?_unit {n : Nat} (h : n < 32) (s : List Symbol) :
    stringPieces? (['\\', 'u', '0', '0', Nat.digitChar (n / 16), Nat.digitChar (n % 16)].map some ++
      s) = (stringPieces? s).map fun r => (.unit n :: r.1, r.2) := by
  have h0 : hexDigit? (some '0') = some 0 := by decide
  have hcode : (0 * 16 + 0) * 256 + (n / 16 * 16 + n % 16) = n := by omega
  simp only [List.map_cons, List.map_nil, List.cons_append, List.nil_append]
  rw [stringPieces?, h0, hexDigit?_digitChar (show n / 16 < 16 by omega),
    hexDigit?_digitChar (show n % 16 < 16 by omega)]
  simp only [Option.bind_eq_bind, Option.bind_some, hcode]
  cases stringPieces? s <;> rfl

theorem stringPieces?_char {c : Char} (hquote : c ≠ '"') (hslash : c ≠ '\\') (hc : ¬ c < ' ')
    (s : List Symbol) :
    stringPieces? ([c].map some ++ s) = (stringPieces? s).map fun r => (.char c :: r.1, r.2) := by
  have hif : ¬ (decide (c = '\\') || decide (c < ' ')) = true := by simp [hslash, hc]
  rw [List.map_singleton, List.singleton_append, stringPieces?]
  · rw [if_neg hif]
    cases stringPieces? s <;> rfl
  · exact hquote
  · exact fun _ _ _ _ _ _ h => absurd h hslash
  · exact fun _ _ _ h => absurd h hslash

/-- **An escaped character is read as one piece.** -/
theorem stringPieces?_escapeChar (c : Char) (s : List Symbol) :
    stringPieces? ((escapeChar c).map some ++ s) =
      (stringPieces? s).map fun r => (pieceOf c :: r.1, r.2) := by
  unfold escapeChar
  split
  next => cases hs : stringPieces? s <;> simp [stringPieces?, shortEscape?, pieceOf, hs]
  next => cases hs : stringPieces? s <;> simp [stringPieces?, shortEscape?, pieceOf, hs]
  next => cases hs : stringPieces? s <;> simp [stringPieces?, shortEscape?, pieceOf, hs]
  next => cases hs : stringPieces? s <;> simp [stringPieces?, shortEscape?, pieceOf, hs]
  next => cases hs : stringPieces? s <;> simp [stringPieces?, shortEscape?, pieceOf, hs]
  next => cases hs : stringPieces? s <;> simp [stringPieces?, shortEscape?, pieceOf, hs]
  next => cases hs : stringPieces? s <;> simp [stringPieces?, shortEscape?, pieceOf, hs]
  next hquote hslash hb hf hn hr ht =>
    by_cases hc : c < ' '
    · have hlt : c.toNat < 32 := hc
      have hpiece : pieceOf c = .unit c.toNat := by
        unfold pieceOf
        rw [if_pos]
        refine ⟨hc, ?_⟩
        simp only [List.mem_cons, List.not_mem_nil, or_false, not_or]
        exact ⟨hb, hf, hn, hr, ht⟩
      rw [if_pos hc, hpiece]
      exact stringPieces?_unit hlt s
    · have hpiece : pieceOf c = .char c := by
        unfold pieceOf
        rw [if_neg fun h => hc h.1]
      rw [if_neg hc, hpiece]
      exact stringPieces?_char hquote hslash hc s

/-- **A printed string is read up to its closing quote.** -/
theorem stringPieces?_chars (cs : List Char) (s : List Symbol) :
    stringPieces? ((cs.flatMap escapeChar).map some ++ some '"' :: s) =
      some (cs.map pieceOf, s) := by
  induction cs with
  | nil => simp [stringPieces?]
  | cons c cs ih =>
    rw [List.flatMap_cons, List.map_append, List.append_assoc, stringPieces?_escapeChar, ih]
    rfl

theorem decodePieces_unit {c : Char} {pieces : List StringPiece} {cs : List Char}
    (hlead : isLeading c.toNat = false) (htrail : isTrailing c.toNat = false)
    (h : decodePieces pieces = some cs) :
    decodePieces (.unit c.toNat :: pieces) = some (c :: cs) := by
  cases pieces with
  | nil =>
    rw [decodePieces, hlead, htrail, h, Char.ofNat_toNat]
    · rfl
    · exact nofun
  | cons p pieces =>
    cases p with
    | unit b => simp [decodePieces, hlead, htrail, h, Char.ofNat_toNat]
    | char d =>
      rw [decodePieces, hlead, htrail, h, Char.ofNat_toNat]
      · rfl
      · exact nofun
    | stray => simp [decodePieces] at h

theorem decodePieces_pieceOf (cs : List Char) : decodePieces (cs.map pieceOf) = some cs := by
  induction cs with
  | nil => rfl
  | cons c cs ih =>
    rw [List.map_cons]
    by_cases hc : c < ' ' ∧ c ∉ ['\x08', '\x0c', '\n', '\r', '\t']
    · have hlt : c.toNat < 32 := hc.1
      have hlead : isLeading c.toNat = false := by
        unfold isLeading
        simp
        omega
      have htrail : isTrailing c.toNat = false := by
        unfold isTrailing
        simp
        omega
      have hpiece : pieceOf c = .unit c.toNat := if_pos hc
      rw [hpiece]
      exact decodePieces_unit hlead htrail ih
    · have hpiece : pieceOf c = .char c := if_neg hc
      rw [hpiece, decodePieces, ih]
      rfl

/-- **A printed string is read as itself.** -/
theorem quotedString?_quote (k : String) (s : List Symbol) :
    quotedString? ((k.toList.flatMap escapeChar).map some ++ some '"' :: s) =
      some (some k, s) := by
  unfold quotedString?
  rw [stringPieces?_chars]
  simp [decodePieces_pieceOf]

/-! ## Blanks -/

theorem skipBlanks_newLine (level : Nat) (s : List Symbol) :
    skipBlanks ((newLine level).map some ++ s) = skipBlanks s := by
  have hspaces : ∀ n, skipBlanks ((List.replicate n ' ').map some ++ s) = skipBlanks s := by
    intro n
    induction n with
    | zero => rfl
    | succ n ih => exact ih
  exact hspaces (4 * level)

theorem skipBlanks_quote (s : List Symbol) : skipBlanks (some '"' :: s) = some '"' :: s := rfl

theorem skipBlanks_colon (s : List Symbol) : skipBlanks (some ':' :: s) = some ':' :: s := rfl

theorem skipBlanks_comma (s : List Symbol) : skipBlanks (some ',' :: s) = some ',' :: s := rfl

theorem skipBlanks_idem (s : List Symbol) : skipBlanks (skipBlanks s) = skipBlanks s := by
  unfold skipBlanks
  induction s with
  | nil => rfl
  | cons c s ih =>
    rw [List.dropWhile_cons]
    by_cases hc : isBlank c = true
    · rw [if_pos hc, ih]
    · rw [if_neg hc, List.dropWhile_cons, if_neg hc]

/-- Blanks before a value are skipped. -/
theorem value?_congr {s s' : List Symbol} (h : skipBlanks s = skipBlanks s') (fuel : Nat) :
    value? fuel s = value? fuel s' := by
  cases fuel with
  | zero => rfl
  | succ fuel => rw [value?, value?, h]

theorem items?_congr {s s' : List Symbol} (h : skipBlanks s = skipBlanks s') (fuel : Nat) :
    items? fuel s = items? fuel s' := by
  cases fuel with
  | zero => rfl
  | succ fuel => rw [items?, items?, value?_congr h]

theorem members?_congr {s s' : List Symbol} (h : skipBlanks s = skipBlanks s') (fuel : Nat) :
    members? fuel s = members? fuel s' := by
  cases fuel with
  | zero => rfl
  | succ fuel => rw [members?, members?, h]

theorem endsNumber_newLine (level : Nat) (s : List Symbol) :
    EndsNumber ((newLine level).map some ++ s) := by
  refine ⟨?_, ?_, ?_, ?_⟩ <;> decide

/-! ## Numbers -/

/-- A digit begins a number. -/
theorem value?_digit {c : Char} (h : c.isDigit = true) (fuel : Nat) (s : List Symbol) :
    value? (fuel + 1) (some c :: s) =
      (unsignedNumber? false (some c :: s)).map fun r => (.number r.1, r.2) := by
  have hne : ∀ d : Char, d.isDigit = false → c ≠ d := by
    rintro d hd rfl
    rw [hd] at h
    exact absurd h (by simp)
  have hblank : isBlank (some c) = false := by
    simp [isBlank, hne ' ' (by decide), hne '\n' (by decide), hne '\t' (by decide),
      hne '\r' (by decide)]
  have hskip : skipBlanks (some c :: s) = some c :: s := by
    unfold skipBlanks
    rw [List.dropWhile_cons, hblank]
    rfl
  rw [value?, hskip]
  split
  next heq => exact absurd (by simpa using (List.cons.inj heq).1) (hne 'n' (by decide))
  next heq => exact absurd (by simpa using (List.cons.inj heq).1) (hne 't' (by decide))
  next heq => exact absurd (by simpa using (List.cons.inj heq).1) (hne 'f' (by decide))
  next heq => exact absurd (by simpa using (List.cons.inj heq).1) (hne '"' (by decide))
  next heq => exact absurd (by simpa using (List.cons.inj heq).1) (hne '[' (by decide))
  next heq => exact absurd (by simpa using (List.cons.inj heq).1) (hne '\x7b' (by decide))
  next heq => exact absurd (by simpa using (List.cons.inj heq).1) (hne '-' (by decide))
  next => cases unsignedNumber? false (some c :: s) <;> rfl

theorem value?_minus (fuel : Nat) (s : List Symbol) :
    value? (fuel + 1) (some '-' :: s) =
      (unsignedNumber? true s).map fun r => (.number r.1, r.2) := by
  show (unsignedNumber? true s >>= fun r => some (Json.number r.1, r.2)) = _
  cases unsignedNumber? true s <;> rfl

theorem digitRow_of_no_digit {s : List Symbol} (h : ∀ c s', s = some c :: s' → c.isDigit = false) :
    digitRow s = (0, 0, s) := by
  match s, h with
  | [], _ => rfl
  | none :: _, _ => rfl
  | some c :: s', h => exact digitRow_of_endsRow (h c s' rfl)

/-- Only what begins with a digit is read as a number. -/
theorem exists_digit {negative : Bool} {s : List Symbol} {r : Numeral × List Symbol}
    (h : unsignedNumber? negative s = some r) : ∃ c s', s = some c :: s' ∧ c.isDigit = true := by
  by_contra hno
  have hrow : digitRow s = (0, 0, s) := digitRow_of_no_digit fun c s' hs => by
    rw [← Bool.not_eq_true]
    exact fun hc => hno ⟨c, s', hs, hc⟩
  unfold unsignedNumber? at h
  rw [hrow] at h
  exact absurd h (by simp)

/-- **A printed number is read up to its end.** -/
theorem value?_number (n : Numeral) (fuel : Nat) {rest : List Symbol} (hrest : EndsNumber rest) :
    value? (fuel + 1) (n.text.map some ++ rest) = some (.number n.reread, rest) := by
  have hbody := Numeral.unsignedNumber?_body n hrest
  rw [Numeral.text_eq]
  cases hn : n.negative with
  | true =>
    rw [hn] at hbody
    rw [if_pos rfl, List.singleton_append, List.map_cons, List.cons_append, value?_minus, hbody]
    rfl
  | false =>
    rw [hn] at hbody
    obtain ⟨c, s, hs, hc⟩ := exists_digit hbody
    rw [if_neg (by simp), List.nil_append, hs, value?_digit hc, ← hs, hbody]
    rfl

/-! ## Values -/

theorem value?_quote (k : String) (fuel : Nat) (rest : List Symbol) :
    value? (fuel + 1) ((quote k).map some ++ rest) = some (.string (some k), rest) := by
  have hquote : (quote k).map some ++ rest =
      some '"' :: ((k.toList.flatMap escapeChar).map some ++ some '"' :: rest) := by
    simp [quote]
  rw [hquote]
  show (quotedString? _ >>= fun r => some (Json.string r.1, r.2)) = _
  rw [quotedString?_quote]
  rfl

/-- What follows an item: the next one or the end of the list. -/
theorem skipBlanks_bracket (level : Nat) (rest : List Symbol) :
    skipBlanks ((newLine level ++ [']']).map some ++ rest) = some ']' :: rest := by
  rw [List.map_append, List.append_assoc, skipBlanks_newLine]
  rfl

theorem skipBlanks_brace (level : Nat) (rest : List Symbol) :
    skipBlanks ((newLine level ++ ['\x7d']).map some ++ rest) = some '\x7d' :: rest := by
  rw [List.map_append, List.append_assoc, skipBlanks_newLine]
  rfl

theorem items?_last {fuel : Nat} {s rest : List Symbol} {v : Json} {level : Nat}
    (h : value? fuel s = some (v, (newLine level ++ [']']).map some ++ rest)) :
    items? (fuel + 1) s = some ([v], rest) := by
  rw [items?, h]
  simp only [Option.bind_eq_bind, Option.bind_some, skipBlanks_bracket]
  rfl

theorem items?_more {fuel : Nat} {s more rest : List Symbol} {v : Json} {items : List Json}
    (h : value? fuel s = some (v, some ',' :: more)) (hmore : items? fuel more = some (items, rest)) :
    items? (fuel + 1) s = some (v :: items, rest) := by
  rw [items?, h]
  simp only [Option.bind_eq_bind, Option.bind_some, skipBlanks_comma, hmore]
  rfl

/-- The symbols of a key and of what stands before its value. -/
theorem key_symbols (k : String) (s : List Symbol) :
    (quote k ++ [':', ' ']).map some ++ s = some '"' ::
      ((k.toList.flatMap escapeChar).map some ++ some '"' :: some ':' :: some ' ' :: s) := by
  simp [quote]

/-- A key is read before its value, and what follows the value decides whether there are more. -/
theorem members?_key (k : String) (fuel : Nat) (s : List Symbol) :
    members? (fuel + 1) ((quote k ++ [':', ' ']).map some ++ s) =
      value? fuel s >>= fun r =>
        match skipBlanks r.2 with
        | some '\x7d' :: rest => some ([(some k, r.1)], rest)
        | some ',' :: rest =>
          members? fuel rest >>= fun more => some ((some k, r.1) :: more.1, more.2)
        | _ => none := by
  have hspace : skipBlanks (some ' ' :: s) = skipBlanks s := rfl
  rw [key_symbols, ← value?_congr hspace]
  show (quotedString? _ >>= _) = _
  rw [quotedString?_quote]
  rfl

theorem members?_last {k : String} {fuel : Nat} {s rest : List Symbol} {v : Json} {level : Nat}
    (h : value? fuel s = some (v, (newLine level ++ ['\x7d']).map some ++ rest)) :
    members? (fuel + 1) ((quote k ++ [':', ' ']).map some ++ s) = some ([(some k, v)], rest) := by
  rw [members?_key, h]
  simp only [Option.bind_eq_bind, Option.bind_some, skipBlanks_brace]

theorem members?_more {k : String} {fuel : Nat} {s more rest : List Symbol} {v : Json}
    {members : List (Option String × Json)} (h : value? fuel s = some (v, some ',' :: more))
    (hmore : members? fuel more = some (members, rest)) :
    members? (fuel + 1) ((quote k ++ [':', ' ']).map some ++ s) =
      some ((some k, v) :: members, rest) := by
  rw [members?_key, h]
  simp only [Option.bind_eq_bind, Option.bind_some, skipBlanks_comma, hmore]

/-- No value begins with a closing bracket. -/
theorem value?_bracket {fuel : Nat} {s rest : List Symbol} (h : skipBlanks s = some ']' :: rest) :
    value? fuel s = none := by
  have hclose : skipBlanks (some ']' :: rest) = some ']' :: rest := rfl
  rw [value?_congr (h.trans hclose.symm)]
  cases fuel <;> rfl

theorem members?_brace {fuel : Nat} {s rest : List Symbol} (h : skipBlanks s = some '\x7d' :: rest) :
    members? fuel s = none := by
  have hclose : skipBlanks (some '\x7d' :: rest) = some '\x7d' :: rest := rfl
  rw [members?_congr (h.trans hclose.symm)]
  cases fuel <;> rfl

/-- What a list that was opened is read from. -/
def afterBracket? (fuel : Nat) (s : List Symbol) : Option (Json × List Symbol) :=
  match skipBlanks s with
  | some ']' :: rest => some (.array [], rest)
  | rest => items? fuel rest >>= fun r => some (.array r.1, r.2)

/-- What an object that was opened is read from. -/
def afterBrace? (fuel : Nat) (s : List Symbol) : Option (Json × List Symbol) :=
  match skipBlanks s with
  | some '\x7d' :: rest => some (.object [], rest)
  | rest => members? fuel rest >>= fun r => some (.object r.1, r.2)

/-- A list is read from its items. -/
theorem value?_array {fuel level : Nat} {s rest : List Symbol} {items : List Json}
    (h : items? fuel s = some (items, rest)) :
    value? (fuel + 1) (some '[' :: ((newLine level).map some ++ s)) =
      some (.array items, rest) := by
  have hitems : items? fuel (skipBlanks s) = some (items, rest) :=
    (items?_congr (skipBlanks_idem s) fuel).trans h
  have hclose : ∀ rest, skipBlanks s ≠ some ']' :: rest := by
    intro rest hs
    cases fuel with
    | zero => exact absurd h (by simp [items?])
    | succ fuel =>
      rw [items?, value?_bracket hs] at h
      exact absurd h (by simp)
  show afterBracket? fuel ((newLine level).map some ++ s) = _
  unfold afterBracket?
  rw [skipBlanks_newLine]
  split
  next hs => exact absurd hs (hclose _)
  next => rw [hitems]; rfl

/-- An object is read from its members. -/
theorem value?_object {fuel level : Nat} {s rest : List Symbol}
    {members : List (Option String × Json)} (h : members? fuel s = some (members, rest)) :
    value? (fuel + 1) (some '\x7b' :: ((newLine level).map some ++ s)) =
      some (.object members, rest) := by
  have hmembers : members? fuel (skipBlanks s) = some (members, rest) :=
    (members?_congr (skipBlanks_idem s) fuel).trans h
  have hclose : ∀ rest, skipBlanks s ≠ some '\x7d' :: rest := by
    intro rest hs
    rw [members?_brace hs] at h
    exact absurd h (by simp)
  show afterBrace? fuel ((newLine level).map some ++ s) = _
  unfold afterBrace?
  rw [skipBlanks_newLine]
  split
  next hs => exact absurd hs (hclose _)
  next => rw [hmembers]; rfl

theorem one_le_fuel (j : Json) : 1 ≤ j.fuel := by
  cases j with
  | array items => exact Nat.le_add_left ..
  | object members => exact Nat.le_add_left ..
  | null => exact Nat.le_refl _
  | bool b => exact Nat.le_refl _
  | number n => exact Nat.le_refl _
  | string s => exact Nat.le_refl _

theorem endsNumber_comma (s : List Symbol) : EndsNumber (some ',' :: s) := by
  refine ⟨?_, ?_, ?_, ?_⟩ <;> decide

mutual

/-- **A printed value is read up to its end.** -/
theorem value?_indented : ∀ (j : Json) (level : Nat) {fuel : Nat} {rest : List Symbol},
    j.fuel ≤ fuel + 1 → EndsNumber rest →
      value? (fuel + 1) ((j.indentedChars level).map some ++ rest) = some (j.reread, rest)
  | .null, _, _, _, _, _ => rfl
  | .bool true, _, _, _, _, _ => rfl
  | .bool false, _, _, _, _, _ => rfl
  | .number n, _, fuel, _, _, hrest => value?_number n fuel hrest
  | .string s, _, fuel, rest, _, _ => value?_quote (s.getD "") fuel rest
  | .array [], _, _, _, _, _ => rfl
  | .array (v :: items), level, fuel, rest, hfuel, _ => by
    rw [Json.fuel] at hfuel
    have htext : ((Json.array (v :: items)).indentedChars level).map some ++ rest =
        some '[' :: ((newLine (level + 1)).map some ++ ((v.indentedChars (level + 1) ++
          indentedItems (level + 1) items ++ newLine level ++ [']']).map some ++ rest)) := by
      simp [indentedChars]
    rw [htext]
    exact value?_array (items?_indented v items level (Nat.le_of_succ_le_succ hfuel))
  | .object [], _, _, _, _, _ => rfl
  | .object ((k, v) :: members), level, fuel, rest, hfuel, _ => by
    rw [Json.fuel] at hfuel
    have htext : ((Json.object ((k, v) :: members)).indentedChars level).map some ++ rest =
        some '\x7b' :: ((newLine (level + 1)).map some ++ ((quoteKey k ++ [':', ' '] ++
          v.indentedChars (level + 1) ++ indentedMembers (level + 1) members ++ newLine level ++
            ['\x7d']).map some ++ rest)) := by
      simp [indentedChars]
    rw [htext]
    exact value?_object (members?_indented k v members level (Nat.le_of_succ_le_succ hfuel))
termination_by j => sizeOf j

/-- Printed items are read up to the closing bracket. -/
theorem items?_indented : ∀ (v : Json) (items : List Json) (level : Nat) {fuel : Nat}
    {rest : List Symbol}, fuelOfItems (v :: items) ≤ fuel →
      items? fuel ((v.indentedChars (level + 1) ++ indentedItems (level + 1) items ++ newLine level ++
        [']']).map some ++ rest) = some (v.reread :: rereadItems items, rest)
  | v, items, level, 0, rest, hfuel => by
    rw [fuelOfItems] at hfuel
    omega
  | v, items, level, 1, rest, hfuel => by
    rw [fuelOfItems] at hfuel
    have := one_le_fuel v
    omega
  | v, [], level, fuel + 2, rest, hfuel => by
    rw [fuelOfItems] at hfuel
    have htext : (v.indentedChars (level + 1) ++ indentedItems (level + 1) [] ++ newLine level ++
        [']']).map some ++ rest = (v.indentedChars (level + 1)).map some ++
          ((newLine level ++ [']']).map some ++ rest) := by simp [indentedItems]
    have hends : EndsNumber ((newLine level ++ [']']).map some ++ rest) := by
      rw [List.map_append, List.append_assoc]
      exact endsNumber_newLine level _
    rw [htext]
    exact items?_last (value?_indented v (level + 1) (by omega) hends)
  | v, w :: items, level, fuel + 2, rest, hfuel => by
    rw [fuelOfItems] at hfuel
    have htext : (v.indentedChars (level + 1) ++ indentedItems (level + 1) (w :: items) ++
        newLine level ++ [']']).map some ++ rest = (v.indentedChars (level + 1)).map some ++
          (some ',' :: ((newLine (level + 1)).map some ++ ((w.indentedChars (level + 1) ++
            indentedItems (level + 1) items ++ newLine level ++ [']']).map some ++ rest))) := by
      simp [indentedItems]
    rw [htext]
    refine items?_more (value?_indented v (level + 1) (by omega) (endsNumber_comma _)) ?_
    rw [items?_congr (skipBlanks_newLine ..)]
    exact items?_indented w items level (by omega)
termination_by v items => sizeOf v + sizeOf items + 1

/-- Printed members are read up to the closing brace. -/
theorem members?_indented : ∀ (k : Option String) (v : Json)
    (members : List (Option String × Json)) (level : Nat) {fuel : Nat} {rest : List Symbol},
      fuelOfMembers ((k, v) :: members) ≤ fuel →
        members? fuel ((quoteKey k ++ [':', ' '] ++ v.indentedChars (level + 1) ++
          indentedMembers (level + 1) members ++ newLine level ++ ['\x7d']).map some ++ rest) =
            some ((some (k.getD ""), v.reread) :: rereadMembers members, rest)
  | k, v, members, level, 0, rest, hfuel => by
    rw [fuelOfMembers] at hfuel
    omega
  | k, v, members, level, 1, rest, hfuel => by
    rw [fuelOfMembers] at hfuel
    have := one_le_fuel v
    omega
  | k, v, [], level, fuel + 2, rest, hfuel => by
    rw [fuelOfMembers] at hfuel
    have htext : (quoteKey k ++ [':', ' '] ++ v.indentedChars (level + 1) ++
        indentedMembers (level + 1) [] ++ newLine level ++ ['\x7d']).map some ++ rest =
          (quoteKey k ++ [':', ' ']).map some ++ ((v.indentedChars (level + 1)).map some ++
            ((newLine level ++ ['\x7d']).map some ++ rest)) := by simp [indentedMembers]
    have hends : EndsNumber ((newLine level ++ ['\x7d']).map some ++ rest) := by
      rw [List.map_append, List.append_assoc]
      exact endsNumber_newLine level _
    rw [htext]
    exact members?_last (value?_indented v (level + 1) (by omega) hends)
  | k, v, (k', w) :: members, level, fuel + 2, rest, hfuel => by
    rw [fuelOfMembers] at hfuel
    have htext : (quoteKey k ++ [':', ' '] ++ v.indentedChars (level + 1) ++
        indentedMembers (level + 1) ((k', w) :: members) ++ newLine level ++ ['\x7d']).map some ++
          rest = (quoteKey k ++ [':', ' ']).map some ++ ((v.indentedChars (level + 1)).map some ++
            (some ',' :: ((newLine (level + 1)).map some ++ ((quoteKey k' ++ [':', ' '] ++
              w.indentedChars (level + 1) ++ indentedMembers (level + 1) members ++ newLine level ++
                ['\x7d']).map some ++ rest)))) := by
      simp [indentedMembers]
    rw [htext]
    refine members?_more (value?_indented v (level + 1) (by omega) (endsNumber_comma _)) ?_
    rw [members?_congr (skipBlanks_newLine ..)]
    exact members?_indented k' w members level (by omega)
termination_by _ v members => sizeOf v + sizeOf members + 1

end

/-! ## Whole texts -/

theorem quoteKey_length (k : Option String) : 2 ≤ (quoteKey k).length := by
  unfold quoteKey quote
  simp

theorem text_length (n : Numeral) : 1 ≤ n.text.length := by
  obtain ⟨c, s, hs, -⟩ := exists_digit (Numeral.unsignedNumber?_body n (show EndsNumber [] from trivial))
  have hlen := congrArg List.length hs
  rw [List.append_nil, List.length_map, List.length_cons] at hlen
  rw [Numeral.text_eq, List.length_append, hlen]
  omega

mutual

/-- Each step of reading a value takes a character of its text. -/
theorem fuel_le_length : ∀ (j : Json) (level : Nat), j.fuel ≤ (j.indentedChars level).length
  | .null, _ => by simp [Json.fuel, indentedChars]
  | .bool true, _ => by simp [Json.fuel, indentedChars]
  | .bool false, _ => by simp [Json.fuel, indentedChars]
  | .number n, _ => text_length n
  | .string s, _ => Nat.le_of_lt (quoteKey_length s)
  | .array [], _ => by simp [Json.fuel, fuelOfItems, indentedChars]
  | .array (v :: items), level => by
    have hv := fuel_le_length v (level + 1)
    have hitems := fuelOfItems_le_length items (level + 1)
    rw [Json.fuel, fuelOfItems, indentedChars]
    simp only [List.length_append, List.length_cons, List.length_nil]
    omega
  | .object [], _ => by simp [Json.fuel, fuelOfMembers, indentedChars]
  | .object ((k, v) :: members), level => by
    have hv := fuel_le_length v (level + 1)
    have hmembers := fuelOfMembers_le_length members (level + 1)
    rw [Json.fuel, fuelOfMembers, indentedChars]
    simp only [List.length_append, List.length_cons, List.length_nil]
    omega

theorem fuelOfItems_le_length : ∀ (items : List Json) (level : Nat),
    fuelOfItems items ≤ (indentedItems level items).length
  | [], _ => Nat.zero_le _
  | v :: items, level => by
    have hv := fuel_le_length v level
    have hitems := fuelOfItems_le_length items level
    rw [fuelOfItems, indentedItems]
    simp only [List.length_append, List.length_cons]
    omega

theorem fuelOfMembers_le_length : ∀ (members : List (Option String × Json)) (level : Nat),
    fuelOfMembers members ≤ (indentedMembers level members).length
  | [], _ => Nat.zero_le _
  | (k, v) :: members, level => by
    have hv := fuel_le_length v level
    have hmembers := fuelOfMembers_le_length members level
    rw [fuelOfMembers, indentedMembers]
    simp only [List.length_append, List.length_cons]
    omega

end

/-- **A printed value is read back.** -/
theorem parse?_indented (j : Json) : parse? j.indented = some j.reread := by
  have hsymbols : Text.ofString j.indented = (j.indentedChars 0).map some := by
    unfold Text.ofString indented
    rw [String.toList_ofList]
  have hfuel : j.fuel ≤ 2 * (j.indentedChars 0).length + 1 + 1 := by
    have := fuel_le_length j 0
    omega
  have hread := value?_indented j 0 hfuel (show EndsNumber [] from trivial)
  unfold parse? ofSymbols?
  rw [hsymbols, List.length_map]
  rw [List.append_nil] at hread
  rw [hread]
  rfl

end Json

end QmlStubs
