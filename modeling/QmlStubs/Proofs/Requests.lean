import QmlStubs.Importer.Helper
import QmlStubs.Proofs.JsonRoundTrip
import QmlStubs.Proofs.Places

/-!
# Lines to and from the helper

The importer and its helper agree on where a message ends: at the end of a line. A request keeps to
that because a printed string holds no line end, whatever the module's name is, so the text that was
sent splits back into the requests (`split_sentText`), and each of them says the name it was made
from (`parse?_requestLine`). An answer keeps to it by assumption; then reading up to the first line
end takes the whole answer and leaves nothing behind for the next request (`splitLine_line`).
-/

set_option autoImplicit false

namespace QmlStubs

namespace Json

/-- A hexadecimal digit is read as one, and a line end is not. -/
theorem newline_ne_digitChar {n : Nat} (h : n < 16) : '\n' ≠ Nat.digitChar n := by
  intro he
  have hread := hexDigit?_digitChar h
  rw [← he] at hread
  exact absurd hread (by simp [hexDigit?])

/-- A line end is a control, and all controls are escaped. -/
theorem newline_notMem_escapeChar (c : Char) : '\n' ∉ escapeChar c := by
  unfold escapeChar
  split
  case h_8 =>
    split
    case isTrue hc =>
      have hcode : c.toNat < 32 := hc
      simp only [List.mem_cons, List.not_mem_nil, or_false, not_or]
      exact ⟨by decide, by decide, by decide, by decide, newline_ne_digitChar (by omega),
        newline_ne_digitChar (by omega)⟩
    case isFalse hc =>
      rw [List.mem_singleton]
      rintro rfl
      exact hc (by decide)
  all_goals decide

theorem newline_notMem_quote (s : String) : '\n' ∉ quote s := by
  unfold quote
  simp only [List.mem_append, List.mem_cons, List.mem_flatMap, List.not_mem_nil, or_false, not_or,
    not_exists, not_and]
  exact ⟨⟨by decide, fun c _ => newline_notMem_escapeChar c⟩, by decide⟩

end Json

namespace Helper

open Json (quote stringPieces?)

/-! ## Requests -/

/-- The text of a request: the name between fixed parts. -/
theorem toList_requestLine (name : String) :
    (requestLine name).toList = '\x7b' :: quote "import" ++ ':' :: quote name ++ ['\x7d'] := by
  unfold requestLine Json.compact
  rw [String.toList_ofList]
  simp [Json.record, Json.text, Json.compactChars, Json.compactMembers, Json.quoteKey]

/-- A request is one line. -/
theorem newline_notMem_requestLine (name : String) : '\n' ∉ (requestLine name).toList := by
  rw [toList_requestLine]
  simp only [List.cons_append, List.mem_cons, List.mem_append, List.not_mem_nil, or_false, not_or]
  exact ⟨by decide, ⟨Json.newline_notMem_quote _, by decide, Json.newline_notMem_quote _⟩,
    by decide⟩

theorem quote_symbols (s : String) (rest : List Text.Symbol) : (quote s).map some ++ rest =
    some '"' :: ((s.toList.flatMap Json.escapeChar).map some ++ some '"' :: rest) := by
  simp [quote]

/-- The only member of a request. -/
theorem members?_request (key value : String) (fuel : Nat) :
    Json.members? (fuel + 2)
        ((quote key).map some ++ some ':' :: ((quote value).map some ++ [some '\x7d'])) =
      some ([(some key, .string (some value))], []) := by
  rw [quote_symbols key]
  simp only [Json.members?, Json.skipBlanks_quote, Json.quotedString?_quote,
    Option.bind_eq_bind, Option.bind_some, Json.skipBlanks_colon, Json.value?_quote]
  rfl

/-- **A request says which module is asked for**, whatever characters its name is made of. -/
theorem parse?_requestLine (name : String) :
    Json.parse? (requestLine name) = some (Json.record [("import", .text name)]) := by
  have hsymbols : Text.ofString (requestLine name) = some '\x7b' :: ((quote "import").map some ++
      some ':' :: ((quote name).map some ++ [some '\x7d'])) := by
    unfold Text.ofString
    rw [toList_requestLine]
    simp
  have hmembers := members?_request "import" name
  -- the reader looks for the end of the object first, and finds a quote
  obtain ⟨tail, htail⟩ : ∃ tail, (quote "import").map some ++
      some ':' :: ((quote name).map some ++ [some '\x7d']) = some '"' :: tail :=
    ⟨_, quote_symbols ..⟩
  rw [htail] at hsymbols hmembers
  have hopen : ∀ s, Json.skipBlanks (some '\x7b' :: s) = some '\x7b' :: s := fun _ => rfl
  have hclose : ∀ rest, some '"' :: tail ≠ some '\x7d' :: rest := by simp
  have hread : ∀ fuel, Json.value? (fuel + 3) (some '\x7b' :: some '"' :: tail) =
      some (Json.record [("import", .text name)], []) := fun fuel => by
    simp only [Json.value?, hopen, Json.skipBlanks_quote, hmembers]
    rfl
  unfold Json.parse? Json.ofSymbols?
  rw [hsymbols]
  have hfuel : 2 * (some '\x7b' :: some '"' :: tail).length + 2 = (2 * tail.length + 3) + 3 := by
    simp only [List.length_cons]
    omega
  rw [hfuel, hread]
  rfl

/-- What is sent for a list of requests: each with its line end. -/
def sentText (requests : List String) : List Char := requests.flatMap fun r => r.toList ++ ['\n']

/-- **What was sent splits into the requests**, and nothing follows the last line end. -/
theorem split_sentText {requests : List String} (h : ∀ r ∈ requests, '\n' ∉ r.toList) :
    Text.split '\n' (sentText requests) = requests.map String.toList ++ [[]] := by
  induction requests with
  | nil => rfl
  | cons r rest ih =>
    have hrest := ih fun r' hr' => h r' (List.mem_cons_of_mem _ hr')
    have hr : '\n' ∉ r.toList := h r (List.mem_cons_self ..)
    have htext : sentText (r :: rest) = r.toList ++ '\n' :: sentText rest := by
      simp [sentText]
    rw [htext, Text.split_append, hrest, Text.split_eq_singleton hr]
    rfl

/-! ## Answers -/

theorem toList_push (b : ByteArray) (x : UInt8) : (b.push x).toList = b.data.toList ++ [x] := by
  have hloop : ∀ (b : ByteArray) (i : Nat) (done : List UInt8),
      ByteArray.toList.loop b i done = done.reverse ++ b.data.toList.drop i := by
    intro b i done
    induction i, done using ByteArray.toList.loop.induct b with
    | case1 i done hi ih =>
      have hlength : i < b.data.toList.length := by simpa using hi
      have hget : b.get! i = b.data.toList[i] := by
        rw [Array.getElem_toList]
        exact getElem!_pos b.data i (by simpa using hi)
      rw [ByteArray.toList.loop, if_pos hi, ih, List.drop_eq_getElem_cons hlength, hget,
        List.reverse_cons, List.append_assoc]
      rfl
    | case2 i done hi =>
      rw [ByteArray.toList.loop, if_neg hi, List.drop_eq_nil_of_le (by simpa using hi),
        List.append_nil]
  unfold ByteArray.toList
  rw [hloop]
  simp

/-- The byte that ends a line. -/
abbrev newline : UInt8 := '\n'.toUInt8

/-- Reading stops at the only line end, which is the last byte. -/
theorem splitLine_line {line : List UInt8} (h : newline ∉ line) :
    splitLine (line ++ [newline]) = (line ++ [newline], []) := by
  induction line with
  | nil => rfl
  | cons b rest ih =>
    rw [List.mem_cons, not_or] at h
    rw [List.cons_append, splitLine, if_neg (Ne.symm h.1), ih h.2]

end Helper

end QmlStubs
