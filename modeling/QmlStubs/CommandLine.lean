import QmlStubs.Settings
import QmlStubs.Text.Blank

/-!
# The command line

Arguments name input directories or are options, in any order; after `--` all are directories.
An option with a value takes it after an equals sign or from the next argument, which must not look
like an option, and all but `--ignore` may be given once. Arguments are taken from left to right,
and the first one that is wrong, or that asks for help or the version, decides.
-/

set_option autoImplicit false

namespace QmlStubs

/-- What the arguments ask for. Options that are given override the settings. -/
structure Options where
  inDirs : List Path
  outDir : Option Path
  ignore : List Path
  metatypesDir : Option Path
  registrarPath : Option Path
  relativeTo : Option Path
  interpreter : Option String
  settingsFile : Option Path
  forceRebuild : Bool
  verbose : Bool
  deriving DecidableEq

/-- Why the generator does not run after its arguments were read. -/
inductive CommandLineStop where
  | wrongUsage
  | help
  | version
  deriving DecidableEq

namespace Options

/-- No arguments. -/
def none : Options := ⟨[], .none, [], .none, .none, .none, .none, .none, false, false⟩

/-- What reading an argument leaves: the options, or the reason to stop. -/
abbrev Reading := Except CommandLineStop Options

/-- A path, which must not be empty. -/
def path? (s : String) : Except CommandLineStop Path :=
  if s = "" then .error .wrongUsage else .ok ⟨s⟩

/-- Set an option that may be given once. -/
def once {α : Type} (given : Option α) (o : Options) : Reading :=
  if given.isSome then .error .wrongUsage else .ok o

/-- Set a flag, which may be given once. -/
def flag (given : Bool) (o : Options) : Reading := if given then .error .wrongUsage else .ok o

/-- Whether a name is that of an option with a value. -/
def takesValue (name : String) : Bool :=
  ["out-dir", "ignore", "metatypes-dir", "qmltyperegistrar-path", "file-relative-path",
    "interpreter", "config"].contains name

/-- Add an input directory. -/
def addInput (o : Options) (s : String) : Reading := do
  return { o with inDirs := o.inDirs ++ [← path? s] }

/-- Set an option with a value. -/
def setValue (o : Options) (name value : String) : Reading := do
  match name with
  | "out-dir" => once o.outDir { o with outDir := some (← path? value) }
  | "ignore" => return { o with ignore := o.ignore ++ [← path? value] }
  | "metatypes-dir" => once o.metatypesDir { o with metatypesDir := some (← path? value) }
  | "qmltyperegistrar-path" =>
    once o.registrarPath { o with registrarPath := some (← path? value) }
  | "file-relative-path" => once o.relativeTo { o with relativeTo := some (← path? value) }
  | "interpreter" => once o.interpreter { o with interpreter := some value }
  | "config" => once o.settingsFile { o with settingsFile := some (← path? value) }
  | _ => throw .wrongUsage

/-- Set an option without a value. -/
def setFlag (o : Options) (name : String) : Reading :=
  match name with
  | "force-rebuild" => flag o.forceRebuild { o with forceRebuild := true }
  | "verbose" => flag o.verbose { o with verbose := true }
  | "help" => .error .help
  | "version" => .error .version
  | _ => .error .wrongUsage

/-- The name of an option without a value that a letter stands for. -/
def nameOfLetter (c : Char) : String :=
  if c = 'v' then "verbose" else if c = 'h' then "help" else if c = 'V' then "version" else ""

/-- Set the options of letters after one minus. -/
def setLetters (o : Options) (letters : List Char) : Reading :=
  letters.foldlM (fun o c => o.setFlag (nameOfLetter c)) o

/-- Whether an argument can be the value of the option before it: a minus starts an option, unless
it stands alone. -/
def isValue (s : String) : Bool :=
  match s.toList with
  | ['-'] => true
  | '-' :: _ => false
  | _ => true

/-- Read arguments on top of options. -/
def readFrom (o : Options) : List String → Reading
  | [] => .ok o
  | arg :: rest =>
    match arg.toList with
    | ['-', '-'] => rest.foldlM addInput o
    | '-' :: '-' :: long =>
      let name := String.ofList (long.takeWhile (· ≠ '='))
      match long.dropWhile (· ≠ '=') with
      | _ :: value =>
        if takesValue name then do
          readFrom (← o.setValue name (String.ofList value)) rest
        else .error .wrongUsage
      | [] =>
        if takesValue name then
          match rest with
          | value :: rest =>
            if isValue value then do readFrom (← o.setValue name value) rest
            else .error .wrongUsage
          | [] => .error .wrongUsage
        else do readFrom (← o.setFlag name) rest
    | '-' :: letter :: letters => do readFrom (← o.setLetters (letter :: letters)) rest
    | _ => do readFrom (← o.addInput arg) rest

/-- Read all arguments. -/
def read (args : List String) : Reading := readFrom none args

/-- Put options on top of settings. -/
def apply (o : Options) (s : Settings) : Settings :=
  { s with
    inDirs := if o.inDirs.isEmpty then s.inDirs else o.inDirs
    outDir := o.outDir.getD s.outDir
    ignore := if o.ignore.isEmpty then s.ignore else o.ignore
    metatypesDir := o.metatypesDir.or s.metatypesDir
    registrarPath := o.registrarPath.or s.registrarPath
    relativeTo := o.relativeTo.or s.relativeTo
    interpreter := (o.interpreter.map Text.words).getD s.interpreter
    forceRebuild := s.forceRebuild || o.forceRebuild }

end Options

end QmlStubs
