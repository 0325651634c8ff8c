import StepBinding.Compile
import StepBinding.FileTree
import StepBinding.Toml

/-! Settings of a project. They are read from the nearest settings file above the source,
or have their defaults; values are kept as they were written and checked afterwards. -/

namespace StepBinding

structure Settings where
  stem : Data := .string "_tb"
  target : Data := .string "es2015"
  shadowWarnings : Data := .boolean true
  globals : Data := .list []
  extension : Data := .string ".js"
  sources : Data := .list [.string "*.tbjs"]
  /-- The file that the settings are from. -/
  path : Option Path := none

namespace Settings

/-- Why settings cannot be used. -/
inductive Problem
  | badTarget (origin : String) (got : Data)
  | badStem (origin : String) (got : Data)
  | badGlobal (origin : String) (got : Data)
  | badExtension (origin : String) (got : Data)
  /-- A value that is not a text where its characters are asked for. -/
  | notText
  /-- A value without elements where elements are needed. -/
  | notSequence
  /-- Named fields where a first element is needed. -/
  | notOrdered
  /-- A file that is not a settings file. -/
  | malformed (why : Toml.Fault)
  | file (e : FileError)

namespace Problem

/-- What is said about a wrong value; the other problems have no text. -/
def message? : Problem → Option String
  | badTarget origin got =>
    some (origin ++ ": [lower] target must be 'es2015' or 'es5', got " ++ got.shown)
  | badStem origin got =>
    some (origin ++ ": [lower] prefix must be an identifier, got " ++ got.shown)
  | badGlobal origin got =>
    some (origin ++ ": [lower] globals must be identifiers, got " ++ got.shown)
  | badExtension origin got =>
    some (origin ++ ": [output] extension must start with '.', got " ++ got.shown)
  | _ => none

end Problem

open Text.CharClass

def isIdentifier (s : String) : Bool :=
  match s.toList with
  | [] => false
  | c :: cs => isWordStart c && (c :: cs).all isWordPart

/-- A text of letters, or one that is part of `_$`. -/
def startsWord (s : String) : Bool :=
  (!s.isEmpty && s.toList.all isLetter) || ["", "_", "$", "_$"].contains s

def isWordPiece (s : String) : Bool :=
  (!s.isEmpty && s.toList.all isAlphanumeric) || ["", "_", "$", "_$"].contains s

/-- Whether every element is a piece of an identifier. -/
def arePieces : List Data → Except Problem Bool
  | [] => .ok true
  | .string s :: ds => if isWordPiece s then arePieces ds else .ok false
  | _ :: _ => .error .notText

/-- Whether data can be spelled as an identifier; a list is taken element by element. -/
def spellsIdentifier : Data → Except Problem Bool
  | .string s => .ok (isIdentifier s)
  | .list (.string s :: ds) => if startsWord s then arePieces (.string s :: ds) else .ok false
  | .list (_ :: _) => .error .notText
  | .record (_ :: _) => .error .notOrdered
  | d => if d.isSomething then .error .notSequence else .ok false

/-- The elements of data: those of a list, the characters of a text, the names of fields. -/
def elements? : Data → Option (List Data)
  | .list items => some items
  | .string s => some (s.toList.map fun c => .string c.toString)
  | .record fields => some (fields.map fun f => .string f.1)
  | _ => none

def checkGlobals (origin : String) : List Data → Except Problem Unit
  | [] => .ok ()
  | .string s :: ds =>
    if isIdentifier s then checkGlobals origin ds else .error (.badGlobal origin (.string s))
  | d :: _ => .error (.badGlobal origin d)

/-- Refuses values that cannot give valid output; the origin says where they are from. -/
def validate (s : Settings) (origin : String) : Except Problem Unit := do
  match s.target with
  | .string name => if (Target.ofName? name).isNone then throw (.badTarget origin s.target)
  | _ => throw (.badTarget origin s.target)
  if !(← spellsIdentifier s.stem) then throw (.badStem origin s.stem)
  match elements? s.globals with
  | none => throw .notSequence
  | some names => checkGlobals origin names
  match s.extension with
  | .string text => if !text.startsWith "." then throw (.badExtension origin s.extension)
  | _ => throw .notText

/-- Changes the values of settings that a table gives. -/
def withTable (s : Settings) (table : Option Data)
    (change : Settings → List (String × Data) → Settings) : Except Problem Settings :=
  match table with
  | none => .ok s
  | some (.record fields) => .ok (change s fields)
  | some _ => .error .notText

def withLower (s : Settings) (fields : List (String × Data)) : Settings :=
  { s with
    stem := (Data.field? fields "prefix").getD s.stem
    target := (Data.field? fields "target").getD s.target
    shadowWarnings := (Data.field? fields "shadow_warnings").getD s.shadowWarnings
    globals := (Data.field? fields "globals").getD s.globals }

def withOutput (s : Settings) (fields : List (String × Data)) : Settings :=
  { s with
    extension := (Data.field? fields "extension").getD s.extension
    sources := (Data.field? fields "sources").getD s.sources }

/-- The settings in a file. -/
def load (t : FileTree) (path : Path) : Except Problem Settings := do
  let text ← (t.read path).mapError .file
  let toml ← (Toml.ofText text).mapError .malformed
  let s ← withTable { path := some path } (toml.get? "lower") withLower
  let s ← withTable s (toml.get? "output") withOutput
  s.validate path.text
  return s

def fileName : String := "tempbind.toml"

/-- The nearest settings file in a directory or above it. -/
def nearest? (t : FileTree) (place : List String) : Option Path :=
  let path : Path := { parts := place ++ [fileName], isAbsolute := true }
  if t.exists_ path then some path
  else match place with
    | [] => none
    | part :: parts => nearest? t (part :: parts).dropLast
termination_by place.length

/-- The settings file for a source file or a directory. -/
def find (t : FileTree) (start : Path) : Except Problem (Option Path) :=
  match t.resolved? start with
  | none => .error (.file .linkLoop)
  | some place => .ok (nearest? t (if t.isFileAt place then place.dropLast else place))

/-- The settings for a source file or a directory. -/
def resolve (t : FileTree) (start : Path) : Except Problem Settings := do
  match ← find t start with
  | none => return {}
  | some path => load t path

/-- The part of the settings that lowering needs. -/
def lowering (s : Settings) : LowerSettings :=
  { stem := match s.stem with
      | .string text => text
      | d => d.shown
    target := match s.target with
      | .string text => text
      | d => d.shown
    shadowWarnings := s.shadowWarnings.isSomething
    globals := ((elements? s.globals).getD []).filterMap fun
      | .string text => some text
      | _ => none }

/-- The patterns of source file names, if there is nothing but texts. -/
def patterns? (s : Settings) : Option (List String) := do
  (← elements? s.sources).mapM fun
    | .string text => some text
    | _ => none

def outputSuffix (s : Settings) : String :=
  match s.extension with
  | .string text => text
  | d => d.shown

/-- The settings file for a new project. -/
def starterText (stem target : String) : String :=
  "[lower]\nprefix = \"" ++ stem ++ "\"\ntarget = \"" ++ target ++ "\"\nshadow_warnings = true\n"
    ++ "globals = []\n\n[output]\nextension = \".js\"\nsources = [\"*.tbjs\"]\n"

/-- An example program for a new project. -/
def exampleText : String :=
  "// Each step reads the previous value through $.\n"
    ++ "const($) total = 10, $ + 2, $ * 2;\nconsole.log(total);\n"

/-- Why a new project cannot be set up. -/
inductive StarterProblem
  | alreadyThere (path : Path)
  | file (e : FileError)
deriving DecidableEq, Repr

def filed (change : FileTree.Change Unit) : EStateM StarterProblem FileTree Unit := fun t =>
  match change t with
  | .ok () t => .ok () t
  | .error e t => .error (.file e) t

/-- Sets up a new project in a directory and gives the path of its settings file. -/
def starter (directory : Path) (stem target : String) (withExample : Bool) :
    EStateM StarterProblem FileTree Path := do
  filed (FileTree.makeDirectory directory)
  let path := directory.child fileName
  if (← get).exists_ path then throw (.alreadyThere path)
  filed (FileTree.write path (starterText stem target))
  if withExample then filed (FileTree.write (directory.child "example.tbjs") exampleText)
  return path

end Settings

end StepBinding
