import StepBinding.Grammar.Program
import StepBinding.Resolved
import StepBinding.Splice
import StepBinding.Tree.Print

/-! From program text to lowered program text: the text is read, resolved, lowered and
printed, and its diagnostics are put in the order of the source. A text that is not in
the language has diagnostics only. Rejected step bindings are left out of the code and
nothing else is affected by them. -/

namespace StepBinding

/-- How programs are lowered. The target is looked up by its name when lowering starts. -/
structure LowerSettings where
  stem : String := "_tb"
  target : String := "es2015"
  shadowWarnings : Bool := true
  globals : List String := []
deriving DecidableEq, Repr, Inhabited

namespace Compile

open Construct

/-- Why there is no result at all. Only an unknown target can be the reason; the others do not
happen. -/
inductive Failure
  | unknownTarget (name : String)
  | stopped (why : Grammar.Stop)
  | refused (why : Refusal)
  | unspliced (why : Splice.Problem)
  | unprintable (why : Tree.Print.Problem)
deriving DecidableEq, Repr

namespace Failure

def message : Failure → String
  | unknownTarget name =>
    "unknown target " ++ Text.Quoted.quoted name ++ "; expected one of "
      ++ ", ".intercalate (Target.all.map Target.name)
  | stopped (.refused why) => why.message
  | stopped _ => "reading stopped"
  | refused why => why.message
  | unspliced why => why.message
  | unprintable why => why.message

end Failure

/-- A module that was read, with its diagnostics and the records of its step bindings. -/
structure Source where
  module : Module
  diagnostics : List Diagnostic
  log : Log

/-- A program text that is not in the language: why, and the records if it has a token stream. -/
structure Invalid where
  diagnostics : List Diagnostic
  log : Option Log := none

/-- Reads a program text. -/
def read (file text : String) : Except Failure (Except Invalid Source) :=
  match Token.Stream.ofText file text with
  | .error diagnostics => .ok (.error { diagnostics })
  | .ok tokens =>
    match Grammar.Program.ofTokens file tokens with
    | .error why => .error (.stopped why)
    | .ok p =>
      match p.module? with
      | none => .ok (.error { diagnostics := p.diagnostics, log := some p.log })
      | some module => .ok (.ok { module, diagnostics := p.diagnostics, log := p.log })

structure Result where
  code : Option String
  module : Option Module
  diagnostics : List Diagnostic
  constructs : List Record

namespace Result

def errors (r : Result) : List Diagnostic := r.diagnostics.filter Diagnostic.isError

def warnings (r : Result) : List Diagnostic := r.diagnostics.filter fun d => d.severity == .warning

def isOk (r : Result) : Bool := r.errors.isEmpty

end Result

/-- Diagnostics by the start of their main range; those at one place stay in order. -/
def inSourceOrder (ds : List Diagnostic) : List Diagnostic :=
  ds.mergeSort fun d e => !e.placedBefore d

/-- Resolves a source with the settings. -/
def resolve (settings : LowerSettings) (source : Source) : Except Refusal Resolved :=
  Resolved.ofModule { stem := settings.stem } settings.shadowWarnings settings.globals source.log
    source.module

/-- The result for a source. -/
def lower (settings : LowerSettings) (source : Source) : Except Failure Result := do
  let resolved ← (resolve settings source).mapError .refused
  match Target.ofName? settings.target with
  | none => throw (.unknownTarget settings.target)
  | some target =>
    let (module, log) ← (Splice.module target resolved.module resolved.log).mapError .unspliced
    let code ← (Tree.Print.module? "  " module).mapError .unprintable
    return {
      code := some code
      module := some module
      diagnostics := inSourceOrder (source.diagnostics ++ resolved.diagnostics)
      constructs := log.records }

/-- The result for a program text. -/
def transform (settings : LowerSettings) (file text : String) : Except Failure Result := do
  match ← read file text with
  | .error invalid =>
    return { code := none, module := none, diagnostics := invalid.diagnostics, constructs := [] }
  | .ok source => lower settings source

/-- The lowered text of a program without errors, or its errors. -/
def lowerText (settings : LowerSettings) (file text : String) :
    Except Failure (Except (List Diagnostic) String) := do
  let result ← transform settings file text
  match result.code with
  | some code => return if result.isOk then .ok code else .error result.errors
  | none => return .error result.errors

end Compile

end StepBinding
