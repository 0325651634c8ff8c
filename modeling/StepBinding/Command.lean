import StepBinding.Command.Arguments
import StepBinding.Highlight
import StepBinding.Machine.Session
import StepBinding.Report
import StepBinding.Settings
import StepBinding.Tree.Outline

/-! The commands of the program as actions on a file tree and two output streams. Files
are lowered, checked, run or shown; problems go to the error stream and make the exit
code one. What is written to a stream loses its terminal codes unless colour is asked for. -/

namespace StepBinding.Command

/-- The files and what was written so far. -/
structure Console where
  tree : FileTree
  out : String := ""
  err : String := ""

/-- Failures that the program has no message for. -/
inductive Failure
  | settings (p : Settings.Problem)
  | file (e : FileError)
  | machine (e : Machine.Exit)
  | compile (f : Compile.Failure)
  | pattern (f : Pattern.Fault)
  | badSuffix

/-- Why a command ends early. -/
inductive Stop
  | exit (code : Nat)
  | failed (why : Failure)

abbrev Action := EStateM Stop Console

/-- The length of a terminal code at the start of a text. -/
def codeLength? : List Char → Option Nat
  | '\x1b' :: '[' :: cs =>
    let isParameter (c : Char) : Bool := c == ';' || c == '?' || c.isDigit
    let n := (cs.takeWhile isParameter).length
    if (cs.drop n).head?.any Char.isAlpha then some (n + 3) else none
  | _ => none

/-- A text without terminal codes, after some characters that belong to one. -/
def plainFrom : Nat → List Char → List Char
  | _, [] => []
  | n + 1, _ :: cs => plainFrom n cs
  | 0, c :: cs =>
    match codeLength? (c :: cs) with
    | some n => plainFrom (n - 1) cs
    | none => c :: plainFrom 0 cs

def plain (s : String) : String := String.ofList (plainFrom 0 s.toList)

def print (s : String) : Action Unit := modify fun c => { c with out := c.out ++ s }

def say (line : String) : Action Unit := print (plain line ++ "\n")

def complain (line : String) : Action Unit :=
  modify fun c => { c with err := c.err ++ plain line ++ "\n" }

def fail {α : Type} (why : Failure) : Action α := throw (.failed why)

/-- Ends with a problem that has a message. -/
def refuse {α : Type} (message : String) : Action α := do
  complain ("error: " ++ message)
  throw (.exit 1)

def files : Action FileTree := return (← get).tree

def settled {α : Type} : Except Settings.Problem α → Action α
  | .ok a => pure a
  | .error p => match p.message? with
    | some message => refuse message
    | none => fail (.settings p)

def filed (change : FileTree.Change Unit) : Action Unit := fun c =>
  match change c.tree with
  | .ok () tree => .ok () { c with tree }
  | .error e tree => .error (.failed (.file e)) { c with tree }

/-- The settings for a path, with those that the command line changes. -/
def settingsFor (path : Path) (target stem : Option String) : Action Settings := do
  let s ← settled (Settings.resolve (← files) path)
  let s := { s with
    target := (target.map Data.string).getD s.target
    stem := (stem.map Data.string).getD s.stem }
  if target.isSome || stem.isSome then settled (s.validate "command line")
  return s

/-- The source files that a path stands for: itself, or those below it that a pattern of the settings
means. -/
def sourceFiles (root : Path) (s : Settings) : Action (List Path) := do
  let t ← files
  if t.isFile root then return [root]
  match s.patterns? with
  | none => fail (.settings .notSequence)
  | some patterns => match patterns.mapM (t.search root) with
    | .ok found => return FileTree.sorted found.flatten
    | .error f => fail (.pattern f)

/-- A source file as text. -/
def sourceOf (path : Path) : Action SourceText := do
  match (← files).read path with
  | .ok text => return SourceText.ofFile path.text text
  | .error e => fail (.file e)

def report (source : SourceText) (ds : List Diagnostic) : Action Unit :=
  ds.forM fun d => complain (Report.render Report.plain (Report.linesIn [source]) d)

/-- Lowers a source file and reports its diagnostics. -/
def transformFile (path : Path) (s : Settings) : Action Compile.Result := do
  let source ← sourceOf path
  match Compile.transform s.lowering source.name source.text with
  | .error f => fail (.compile f)
  | .ok result =>
    report source result.diagnostics
    return result

/-- Where the lowered code of a source file goes. -/
def destination? (t : FileTree) (source root : Path) (out : Option Path) (suffix : String) :
    Option Path :=
  match out with
  | none => source.withSuffix? suffix
  | some out =>
    if t.isFile root then
      if t.isDirectory out then (source.withSuffix? suffix).map fun p => out.child p.name
      else some out
    else ((source.below root).withSuffix? suffix).map out.join

/-- Whether two paths lead to the same place. -/
def sameFile? (t : FileTree) (p q : Path) : Option Bool := do
  return (← t.resolved? p) == (← t.resolved? q)

/-- Writes lowered code; whether that was possible. -/
def writeCode (quiet : Bool) (source dest : Path) (code : String) : Action Bool := do
  match sameFile? (← files) dest source with
  | none => fail (.file .linkLoop)
  | some true =>
    complain ("error: output would overwrite " ++ source.text)
    return false
  | some false =>
    filed (FileTree.makeDirectory dest.parent)
    filed (FileTree.write dest code)
    if !quiet then say ("lowering " ++ source.text ++ " -> " ++ dest.text)
    return true

/-- Lowers one file of those that a path stands for; whether all went well. -/
def lowerFile (quiet checkOnly : Bool) (root : Path) (out : Option Path) (s : Settings)
    (source : Path) : Action Bool := do
  let result ← transformFile source s
  if !result.isOk then return false
  if checkOnly then return true
  let code := result.code.getD ""
  let t ← files
  if t.isFile root && out.isNone then
    print (plain code)
    return true
  match destination? t source root out s.outputSuffix with
  | none => fail .badSuffix
  | some dest => writeCode quiet source dest code

/-- Lowers files in turn; whether all went well. -/
def lowerAll (lowerOne : Path → Action Bool) : List Path → Action Bool
  | [] => return true
  | p :: ps => do
    let first ← lowerOne p
    let others ← lowerAll lowerOne ps
    return first && others

def lower (quiet : Bool) (path : String) (out target stem : Option String) (checkOnly : Bool) :
    Action Unit := do
  let root := Path.ofText path
  let s ← settingsFor root target stem
  let sources ← sourceFiles root s
  if sources.isEmpty then
    complain ("warning: no source files matching " ++ ", ".intercalate (s.patterns?.getD []))
  else
    let done ← lowerAll (lowerFile quiet checkOnly root (out.map Path.ofText) s) sources
    if !done then throw (.exit 1)

/-- The numbers of errors and warnings in some files. -/
def countAll (s : Settings) : List Path → Action (Nat × Nat)
  | [] => return (0, 0)
  | p :: ps => do
    let result ← transformFile p s
    let (errors, warnings) ← countAll s ps
    return (result.errors.length + errors, result.warnings.length + warnings)

def check (quiet : Bool) (path : String) : Action Unit := do
  let root := Path.ofText path
  let s ← settingsFor root none none
  let sources ← sourceFiles root s
  let (errors, warnings) ← countAll s sources
  if !quiet then
    say s!"checked {sources.length} file(s): {errors} error(s), {warnings} warning(s)"
  if errors ≠ 0 then throw (.exit 1)

/-- Computations of programs may nest this deep. -/
def nesting : Nat := 1000000000

def logged (m : Machine) : Action Unit := m.output.toList.forM say

def run (file : String) (target : Option String) : Action Unit := do
  let path := Path.ofText file
  let s ← settingsFor path target none
  let result ← transformFile path s
  match result.isOk, result.module with
  | true, some module =>
    match Machine.run .refuse nesting module Machine.start with
    | .ok _ m => logged m
    | .error (.error e) m =>
      logged m
      refuse e.message
    | .error (.thrown _ shown) m =>
      logged m
      refuse ("Uncaught " ++ shown)
    | .error e _ => fail (.machine e)
  | _, _ => throw (.exit 1)

def view (file : String) (lowered : Bool) : Action Unit := do
  let path := Path.ofText file
  let s ← settingsFor path none none
  if lowered then
    match (← transformFile path s).module with
    | none => throw (.exit 1)
    | some module => print (plain (Tree.Outline.moduleText module))
  else
    let source ← sourceOf path
    match Compile.read source.name source.text with
    | .error f => fail (.compile f)
    | .ok (.error invalid) =>
      report source invalid.diagnostics
      throw (.exit 1)
    | .ok (.ok read) =>
      report source read.diagnostics
      print (plain (Tree.Outline.moduleText read.module))

def show_ (file : String) (color : Bool) : Action Unit := do
  let path := Path.ofText file
  let s ← settingsFor path none none
  let result ← transformFile path s
  match result.code with
  | none => throw (.exit 1)
  | some code =>
    let text := Highlight.listing color code
    print (if color then text else plain text)
    if !result.isOk then throw (.exit 1)

/-- The message of a file system about something that is there already. -/
def existsMessage (path : Path) : String :=
  "[Errno 17] File exists: " ++ Text.Quoted.quoted path.text

def init (directory target stem : String) (withExample : Bool) : Action Unit := do
  let s : Settings := { stem := .string stem, target := .string target }
  settled (s.validate "command line")
  match Settings.starter (Path.ofText directory) stem target withExample (← files) with
  | .ok path t =>
    modify fun c => { c with tree := t }
    say ("created " ++ path.text)
  | .error e t =>
    modify fun c => { c with tree := t }
    match e with
    | .alreadyThere path => refuse ("'" ++ path.text ++ "' already exists")
    | .file (.exists path) => refuse (existsMessage path)
    | .file e => fail (.file e)

def versionText : String := "tempbind, version 0.1.0"

def helpText : String := "Usage: tempbind [OPTIONS] COMMAND [ARGS]..."

/-- Does what is asked. -/
def perform : Request → Action Unit
  | .version => say versionText
  | .help => say helpText
  | .lower quiet path out target stem checkOnly => lower quiet path out target stem checkOnly
  | .check quiet path => check quiet path
  | .run file target => run file target
  | .view file lowered => view file lowered
  | .show file color => show_ file color
  | .init directory target stem withExample => init directory target stem withExample

/-- Whether the paths of a request are there, and are files where files are wanted. -/
def isPossible (t : FileTree) : Request → Bool
  | .version | .help => true
  | .lower _ path .. | .check _ path => (t.find? path).isSome
  | .run file _ | .view file _ | .show file _ => t.find? file == some false
  | .init directory .. => t.find? directory != some false

/-- How a command ended. -/
structure Outcome where
  exit : Nat
  failure : Option Failure := none
  console : Console

/-- Runs the program with its arguments. Arguments that ask for nothing possible give exit code
two. -/
def execute (t : FileTree) (args : List String) : Outcome :=
  match request? args with
  | none => { exit := 2, console := { tree := t } }
  | some request =>
    if isPossible t request then
      match perform request { tree := t } with
      | .ok () console => { exit := 0, console }
      | .error (.exit code) console => { exit := code, console }
      | .error (.failed why) console => { exit := 1, failure := some why, console }
    else { exit := 2, console := { tree := t } }

end StepBinding.Command
