/-! Arguments of a command line: options, which may take a value, and words. A long
option takes its value after an equals sign or as the next argument; short options may
stand together, the last of them with its value. Two dashes end the options. -/

namespace StepBinding.Command

/-- An option by its spellings. It stands for a fixed value or takes one. -/
structure Switch where
  long : String
  short : Option Char := none
  key : String
  value : Option String := none

/-- What arguments give: options in order, and words. -/
structure Given where
  options : List (String × String) := []
  words : List String := []
deriving DecidableEq, Repr

namespace Given

/-- The value of an option; the last one counts. -/
def option? (g : Given) (key : String) : Option String := g.options.reverse.lookup key

def has (g : Given) (key : String) : Bool := (g.option? key).isSome

end Given

/-- Options that one argument gives, and the key of the one whose value is still to come. -/
structure Read where
  options : List (String × String)
  pending : Option String := none

/-- Short options written together. -/
def cluster? (switches : List Switch) : List Char → Option Read
  | [] => some ⟨[], none⟩
  | c :: cs => do
    let s ← switches.find? fun s => s.short == some c
    match s.value with
    | some v => do
      let r ← cluster? switches cs
      return { r with options := (s.key, v) :: r.options }
    | none =>
      if cs.isEmpty then return ⟨[], some s.key⟩ else return ⟨[(s.key, String.ofList cs)], none⟩

/-- A long option, with the text after its equals sign if there is one. -/
def longOption? (s : Switch) (given : Option String) : Option Read :=
  match s.value, given with
  | some v, none => some ⟨[(s.key, v)], none⟩
  | some _, some _ => none
  | none, some v => some ⟨[(s.key, v)], none⟩
  | none, none => some ⟨[], some s.key⟩

/-- Cuts an argument at its first equals sign. -/
def cutAtEquals (arg : String) : String × Option String :=
  let cs := arg.toList
  let name := cs.takeWhile (· != '=')
  (String.ofList name, (cs.drop name.length).head?.map fun _ =>
    String.ofList (cs.drop (name.length + 1)))

def option? (switches : List Switch) (arg : String) : Option Read :=
  let (name, given) := cutAtEquals arg
  match switches.find? fun s => s.long == name with
  | some s => longOption? s given
  | none => if arg.startsWith "--" then none else cluster? switches (arg.toList.drop 1)

def isOption (arg : String) : Bool := arg.startsWith "-" && arg != "-"

/-- Reads arguments. If options may not follow words, the first word ends them. `none` for an
option that does not exist or lacks its value. -/
def read? (switches : List Switch) (mixed : Bool) : List String → Option Given
  | [] => some {}
  | arg :: args =>
    if arg = "--" then some { words := args }
    else if isOption arg then
      match option? switches arg, args with
      | none, _ => none
      | some ⟨options, none⟩, args =>
        (read? switches mixed args).map fun g => { g with options := options ++ g.options }
      | some ⟨_, some _⟩, [] => none
      | some ⟨options, some key⟩, v :: args =>
        (read? switches mixed args).map fun g =>
          { g with options := options ++ (key, v) :: g.options }
    else if mixed then
      (read? switches mixed args).map fun g => { g with words := arg :: g.words }
    else some { words := arg :: args }

/-- What is asked of the program. -/
inductive Request
  | version
  | help
  | lower (quiet : Bool) (path : String) (out target stem : Option String) (checkOnly : Bool)
  | check (quiet : Bool) (path : String)
  | run (file : String) (target : Option String)
  | view (file : String) (lowered : Bool)
  | show (file : String) (color : Bool)
  | init (directory target stem : String) (withExample : Bool)
deriving DecidableEq, Repr

def flag (long key : String) : Switch := { long, key, value := some "" }

def helpSwitch : Switch := flag "--help" "help"

def targetSwitch : Switch := { long := "--target", key := "target" }

def stemSwitch : Switch := { long := "--prefix", key := "prefix" }

/-- The only word, or the one to take if there is none. -/
def onlyWord? (missing : Option String) : List String → Option String
  | [] => missing
  | [w] => some w
  | _ => none

def isTarget (name : String) : Bool := name == "es2015" || name == "es5"

/-- Reads the arguments of a command and what they ask for. -/
def with? (switches : List Switch) (args : List String) (ask : Given → Option Request) :
    Option Request := do
  let g ← read? (helpSwitch :: switches) true args
  if g.has "help" then return .help
  if !(g.option? "target").all isTarget then none
  ask g

def command? (quiet : Bool) (name : String) (args : List String) : Option Request :=
  match name with
  | "lower" =>
    with? [{ long := "--out", short := some 'o', key := "out" }, targetSwitch, stemSwitch,
        flag "--check" "check"] args fun g => do
      return .lower quiet (← onlyWord? none g.words) (g.option? "out") (g.option? "target")
        (g.option? "prefix") (g.has "check")
  | "check" => with? [] args fun g => return .check quiet (← onlyWord? (some ".") g.words)
  | "run" =>
    with? [targetSwitch] args fun g =>
      return .run (← onlyWord? none g.words) (g.option? "target")
  | "view" =>
    with? [flag "--lowered" "lowered"] args fun g =>
      return .view (← onlyWord? none g.words) (g.has "lowered")
  | "show" =>
    with? [{ long := "--color", key := "color", value := some "on" },
        { long := "--no-color", key := "color", value := some "off" }] args fun g =>
      return .show (← onlyWord? none g.words) (g.option? "color" == some "on")
  | "init" =>
    with? [targetSwitch, stemSwitch, flag "--example" "example"] args fun g =>
      return .init (← onlyWord? (some ".") g.words) ((g.option? "target").getD "es2015")
        ((g.option? "prefix").getD "_tb") (g.has "example")
  | _ => none

/-- What the arguments of the program ask for; `none` if they are not well formed. -/
def request? (args : List String) : Option Request := do
  let switches := [helpSwitch, flag "--version" "version",
    { long := "--quiet", short := some 'q', key := "quiet", value := some "" }]
  let g ← read? switches false args
  if g.has "version" then return .version
  if g.has "help" then return .help
  match g.words with
  | [] => none
  | name :: args => command? (g.has "quiet") name args

end StepBinding.Command
