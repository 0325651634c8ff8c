import StepBinding.Token

/-! The extent of a step list. From the tokens after the `=` of a step binding, the
commas that stand in no bracket or template of the list separate its steps. The list
ends, with nothing open, before a semicolon, a closing bracket, a further part of an
outer template or a colon that answers no question mark of the list; with something
open, before a closer that does not match; and always before the end mark. -/

namespace StepBinding.Construct.Steps

open Token

/-- What is open inside the list, the innermost first, and how many question marks outside of all
brackets wait for their colon. -/
structure Depth where
  openers : List Kind := []
  questions : Nat := 0
deriving DecidableEq, Repr, Inhabited

/-- What a token is to the list it may belong to. -/
inductive Role
  | stop
  | separator
  | inside (after : Depth)
deriving DecidableEq, Repr

/-- The role of a token with nothing open before it. -/
def outerRole (questions : Nat) (k : Kind) : Role :=
  if k = .endMark || k = .semicolon || k.opener?.isSome || k = .templateMiddle then .stop
  else if k = .comma then .separator
  else if k = .question then .inside ⟨[], questions + 1⟩
  else if k = .colon then if questions = 0 then .stop else .inside ⟨[], questions - 1⟩
  else if k.isOpener then .inside ⟨[k], questions⟩
  else .inside ⟨[], questions⟩

/-- The role of a token inside the bracket or template `innermost`. -/
def innerRole (innermost : Kind) (outer : List Kind) (questions : Nat) (k : Kind) : Role :=
  if k = .endMark then .stop
  else if k.isOpener then .inside ⟨k :: innermost :: outer, questions⟩
  else match k.opener? with
    | some opener =>
      if opener = innermost then .inside ⟨outer, questions⟩ else .stop
    | none => .inside ⟨innermost :: outer, questions⟩

def role (d : Depth) (k : Kind) : Role :=
  match d.openers with
  | [] => outerRole d.questions k
  | innermost :: outer => innerRole innermost outer d.questions k

/-- A step list cut into its steps, and the tokens after it. There is at least one step, which may
be empty. -/
structure Split where
  first : List Token := []
  later : List (List Token) := []
  rest : List Token := []
deriving DecidableEq, Repr, Inhabited

namespace Split

def steps (s : Split) : List (List Token) := s.first :: s.later

/-- Whether the list holds no token at all. -/
def isEmpty (s : Split) : Bool := s.first.isEmpty && s.later.isEmpty

/-- The number of tokens of the list, its separators included. -/
def length (s : Split) : Nat :=
  s.first.length + s.later.foldr (fun step n => step.length + 1 + n) 0

/-- Ranges of steps with one token between each two. -/
def boundsFrom (start : Nat) : List (List Token) → List (Nat × Nat)
  | [] => []
  | step :: steps => (start, start + step.length) :: boundsFrom (start + step.length + 1) steps

/-- The ranges of the steps among the tokens, when the list starts at `start`. -/
def bounds (s : Split) (start : Nat) : List (Nat × Nat) := boundsFrom start s.steps

/-- The places, from zero, of the steps without tokens. -/
def emptySteps (s : Split) : List Nat :=
  (s.steps.zipIdx.filter fun step => step.1.isEmpty).map Prod.snd

end Split

/-- Cuts the step list at the start of the tokens, `d` being open before them. -/
def splitFrom (d : Depth) : List Token → Split
  | [] => {}
  | t :: ts =>
    match role d t.kind with
    | .stop => { rest := t :: ts }
    | .separator =>
      let s := splitFrom d ts
      { later := s.first :: s.later, rest := s.rest }
    | .inside after =>
      let s := splitFrom after ts
      { s with first := t :: s.first }

def split (tokens : List Token) : Split := splitFrom {} tokens

end StepBinding.Construct.Steps
