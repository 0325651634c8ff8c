import StepBinding.Span

/-! Lexical scopes: a chain of frames, the innermost first. In one frame the first
binding of a name counts, and an inner frame hides the outer ones. -/

namespace StepBinding

inductive BindingKind
  | variable
  | parameter
  | function
  | temporary
  | global
deriving DecidableEq, Repr, Inhabited

structure Binding where
  name : String
  kind : BindingKind
  /-- For the binding of a step binding, the fresh name that stands for it. -/
  fresh : Option String := none
  construct : Option Nat := none
  /-- Where the name is declared, if the declaration has a range of its own. -/
  span : Option Span := none
deriving DecidableEq, Repr, Inhabited

abbrev Frame := List Binding

namespace Frame

def lookup (frame : Frame) (name : String) : Option Binding := frame.find? fun b => b.name == name

/-- Adds a binding unless its name is bound in the frame already. -/
def define (frame : Frame) (b : Binding) : Frame :=
  if (lookup frame b.name).isSome then frame else frame ++ [b]

def defineAll (frame : Frame) (bs : List Binding) : Frame := bs.foldl define frame

end Frame

abbrev Scope := List Frame

namespace Scope

/-- The innermost binding of a name. -/
def lookup : Scope → String → Option Binding
  | [], _ => none
  | frame :: outer, name =>
    match Frame.lookup frame name with
    | some b => some b
    | none => lookup outer name

end Scope

/-- A forest of scopes under construction: each frame, by number, with the number of the frame
around it. -/
structure ScopeForest where
  frames : List (Option Nat × Frame) := [(none, [])]
deriving Repr, Inhabited

namespace ScopeForest

/-- A new frame inside the frame `i`; its number is the former number of frames. -/
def child (forest : ScopeForest) (i : Nat) : ScopeForest :=
  { frames := forest.frames ++ [(some i, [])] }

def frame (forest : ScopeForest) (i : Nat) : Frame := ((forest.frames[i]?).map Prod.snd).getD []

/-- Adds a binding to the frame `i`. -/
def define (forest : ScopeForest) (i : Nat) (b : Binding) : ScopeForest :=
  { frames := forest.frames.modify i fun f => (f.1, Frame.define f.2 b) }

/-- The scope of the frame `i`, of which at most `bound` frames are taken; a frame is numbered after
the one around it. -/
def chain (forest : ScopeForest) : Nat → Nat → Scope
  | 0, _ => []
  | bound + 1, i =>
    match forest.frames[i]? with
    | none => []
    | some (none, f) => [f]
    | some (some outer, f) => f :: forest.chain bound outer

def scope (forest : ScopeForest) (i : Nat) : Scope := forest.chain forest.frames.length i

end ScopeForest

end StepBinding
