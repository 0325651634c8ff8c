/-! Fresh names. A fresh name is a stem followed by a number; numbers are handed out in
increasing order and skip every name that is reserved. Of as many consecutive
candidates as there are reserved names, and one more, some candidate is free, so the
search is bounded. -/

namespace StepBinding

structure FreshNames where
  stem : String
  /-- The number handed out last. -/
  counter : Nat := 0
  reserved : List String := []
deriving Repr, Inhabited

namespace FreshNames

def candidate (names : FreshNames) (n : Nat) : String := names.stem ++ toString n

/-- Reserves further names. -/
def reserve (names : FreshNames) (more : List String) : FreshNames :=
  { names with reserved := names.reserved ++ more }

/-- The first number from `n` on whose candidate is free, looking at `bound` numbers. -/
def seek (names : FreshNames) : Nat → Nat → Nat
  | 0, n => n
  | bound + 1, n =>
    if names.reserved.contains (names.candidate n) then names.seek bound (n + 1) else n

/-- The next fresh name, which is reserved from then on. -/
def fresh (names : FreshNames) : String × FreshNames :=
  let n := names.seek (names.reserved.length + 1) (names.counter + 1)
  let name := names.candidate n
  (name, { names with counter := n, reserved := names.reserved ++ [name] })

/-- Forgets what was handed out and reserved. -/
def reset (names : FreshNames) : FreshNames := { stem := names.stem }

/-- Gives each of the keys, in order, a fresh name. -/
def assign {α : Type} (names : FreshNames) : List α → List (α × String)
  | [] => []
  | key :: keys =>
    let (name, names) := names.fresh
    (key, name) :: names.assign keys

end FreshNames

end StepBinding
