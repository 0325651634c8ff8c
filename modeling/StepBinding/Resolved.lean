import StepBinding.Resolve

/-! Modules in which every identifier has its meaning. The names that the module spells
are reserved, and the module is visited in a scope that holds the declared globals and
its own declarations. The step bindings get fresh names in the order in which the visit
asks for them. -/

namespace StepBinding

/-- A module in which every identifier has its meaning. -/
structure Resolved where
  module : Module
  diagnostics : List Diagnostic
  log : Construct.Log

namespace Resolved

open Resolve

/-- The step bindings of a module in the order in which a visit asks for their fresh names. The order
depends neither on the names nor on the scope. -/
def asked (m : Module) : List Nat := (stmts { freshOf := fun _ => "" } [] m.body).asked

/-- The fresh name of each step binding of a module. -/
def freshTable (names : FreshNames) (m : Module) : List (Nat × String) :=
  (names.reserve (Tree.names m)).assign (asked m)

/-- The scope of a module: its own declarations inside the declared globals. -/
def moduleScope (globals : List String) (body : List Stmt) : Scope :=
  [functionFrame [] body,
   Frame.defineAll [] (globals.map fun name => { name, kind := .global })]

/-- Visits a module and edits the log accordingly. -/
def ofModule (names : FreshNames) (shadowWarnings : Bool) (globals : List String)
    (log : Construct.Log) (m : Module) : Except Construct.Refusal Resolved := do
  let table := freshTable names m
  let ctx : Context := { freshOf := fun i => (table.lookup i).getD "", shadowWarnings }
  let visit := stmts ctx (moduleScope globals m.body) m.body
  return {
    module := { m with body := visit.value }
    diagnostics := visit.diagnostics
    log := ← Edit.applyAll log visit.edits }

end Resolved

end StepBinding
