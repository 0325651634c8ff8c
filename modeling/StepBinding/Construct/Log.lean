import StepBinding.Construct
import StepBinding.Diagnostic

/-! The log of step bindings. Every step binding that is met gets a record, at the
position of its number, and the record moves through the states of processing one
by one, or is rejected. No record is ever removed, and the two final states are
never left. An edit that is refused says why; rejecting notes the code even then. -/

namespace StepBinding.Construct

inductive State
  | unrecognized
  | matched
  | parsed
  | resolved
  | lowered
  | spliced
  | rejected
deriving DecidableEq, Repr, Inhabited

namespace State

def name : State → String
  | unrecognized => "UNRECOGNIZED"
  | matched => "MATCHED"
  | parsed => "PARSED"
  | resolved => "RESOLVED"
  | lowered => "LOWERED"
  | spliced => "SPLICED"
  | rejected => "REJECTED"

/-- The state that follows when all goes well. -/
def next? : State → Option State
  | unrecognized => some matched
  | matched => some parsed
  | parsed => some resolved
  | resolved => some lowered
  | lowered => some spliced
  | spliced | rejected => none

def isFinal : State → Bool
  | spliced | rejected => true
  | _ => false

/-- Whether a record in state `s` may move to `target`. -/
def allows (s target : State) : Bool :=
  !s.isFinal && (target == .rejected || s.next? == some target)

end State

structure Record where
  index : Nat
  form : Form
  span : Span
  binding : Option String := none
  fresh : Option String := none
  state : State := .matched
  codes : List Code := []
deriving DecidableEq, Repr, Inhabited

/-- Why an edit of the log was refused. -/
inductive Refusal
  | missing (index : Nat)
  | final (index : Nat) (state target : State)
  | outOfOrder (index : Nat) (state target : State)
deriving DecidableEq, Repr

namespace Refusal

/-- The number of the record. -/
def index : Refusal → Nat
  | missing i | final i _ _ | outOfOrder i _ _ => i

/-- What is said about a record that goes by the given name. -/
def messageFor (name : String) : Refusal → String
  | missing _ => s!"construct #{name} does not exist"
  | final _ s t => s!"construct #{name} is already {s.name}; cannot move to {t.name}"
  | outOfOrder _ s t => s!"construct #{name}: illegal transition {s.name} -> {t.name}"

def message (r : Refusal) : String := r.messageFor (toString r.index)

end Refusal

structure Log where
  records : List Record := []
deriving DecidableEq, Repr, Inhabited

/-- The log after an edit, and why the edit was refused if it was. -/
structure Edited where
  log : Log
  refusal : Option Refusal := none
deriving DecidableEq, Repr, Inhabited

namespace Log

def get? (log : Log) (i : Nat) : Option Record := log.records[i]?

def size (log : Log) : Nat := log.records.length

/-- The number of the record at an index, which counts from the end if it is negative. An index
before the first record is that of none. -/
def place (log : Log) (i : Int) : Nat :=
  if 0 ≤ i then i.toNat else if 0 ≤ i + log.size then (i + log.size).toNat else log.size

/-- Changes the record of number `i`. -/
def modify (log : Log) (i : Nat) (f : Record → Record) : Log :=
  { records := log.records.modify i f }

/-- Adds a record for a step binding that was just recognized; its number is the former size. -/
def enter (log : Log) (form : Form) (span : Span) (binding : Option String := none) : Log :=
  { records := log.records ++ [{ index := log.size, form, span, binding }] }

/-- Notes a code without changing the state. -/
def note (log : Log) (i : Nat) (code : Code) : Log :=
  log.modify i fun r => { r with codes := r.codes ++ [code] }

/-- Moves a record to the next state, or rejects it. -/
def advance (log : Log) (i : Nat) (target : State) : Edited :=
  match log.get? i with
  | none => { log, refusal := some (.missing i) }
  | some r =>
    if r.state.isFinal then { log, refusal := some (.final i r.state target) }
    else if r.state.allows target then { log := log.modify i fun r => { r with state := target } }
    else { log, refusal := some (.outOfOrder i r.state target) }

/-- Notes an error code and rejects the record unless it already is rejected. -/
def reject (log : Log) (i : Nat) (code : Code) : Edited :=
  match log.get? i with
  | none => { log, refusal := some (.missing i) }
  | some r =>
    if r.state = .rejected then { log := log.note i code }
    else (log.note i code).advance i .rejected

/-- Rejects every record of the list that is not in a final state. -/
def rejectAll (log : Log) (code : Code) : List Nat → Edited
  | [] => { log }
  | i :: is =>
    match log.get? i with
    | none => { log, refusal := some (.missing i) }
    | some r =>
      if r.state.isFinal then log.rejectAll code is
      else
        let e := log.reject i code
        if e.refusal.isSome then e else e.log.rejectAll code is

/-- Notes several codes in turn. -/
def rejectWith (log : Log) (i : Nat) : List Code → Edited
  | [] => { log }
  | c :: cs =>
    let e := log.reject i c
    if e.refusal.isSome then e else e.log.rejectWith i cs

end Log

end StepBinding.Construct
