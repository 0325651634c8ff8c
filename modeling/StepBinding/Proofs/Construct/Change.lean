import StepBinding.Construct.Head
import StepBinding.Construct.Log
import StepBinding.Construct.Steps
import StepBinding.Proofs.Tree.Relabel

/-! The same tokens at other places. What a head of a step binding and the extent of its steps are
depends on where the tokens stand only in the ranges that it mentions. -/

namespace StepBinding.Construct

open List Token

variable {code : Code}

/-- Other ranges for all tokens. A range is changed as its two ends are. -/
structure Change where
  span : Span → Span
  through : ∀ a b, span (a.through b) = (span a).through (span b)

namespace Change

variable (μ : Change)

/-- The change of trees. -/
def label : Relabel := ⟨μ.span⟩

def token (t : Token) : Token := { t with span := μ.span t.span }

def diagnostic (d : Diagnostic) : Diagnostic := μ.label.diagnostic d

def record (r : Record) : Record := { r with span := μ.span r.span }

def log (l : Log) : Log := ⟨l.records.map μ.record⟩

@[simp] theorem kind_token (t : Token) : (μ.token t).kind = t.kind := rfl
@[simp] theorem text_token (t : Token) : (μ.token t).text = t.text := rfl
@[simp] theorem span_token (t : Token) : (μ.token t).span = μ.span t.span := rfl
@[simp] theorem code_diagnostic (d : Diagnostic) : (μ.diagnostic d).code = d.code := rfl

theorem codes_diagnostics (ds : List Diagnostic) :
    (ds.map μ.diagnostic).map Diagnostic.code = ds.map Diagnostic.code := by
  simp

section Log

variable {l : Log} {i : Nat} {is : List Nat} {codes : List Code} {s : State}

theorem size_log : (μ.log l).size = l.size := length_map _

theorem get?_log : (μ.log l).get? i = (l.get? i).map μ.record := getElem?_map ..

theorem modify_log {f g : Record → Record} (h : ∀ r, g (μ.record r) = μ.record (f r)) :
    (μ.log l).modify i g = μ.log (l.modify i f) := by
  have hmap (rs : List Record) (i : Nat) :
      (rs.map μ.record).modify i g = (rs.modify i f).map μ.record := by
    induction rs generalizing i with
    | nil => simp
    | cons r rs ih => cases i <;> simp [h, ih]
  exact congrArg Log.mk (hmap l.records i)

theorem enter_log {form : Form} {span : Span} {binding : Option String} :
    (μ.log l).enter form (μ.span span) binding = μ.log (l.enter form span binding) := by
  simp [log, Log.enter, Log.size, record]

theorem note_log : (μ.log l).note i code = μ.log (l.note i code) :=
  μ.modify_log fun _ => rfl

/-- An edit that is not refused is made in the same way. -/
def Agrees (e e' : Edited) : Prop := e.refusal = none → e'.refusal = none ∧ e'.log = μ.log e.log

theorem agrees_advance : μ.Agrees (l.advance i s) ((μ.log l).advance i s) := by
  intro h
  unfold Log.advance at h ⊢
  rw [get?_log]
  cases hr : l.get? i with
  | none => rw [hr] at h; cases h
  | some r =>
    rw [hr] at h
    dsimp only [Option.map_some, record] at h ⊢
    split
    · rename_i hfinal
      rw [if_pos hfinal] at h
      cases h
    · rename_i hfinal
      rw [if_neg hfinal] at h
      split
      · rename_i hallows
        exact ⟨rfl, μ.modify_log fun _ => rfl⟩
      · rename_i hallows
        rw [if_neg hallows] at h
        cases h

theorem agrees_reject : μ.Agrees (l.reject i code) ((μ.log l).reject i code) := by
  intro h
  unfold Log.reject at h ⊢
  rw [get?_log]
  cases hr : l.get? i with
  | none => rw [hr] at h; cases h
  | some r =>
    rw [hr] at h
    dsimp only [Option.map_some, record] at h ⊢
    split
    · exact ⟨rfl, μ.note_log⟩
    · rename_i hstate
      rw [if_neg hstate] at h
      rw [note_log]
      exact μ.agrees_advance h

theorem agrees_rejectWith :
    μ.Agrees (l.rejectWith i codes) ((μ.log l).rejectWith i codes) := by
  induction codes generalizing l with
  | nil => exact fun _ => ⟨rfl, rfl⟩
  | cons code codes ih =>
    intro h
    unfold Log.rejectWith at h ⊢
    dsimp only at h ⊢
    cases hr : (l.reject i code).refusal with
    | some why => rw [hr] at h; exact absurd h (by simp [hr])
    | none =>
      obtain ⟨hnone, hlog⟩ := μ.agrees_reject hr
      rw [hr] at h
      rw [hnone, hlog]
      exact ih h

theorem agrees_rejectAll :
    μ.Agrees (l.rejectAll code is) ((μ.log l).rejectAll code is) := by
  induction is generalizing l with
  | nil => exact fun _ => ⟨rfl, rfl⟩
  | cons i is ih =>
    intro h
    unfold Log.rejectAll at h ⊢
    rw [get?_log]
    cases hr : l.get? i with
    | none => rw [hr] at h; cases h
    | some r =>
      rw [hr] at h
      dsimp only [Option.map_some, record] at h ⊢
      split
      · rename_i hfinal
        rw [if_pos hfinal] at h
        exact ih h
      · rename_i hfinal
        rw [if_neg hfinal] at h
        cases hreject : (l.reject i code).refusal with
        | some why => rw [hreject] at h; exact absurd h (by simp [hreject])
        | none =>
          obtain ⟨hnone, hlog⟩ := μ.agrees_reject hreject
          rw [hreject] at h
          rw [hnone, hlog]
          exact ih h

end Log

section Tokens

variable {ts : List Token}

theorem isMarker_map : isMarker (ts.map μ.token) = isMarker ts := by
  cases ts with
  | nil => rfl
  | cons k ts => cases ts <;> rfl

/-- A cut list at other places. -/
def split (s : Steps.Split) : Steps.Split :=
  { first := s.first.map μ.token
    later := s.later.map (·.map μ.token)
    rest := s.rest.map μ.token }

theorem splitFrom_map (d : Steps.Depth) :
    Steps.splitFrom d (ts.map μ.token) = μ.split (Steps.splitFrom d ts) := by
  induction ts generalizing d with
  | nil => rfl
  | cons t ts ih =>
    rw [map_cons]
    unfold Steps.splitFrom
    rw [kind_token]
    cases Steps.role d t.kind with
    | stop => rfl
    | separator => dsimp only; rw [ih]; rfl
    | inside d' => dsimp only; rw [ih]; rfl

theorem isEmpty_split (s : Steps.Split) : (μ.split s).isEmpty = s.isEmpty := by
  simp [Steps.Split.isEmpty, split]

theorem bounds_split (s : Steps.Split) (start : Nat) : (μ.split s).bounds start = s.bounds start := by
  have hfrom (steps : List (List Token)) (start : Nat) :
      Steps.Split.boundsFrom start (steps.map (·.map μ.token)) =
        Steps.Split.boundsFrom start steps := by
    induction steps generalizing start with
    | nil => rfl
    | cons step steps ih => simp [Steps.Split.boundsFrom, ih]
  exact hfrom s.steps start

theorem emptySteps_split (s : Steps.Split) : (μ.split s).emptySteps = s.emptySteps := by
  have hplaces (steps : List (List Token)) (n : Nat) :
      (((steps.map (·.map μ.token)).zipIdx n).filter fun step => step.1.isEmpty).map Prod.snd =
        ((steps.zipIdx n).filter fun step => step.1.isEmpty).map Prod.snd := by
    induction steps generalizing n with
    | nil => rfl
    | cons step steps ih =>
      simp only [map_cons, zipIdx_cons, filter_cons, isEmpty_map]
      split <;> simp [ih]
  exact hplaces s.steps 0

/-- A head at another place. -/
def head (h : Head) : Head :=
  { h with
    keyword := μ.token h.keyword
    binding := h.binding.map μ.token
    result := h.result.map μ.token
    span := μ.span h.span
    errors := h.errors.map μ.diagnostic }

theorem closing?_map (depth : Nat) :
    Head.closing? depth (ts.map μ.token) = Head.closing? depth ts := by
  induction ts generalizing depth with
  | nil => rfl
  | cons t ts ih =>
    rw [map_cons]
    unfold Head.closing?
    rw [kind_token]
    split <;> simp only [ih]

theorem wrongMarker_map (span : Span) :
    Head.wrongMarker (μ.span span) (ts.map μ.token) = μ.diagnostic (Head.wrongMarker span ts) := by
  have hfilter : ((ts.map μ.token).filter fun t => t.kind = .identifier).length =
      (ts.filter fun t => t.kind = .identifier).length := by
    rw [filter_map, length_map]
    rfl
  have htexts : (ts.map μ.token).map Token.text = ts.map Token.text := by simp
  unfold Head.wrongMarker
  rw [hfilter, htexts]
  split <;> rfl

theorem binding?_map (span : Span) :
    Head.binding? (μ.span span) (ts.map μ.token) =
      ((Head.binding? span ts).mapError μ.diagnostic).map μ.token := by
  cases ts with
  | nil => rfl
  | cons t ts =>
    cases ts with
    | nil =>
      by_cases hk : t.kind = .identifier
      · have hk' : (μ.token t).kind = .identifier := hk
        simp only [Head.binding?, map_cons, map_nil, hk, hk', if_true]
        rfl
      · have hwrong := @wrongMarker_map μ [t] span
        rw [map_cons, map_nil] at hwrong
        simp only [Head.binding?, map_cons, map_nil, Change.token, hk, if_false]
        exact congrArg Except.error hwrong
    | cons u ts =>
      change Except.error (Head.wrongMarker _ ((t :: u :: ts).map μ.token)) = _
      rw [wrongMarker_map]
      rfl

theorem read_map (only : Bool) (keyword : Token) :
    Head.read only (μ.token keyword) (ts.map μ.token) = μ.head (Head.read only keyword ts) := by
  have hlast : (ts.map μ.token).getLastD (μ.token keyword) = μ.token (ts.getLastD keyword) := by
    rw [getLastD_eq_getLast?, getLastD_eq_getLast?, getLast?_map, Option.getD_map]
  have hhead : (ts.map μ.token).headD (μ.token keyword) = μ.token (ts.headD keyword) := by
    cases ts <;> rfl
  have hget (i : Nat) : (ts.map μ.token).getD i (μ.token keyword) = μ.token (ts.getD i keyword) := by
    simp [getD_eq_getElem?_getD, Option.getD_map]
  unfold Head.read
  rw [closing?_map]
  cases Head.closing? 0 ts with
  | none =>
    dsimp only
    rw [hlast, span_token, span_token, ← μ.through, length_map]
    rfl
  | some close =>
    dsimp only
    simp only [hhead, hget, hlast, span_token, ← μ.through, ← map_take, ← map_drop,
      binding?_map, getElem?_map, Option.getD_map, Option.any_map]
    generalize (ts[close + 1]?).getD (ts.getLastD keyword) = after
    generalize Head.binding? _ ((ts.take close).drop 1) = marker
    have hname : (decide ((μ.token after).kind = .identifier) && !only) =
        (decide (after.kind = .identifier) && !only) := rfl
    have hequals : ((ts[close + 2]?).any fun t => decide ((μ.token t).kind = .assign)) =
        (ts[close + 2]?).any fun t => decide (t.kind = .assign) := rfl
    have hassign : ((μ.token after).kind = .assign) = (after.kind = .assign) := rfl
    simp only [hname, hequals, hassign]
    cases marker with
    | ok t =>
      split
      · split <;> rfl
      · split <;> rfl
    | error d =>
      split
      · split <;> rfl
      · split <;> rfl

end Tokens

/-- Nothing is moved. -/
def still : Change := ⟨id, fun _ _ => rfl⟩

theorem token_still : still.token = id := rfl

theorem log_still (l : Log) : still.log l = l := congrArg Log.mk (map_id l.records)

theorem diagnostic_still : still.diagnostic = id := funext fun d => by
  simp [diagnostic, Relabel.diagnostic, label, still]

end Change

end StepBinding.Construct
