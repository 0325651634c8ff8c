import StepBinding.Proofs.Lower.Declarations
import StepBinding.Proofs.Lower.Plain
import StepBinding.Proofs.Lower.Scoped

/-! Hygiene. A reference is renamed if and only if the innermost binder of its name is the step
list of a step binding, and then to the fresh name of that step binding. In lowered code each
fresh name is declared once, by the declaration made for its step binding, and every reference
to it is inside of the scope of that declaration. -/

namespace StepBinding

open List StepBinding.Tree

variable {trail : List Binder} {name : String}

/-- On the trail, the innermost binder of a name is a scope that declares it. -/
def Declared (trail : List Binder) (name : String) : Prop :=
  ∃ inner declared outer, trail = inner ++ .names declared :: outer ∧ name ∈ declared ∧
    ∀ b ∈ inner, b.binds name = false

theorem declared_of_binds (h : Binds trail name) (hlater : ∀ binding i, .later binding i ∉ trail) :
    Declared trail name := by
  obtain ⟨b, hb, hname⟩ := h
  have hsome : (trail.find? fun b => b.binds name).isSome :=
    find?_isSome.mpr ⟨b, hb, hname⟩
  obtain ⟨c, hc⟩ := Option.isSome_iff_exists.mp hsome
  obtain ⟨hcname, inner, outer, rfl, hinner⟩ := find?_eq_some_iff_append.mp hc
  cases c with
  | names declared =>
    exact ⟨inner, declared, outer, rfl, Binder.binds_names.mp hcname, fun b hb => by
      simpa using hinner b hb⟩
  | later binding i =>
    exact absurd (mem_append_right _ mem_cons_self) (hlater binding i)

/-- No rejected step binding stands on the way to a place. -/
def Module.KeptAt (m : Module) (place : List Nat) : Prop :=
  ∀ way trail n, way <+: place → m.reach way = some (trail, n) → n.isRejected = false

namespace Resolved

open Resolve

variable {names : FreshNames} {shadowWarnings : Bool} {globals : List String} {m : Module}
  {target : Target} {N : String → Prop} {i : Nat} {y : Node}

/-- A fresh name ends with a digit. -/
theorem not_isFresh (h : name.toList.getLast?.any Char.isDigit = false) :
    ¬IsFresh names shadowWarnings m name := by
  rintro ⟨i, hi, rfl⟩
  obtain ⟨c, hc, hdigit⟩ := fresh_ends (@freshOf_mem names shadowWarnings m i hi)
  rw [hc] at h
  exact absurd hdigit (Bool.eq_false_iff.mp h)

theorem not_isFresh_undefined : ¬IsFresh names shadowWarnings m "undefined" := not_isFresh rfl

/-- In the statements of a visited module a reference with a fresh name stands in the later steps of
its step binding. -/
theorem inside_visited {s : Stmt} (hs : s ∈ (visited names shadowWarnings globals m).body) :
    Node.EachReference (Lower.Inside (context names shadowWarnings m) (IsFresh names shadowWarnings m))
      [.names (functionNames [] (visited names shadowWarnings globals m).body)] (.stmt s) := by
  rintro place trail span name hreach ⟨i, hi, rfl⟩
  obtain ⟨j, hj⟩ := mem_iff_getElem?.mp hs
  obtain ⟨binding, hmem⟩ := later_of_reference hi
    (Module.reach_cons.mpr ⟨s, trail, hj, hreach, rfl⟩ : _ = some _)
  exact ⟨binding, i, hmem, rfl⟩

/-- Lowered code is plain. -/
theorem plain_lower (hm : AllStmts (Node.Formed N) m.body) :
    AllStmts (Node.Plain fun _ => True)
      (Lower.module target (visited names shadowWarnings globals m)).body := by
  have hordered := @ordered_visited names shadowWarnings globals m N hm
  have hgiven : AllStmts (Lower.Given fun _ => True)
      (visited names shadowWarnings globals m).body :=
    hordered.imp fun n hn => ⟨hn.2, fun _ _ => trivial⟩
  exact @Lower.plain_stmts target _ trivial trivial _ hgiven

/-- No node of lowered code is a step binding. -/
theorem construct?_lower (hm : AllStmts (Node.Formed N) m.body) :
    ∀ n ∈ walkStmts (Lower.module target (visited names shadowWarnings globals m)).body,
      construct? n = none :=
  fun n hn => ((allStmts_iff_walk _).mp (plain_lower hm) n hn).construct

/-- A lowered module uses a fresh name only where it is known. -/
theorem scoped_lower (target : Target) (hm : AllStmts (Node.Formed N) m.body)
    (hname : IsFresh names shadowWarnings m name) :
    ScopedBody name False (Lower.module target (visited names shadowWarnings globals m)).body := by
  have hknows : Lower.Knows (context names shadowWarnings m) name
      [.names (functionNames [] (visited names shadowWarnings globals m).body)] False := by
    intro binding i hmem
    cases mem_singleton.mp hmem
  exact Lower.stmts_scoped not_isFresh_undefined (not_isFresh rfl) hname (hknows.or _)
    (hknows.or _) _ (ordered_visited hm) (fun s hs => inside_visited hs) .inr

/-- In lowered code every reference with a fresh name is bound. -/
theorem binds_lower (hm : AllStmts (Node.Formed N) m.body) {place : List Nat} {span : Span}
    (hname : IsFresh names shadowWarnings m name)
    (h : (Lower.module target (visited names shadowWarnings globals m)).reach place =
      some (trail, .expr (.identifier span name))) : Binds trail name := by
  cases place with
  | nil => cases h
  | cons i place =>
    rw [← Module.reach_root] at h
    have hscoped : ScopedNode name False False
        (Lower.module target (visited names shadowWarnings globals m)).root :=
      scoped_lower target hm hname
    rw [← append_nil trail]
    exact binds_of_scoped hscoped (forall_mem_cons.mpr ⟨rfl, construct?_lower hm⟩) False.elim
      False.elim h

/-- In lowered code a fresh name is declared once, for its step binding. -/
theorem declaring_lower (hm : AllStmts (Node.Formed N) m.body)
    (hnodup : (marks (walkStmts m.body)).Nodup)
    (hy : y ∈ walkStmts (visited names shadowWarnings globals m).body)
    (hi : construct? y = some i) :
    ∃ d, Lower.own? target y = some d ∧ d.name = (context names shadowWarnings m).freshOf i ∧
      Lower.declaring ((context names shadowWarnings m).freshOf i)
        (walkStmts (Lower.module target (visited names shadowWarnings globals m)).body) =
          [.declarator d] := by
  have hordered := @ordered_visited names shadowWarnings globals m N hm
  have hsub := @marks_visited names shadowWarnings globals m
  have hmark {n : Node} {j : Nat} (hn : n ∈ walkStmts (visited names shadowWarnings globals m).body)
      (hj : construct? n = some j) : j ∈ marks (walkStmts m.body) ∧
        n.fresh? = some ((context names shadowWarnings m).freshOf j) :=
    ⟨hsub.subset (mem_filterMap.mpr ⟨n, hn, hj⟩),
      (((allStmts_iff_walk _).mp hordered n hn).1.fresh j hj).1⟩
  obtain ⟨hmem, hfresh⟩ := hmark hy hi
  obtain ⟨d, hown, hname⟩ := @Lower.own?_of_construct target _ _ _ hi hfresh
  refine ⟨d, hown, hname, ?_⟩
  refine (Lower.declaring_stmts ⟨i, hmem, rfl⟩ _ hordered).trans
    (Lower.made_eq_singleton (hnodup.sublist hsub) hy hi hown hname fun z hz d' hd' hname' => ?_)
  obtain ⟨j, hj⟩ := Lower.construct_of_own? hd'
  obtain ⟨hmem', hfresh'⟩ := hmark hz hj
  obtain ⟨d'', hown', hname''⟩ := @Lower.own?_of_construct target _ _ _ hj hfresh'
  rw [hd'] at hown'
  cases hown'
  rw [hj, freshOf_inj hmem hmem' (hname'.symm.trans hname'')]

end Resolved

namespace Compile

variable {settings : LowerSettings} {file text : String} {source : Source} {resolved : Resolved}

/-- Hygiene: of a program that is read and resolved, a reference outside of rejected step bindings is
renamed if and only if the innermost binder of its name is the step list of a step binding, and
then to the fresh name of that step binding. In the lowered module a fresh name is declared once,
by the declaration made for its step binding, and from every reference to it lookup finds the
scope of that declaration. -/
theorem references_hygienic (hread : read file text = .ok (.ok source))
    (hresolve : resolve settings source = .ok resolved) :
    (∀ place trail span b, source.module.reach place = some (trail, .expr (.identifier span b)) →
      resolved.module.KeptAt place →
      ∃ trail' b', resolved.module.reach place = some (trail', .expr (.identifier span b')) ∧
        (b' ≠ b ↔ ∃ i, Means trail b i) ∧
        ∀ i, Means trail b i → ∃ way trail'' n, way <+: place ∧
          resolved.module.reach way = some (trail'', n) ∧ construct? n = some i ∧
          n.fresh? = some b') ∧
    ∀ target place trail n i fresh, resolved.module.reach place = some (trail, n) →
      construct? n = some i → n.fresh? = some fresh →
      (∃ d, Lower.own? target n = some d ∧ d.name = fresh ∧
        Lower.declaring fresh (walkStmts (Lower.module target resolved.module).body) =
          [.declarator d]) ∧
      ∀ place' trail' span, (Lower.module target resolved.module).reach place' =
        some (trail', .expr (.identifier span fresh)) → Declared trail' fresh := by
  have hsound := sound_of_read hread
  have hformed : AllStmts (Node.Formed Token.IsName) source.module.body :=
    hsound.written.imp fun n hn => hn.1
  have hnodup : (marks (walkStmts source.module.body)).Nodup :=
    hsound.sorted.imp fun hlt => Nat.ne_of_lt hlt
  obtain ⟨hmodule, -, -⟩ := Resolved.ofModule_eq_ok hresolve
  rw [hmodule]
  refine ⟨fun place trail span b h hkept => Resolved.reference_visited hformed h hkept,
    fun target place trail n i fresh h hi hfresh => ?_⟩
  have hn := Module.mem_walk_of_reach h
  obtain ⟨d, hown, hname, hdeclaring⟩ := Resolved.declaring_lower hformed hnodup hn hi
  have hordered := (allStmts_iff_walk _).mp (Resolved.ordered_visited hformed) n hn
  obtain ⟨heq, hisFresh⟩ := hordered.1.fresh i hi
  rw [hfresh] at heq
  cases heq
  refine ⟨⟨d, hown, hname, hdeclaring⟩, fun place' trail' span h' => ?_⟩
  refine declared_of_binds (Resolved.binds_lower hformed hisFresh h') fun binding j hmem => ?_
  obtain ⟨way, trail'', k, -, hk, hj⟩ := Resolved.exists_of_later h' hmem
  rw [Resolved.construct?_lower hformed k (Module.mem_walk_of_reach hk)] at hj
  cases hj

/-- A step binding in the last step of another one with the same binding. -/
def nestedText : String := "let(a)b=1,(function(){return a;})(),a+(let(a)=2,a);"

theorem nested_run : (match read "nested" nestedText with
    | .ok (.ok source) => match resolve {} source with
      | .ok resolved => (match source.module.reach [0, 2, 1, 0, 1] with
        | some (trail, .expr (.identifier _ b)) => b == "a" &&
          trail == [.later "a" 1, .later "a" 0, .names ["b"]]
        | _ => false) &&
        [[], [0], [0, 2], [0, 2, 1], [0, 2, 1, 0], [0, 2, 1, 0, 1]].all fun way =>
          match resolved.module.reach way with
          | some (_, n) => !n.isRejected
          | none => true
      | .error _ => false
    | _ => false) = true := by
  decide +kernel

/-- The reference in the inner step binding means that one and is renamed. -/
theorem nested_renamed :
    ∃ source resolved, read "nested" nestedText = .ok (.ok source) ∧
      resolve {} source = .ok resolved ∧
      ∃ trail trail' span b', source.module.reach [0, 2, 1, 0, 1] =
          some (trail, .expr (.identifier span "a")) ∧ Means trail "a" 1 ∧
        resolved.module.reach [0, 2, 1, 0, 1] = some (trail', .expr (.identifier span b')) ∧
        b' ≠ "a" := by
  have hrun := nested_run
  split at hrun
  · rename_i source hread
    split at hrun
    · rename_i resolved hresolve
      rw [Bool.and_eq_true] at hrun
      obtain ⟨hplace, hkept⟩ := hrun
      split at hplace
      · rename_i trail span b hreach
        simp only [Bool.and_eq_true, beq_iff_eq] at hplace
        obtain ⟨rfl, rfl⟩ := hplace
        have hmeans : Means [.later "a" 1, .later "a" 0, .names ["b"]] "a" 1 :=
          ⟨[], _, rfl, by simp⟩
        have hway : resolved.module.KeptAt [0, 2, 1, 0, 1] := by
          intro way trail n hprefix hn
          have hmem : way ∈ [[], [0], [0, 2], [0, 2, 1], [0, 2, 1, 0], [0, 2, 1, 0, 1]] := by
            simp only [List.prefix_cons_iff, List.prefix_nil] at hprefix
            grind
          have := List.all_eq_true.mp hkept way hmem
          rw [hn] at this
          simpa using this
        obtain ⟨trail', b', hreach', hiff, -⟩ :=
          (references_hygienic hread hresolve).1 _ _ _ _ hreach hway
        exact ⟨source, resolved, hread, hresolve, _, trail', span, b', hreach, hmeans, hreach',
          hiff.mpr ⟨1, hmeans⟩⟩
      · cases hplace
    · cases hrun
  · cases hrun

end Compile

end StepBinding
