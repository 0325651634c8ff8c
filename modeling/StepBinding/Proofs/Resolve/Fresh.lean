import Mathlib.Data.List.Nodup
import StepBinding.Proofs.Resolve.Parts

/-! Fresh names are fresh. Of as many consecutive candidates as there are reserved names, and one
more, at least one is not reserved, so the search finds a free name. The names that are handed
out are therefore different from each other and from every name that the module spells. -/

namespace StepBinding

open List

variable {α β : Type}

namespace FreshNames

variable {names : FreshNames}

theorem candidate_inj {n m : Nat} (h : names.candidate n = names.candidate m) : n = m := by
  have hdigits : Nat.toDigits 10 n = Nat.toDigits 10 m := by
    have := congrArg String.toList h
    simpa [candidate, String.toList_append, Nat.toString_eq_repr] using this
  calc n = Nat.ofDigitChars 10 (Nat.toDigits 10 n) 0 := Nat.ofDigitChars_ten_toDigits.symm
    _ = Nat.ofDigitChars 10 (Nat.toDigits 10 m) 0 := by rw [hdigits]
    _ = m := Nat.ofDigitChars_ten_toDigits

theorem nodup_candidates (names : FreshNames) (n bound : Nat) :
    ((List.range' n bound).map names.candidate).Nodup :=
  pairwise_map.mpr
    ((nodup_range' 1).imp fun hne heq => hne (candidate_inj heq))

/-- If the search finds no free name then all candidates are reserved. -/
theorem seek_reserved {bound n : Nat} (h : names.candidate (names.seek bound n) ∈ names.reserved) :
    ∀ c ∈ (List.range' n (bound + 1)).map names.candidate, c ∈ names.reserved := by
  induction bound generalizing n with
  | zero => simpa [seek] using h
  | succ bound ih =>
    unfold seek at h
    split at h
    · rename_i hn
      rw [contains_iff_mem] at hn
      rw [List.range'_succ, map_cons]
      exact forall_mem_cons.mpr ⟨hn, ih h⟩
    · rename_i hn
      simp [h] at hn

theorem fresh_notMem : names.fresh.1 ∉ names.reserved := by
  intro h
  have hall := seek_reserved h
  have hlength := (nodup_candidates names _ _).length_le_of_subset hall
  simp only [length_map, length_range'] at hlength
  omega

/-- Keys get names in turn, none of which is reserved and no two of which are equal. -/
theorem assign_spec (keys : List α) (names : FreshNames) :
    (names.assign keys).map Prod.fst = keys ∧
      (∀ p ∈ names.assign keys, p.2 ∉ names.reserved ∧ ∃ n : Nat, p.2 = names.stem ++ toString n) ∧
      ((names.assign keys).map Prod.snd).Nodup := by
  induction keys generalizing names with
  | nil => exact ⟨rfl, nofun, .nil⟩
  | cons key keys ih =>
    obtain ⟨hfst, hnew, hnodup⟩ := ih names.fresh.2
    have hmem : ∀ p ∈ names.fresh.2.assign keys, p.2 ≠ names.fresh.1 ∧ p.2 ∉ names.reserved := by
      intro p hp
      have hp := (hnew p hp).1
      simp only [fresh, mem_append, mem_singleton, not_or] at hp
      exact ⟨hp.2, hp.1⟩
    refine ⟨congrArg (key :: ·) hfst, ?_, ?_⟩
    · refine forall_mem_cons.mpr ⟨⟨fresh_notMem, _, rfl⟩, fun p hp => ?_⟩
      exact ⟨(hmem p hp).2, (hnew p hp).2⟩
    · refine nodup_cons.mpr ⟨fun h => ?_, hnodup⟩
      obtain ⟨p, hp, heq⟩ := mem_map.mp h
      exact (hmem p hp).1 heq

theorem le_seek {bound n : Nat} : n ≤ names.seek bound n := by
  induction bound generalizing n with
  | zero => exact Nat.le_refl n
  | succ bound ih =>
    unfold seek
    split
    · exact Nat.le_of_succ_le ih
    · exact Nat.le_refl n

/-- Names that are handed out later have greater numbers. -/
theorem assign_increasing (keys : List α) (names : FreshNames) :
    (∀ p ∈ names.assign keys, ∃ n, p.2 = names.candidate n ∧ names.counter < n) ∧
      (names.assign keys).Pairwise fun p q =>
        ∃ n k, p.2 = names.candidate n ∧ q.2 = names.candidate k ∧ n < k := by
  induction keys generalizing names with
  | nil => exact ⟨nofun, .nil⟩
  | cons key keys ih =>
    obtain ⟨hlater, hpairs⟩ := ih names.fresh.2
    have hcounter : names.counter < names.fresh.2.counter :=
      Nat.lt_of_succ_le (@le_seek names (names.reserved.length + 1) (names.counter + 1))
    constructor
    · refine forall_mem_cons.mpr ⟨⟨names.fresh.2.counter, rfl, hcounter⟩, fun p hp => ?_⟩
      obtain ⟨n, hn, hlt⟩ := hlater p hp
      exact ⟨n, hn, Nat.lt_trans hcounter hlt⟩
    · refine pairwise_cons.mpr ⟨fun p hp => ?_, hpairs⟩
      obtain ⟨n, hn, hlt⟩ := hlater p hp
      exact ⟨names.fresh.2.counter, n, rfl, hn, hlt⟩

end FreshNames

namespace Resolved

variable {names : FreshNames} {m : Module} {i j : Nat} {name : String}

theorem mem_of_lookup [BEq α] [LawfulBEq α] {k : α} {v : β} {table : List (α × β)}
    (h : table.lookup k = some v) : (k, v) ∈ table := by
  obtain ⟨before, behind, rfl, -⟩ := lookup_eq_some_iff.mp h
  exact mem_append_right _ mem_cons_self

theorem asked_eq (m : Module) : asked m = (Tree.walkStmts m.body).filterMap Tree.construct? :=
  Resolve.asked_stmts m.body

/-- Every step binding of a module has a name in the table. -/
theorem exists_fresh (hi : i ∈ (Tree.walkStmts m.body).filterMap Tree.construct?) :
    ∃ name, (freshTable names m).lookup i = some name := by
  have hfst := (FreshNames.assign_spec (asked m) (names.reserve (Tree.names m))).1
  rw [← asked_eq, ← hfst] at hi
  obtain ⟨p, hp, rfl⟩ := mem_map.mp hi
  cases hl : (freshTable names m).lookup p.1 with
  | some name => exact ⟨name, rfl⟩
  | none =>
    rw [lookup_eq_none_iff] at hl
    have := hl p hp
    simp at this

/-- A fresh name is spelled nowhere in the module. -/
theorem fresh_notMem_names (h : (freshTable names m).lookup i = some name) :
    name ∉ Tree.names m := by
  intro hmem
  have := ((FreshNames.assign_spec _ _).2.1 _ (mem_of_lookup h)).1
  exact this (mem_append_right _ hmem)

/-- A fresh name is the stem with a number. -/
theorem fresh_eq_stem (h : (freshTable names m).lookup i = some name) :
    ∃ n : Nat, name = names.stem ++ toString n :=
  ((FreshNames.assign_spec _ _).2.1 _ (mem_of_lookup h)).2

/-- A fresh name ends with a digit. -/
theorem fresh_ends (h : (freshTable names m).lookup i = some name) :
    ∃ c, name.toList.getLast? = some c ∧ c.isDigit := by
  obtain ⟨n, rfl⟩ := fresh_eq_stem h
  have htext : (names.stem ++ toString n).toList = names.stem.toList ++ Nat.toDigits 10 n := by
    simp [Nat.toString_eq_repr]
  have hne : Nat.toDigits 10 n ≠ [] := Nat.toDigits_ne_nil
  refine ⟨(Nat.toDigits 10 n).getLast hne, ?_, ?_⟩
  · rw [htext, getLast?_append, getLast?_eq_some_getLast hne, Option.some_or]
  · exact Nat.isDigit_of_mem_toDigits (by decide) (by decide) (getLast_mem hne)

/-- Different step bindings have different fresh names. -/
theorem fresh_inj (hi : (freshTable names m).lookup i = some name)
    (hj : (freshTable names m).lookup j = some name) : i = j := by
  have hnodup := (FreshNames.assign_spec (asked m) (names.reserve (Tree.names m))).2.2
  exact congrArg Prod.fst (inj_on_of_nodup_map hnodup (mem_of_lookup hi) (mem_of_lookup hj) rfl)

/-- Step bindings that are numbered in the order of the source have increasing fresh names. -/
theorem fresh_increasing {n k : Nat}
    (hsorted : ((Tree.walkStmts m.body).filterMap Tree.construct?).Pairwise (· < ·))
    (hi : (freshTable names m).lookup i = some (names.stem ++ toString n))
    (hj : (freshTable names m).lookup j = some (names.stem ++ toString k)) (hij : i < j) : n < k := by
  obtain ⟨hfst, -, -⟩ := FreshNames.assign_spec (asked m) (names.reserve (Tree.names m))
  obtain ⟨-, hpairs⟩ := FreshNames.assign_increasing (asked m) (names.reserve (Tree.names m))
  rw [← asked_eq, ← hfst, pairwise_map] at hsorted
  let R (p q : Nat × String) : Prop :=
    p.1 < q.1 → ∀ n k, p.2 = names.candidate n → q.2 = names.candidate k → n < k
  have hR : (freshTable names m).Pairwise R := by
    refine hpairs.imp fun ⟨n, k, hn, hk, hlt⟩ _ n' k' hn' hk' => ?_
    rw [hn] at hn'
    rw [hk] at hk'
    rwa [← FreshNames.candidate_inj (hn' : names.candidate n = _),
      ← FreshNames.candidate_inj (hk' : names.candidate k = _)]
  have hflip : (freshTable names m).Pairwise (flip R) :=
    hsorted.imp fun hlt hgt => absurd hgt (Nat.lt_asymm hlt)
  exact List.Pairwise.forall_of_forall_of_flip (fun p _ hlt => absurd hlt (Nat.lt_irrefl _)) hR hflip
    (mem_of_lookup hi) (mem_of_lookup hj) hij n k rfl rfl

end Resolved

end StepBinding
