import StepBinding.Machine.Property

/-! Elements of arrays as they are written and read. A numeric key is read as an element only if it is
an integer and not negative. A write takes the integer part of its key instead, and counts from the
end if that is negative. So what is written is read under the same key exactly if the key is an
integer and not negative. A length can be set to what it is or less, but to no more. -/

namespace StepBinding

variable {i : Int}

/-- A number that is an integer is its own integer part. -/
theorem Number.truncate_of_integer? {n : Number} (h : n.integer? = some i) :
    n.truncate = .ok i := by
  cases n with
  | int n => simpa [integer?, truncate] using h
  | float x =>
    unfold integer? at h
    unfold truncate
    cases hx : Binary64.toQuotient? x with
    | none => simp [hx] at h
    | some q =>
      simp only [hx, Option.ite_none_right_eq_some, Option.some.injEq] at h ⊢
      rw [Int.tdiv_eq_ediv_of_dvd (Int.dvd_of_emod_eq_zero h.1), h.2]

namespace Machine

section Arrays

variable {vs : Array Value} {v : Value}

theorem toList_writeAt (i : Nat) : (writeAt i v vs).toList =
    if i < vs.size then vs.toList.set i v
    else vs.toList ++ List.replicate (i - vs.size) Value.undefined ++ [v] := by
  unfold writeAt
  split
  · rw [Array.toList_setIfInBounds]
  · rw [Array.toList_push, Array.toList_appendList]

theorem size_writeAt (i : Nat) : (writeAt i v vs).size = max vs.size (i + 1) := by
  rw [← Array.length_toList, toList_writeAt]
  grind

theorem elementAt_writeAt (i : Nat) (j : Int) :
    elementAt (writeAt i v vs) j = if j = i then v else elementAt vs j := by
  unfold elementAt
  simp only [Array.getD_eq_getD_getElem?, ← Array.getElem?_toList, toList_writeAt]
  grind

end Arrays

variable {m m' : Machine} {r : Nat} {v : Value}

/-- The machine with one array changed. -/
def withArray (m : Machine) (r : Nat) (change : Array Value → Array Value) : Machine :=
  { m with arrays := m.arrays.modify r change }

theorem arrayOf_withArray (hr : r < m.arrays.size) (change : Array Value → Array Value) :
    (m.withArray r change).arrayOf r = change (m.arrayOf r) := by
  simp only [withArray, arrayOf, Array.getD_eq_getD_getElem?, Array.getElem?_modify, if_true,
    Array.getElem?_eq_getElem hr]
  rfl

/-- The element that a numeric key names. -/
def element (m : Machine) (r : Nat) (key : Number) : Value :=
  (key.integer?.map (elementAt (m.arrayOf r))).getD .undefined

theorem readProperty_element (m : Machine) (r : Nat) (key : Number) :
    readProperty (.array r) (.number key) m = .ok (m.element r key) m := by
  change readArray r (.number key) m = _
  unfold readArray element
  dsimp only
  cases key.integer? <;> rfl

theorem readProperty_length (m : Machine) (r : Nat) :
    readProperty (.array r) (.string "length") m = .ok (.int (m.arrayOf r).size) m := rfl

/-- The index to which a write goes whose key has the given integer part. -/
def landing (size : Nat) (i : Int) : Int := if i < 0 then size + i else i

theorem landing_neg {size : Nat} : landing size i < 0 ↔ i < -(size : Int) := by
  unfold landing
  split <;> omega

theorem writeProperty_number (m : Machine) (r : Nat) (key : Number) (v : Value) :
    writeProperty (.array r) (.number key) v m = match key.truncate with
      | .error f => .error (.fault f) m
      | .ok i =>
        if landing (m.arrayOf r).size i < 0 then .error .noSuchElement m
        else .ok () (m.withArray r (writeAt (landing (m.arrayOf r).size i).toNat v)) := by
  change (known key.truncate >>= fun i => writeElement r i v) m = _
  cases key.truncate with
  | error f => rfl
  | ok i =>
    change writeElement r i v m = _
    change (if 0 ≤ i then _ else _ : Run Unit) m = _
    unfold landing
    by_cases hi : i < 0
    · rw [if_neg (Int.not_le.mpr hi)]
      simp only [if_pos hi]
      split <;> rfl
    · rw [if_pos (Int.not_lt.mp hi)]
      simp only [if_neg hi]
      rfl

/-- What a write to one place of an array leaves to be read: the value under the keys that name the
place, and under all others what was there before, which is nothing behind the old end. -/
structure WrittenAt (m m' : Machine) (r place : Nat) (v : Value) : Prop where
  elements : ∀ key : Number, ∃ w, readProperty (.array r) (.number key) m = .ok w m ∧
    readProperty (.array r) (.number key) m' = .ok (if key.integer? = some ↑place then v else w) m'
  gap : ∀ (key : Number) (i : Int), key.integer? = some i → (m.arrayOf r).size ≤ i → i ≠ place →
    readProperty (.array r) (.number key) m' = .ok .undefined m'
  length : readProperty (.array r) (.string "length") m' =
    .ok (.int ↑(max (m.arrayOf r).size (place + 1))) m'

theorem writtenAt_withArray (hr : r < m.arrays.size) (place : Nat) (v : Value) :
    WrittenAt m (m.withArray r (writeAt place v)) r place v := by
  have helement (key : Number) : (m.withArray r (writeAt place v)).element r key =
      if key.integer? = some ↑place then v else m.element r key := by
    unfold element
    rw [arrayOf_withArray hr]
    cases key.integer? with
    | none => rfl
    | some i => simp [elementAt_writeAt]
  constructor
  · intro key
    refine ⟨_, readProperty_element m r key, ?_⟩
    rw [readProperty_element, helement]
  · intro key i hi hsize hne
    have hbehind : m.element r key = .undefined := by
      have hi0 : ¬i < 0 := by omega
      have hend : (m.arrayOf r).size ≤ i.toNat := by omega
      simp [element, hi, elementAt, hi0, Array.getD_eq_getD_getElem?, hend]
    rw [readProperty_element, helement, hi, if_neg (by simpa using hne), hbehind]
  · rw [readProperty_length, arrayOf_withArray hr, size_writeAt]

/-- Under its own key a value is read again if the key is an integer and not negative. -/
theorem WrittenAt.read_iff {key : Number} {place : Nat} (h : WrittenAt m m' r place v)
    (hi : key.truncate = .ok i) (hplace : (place : Int) = landing (m.arrayOf r).size i) :
    readProperty (.array r) (.number key) m' = .ok v m' ↔
      (∃ j : Nat, key.integer? = some ↑j) ∨ v = .undefined := by
  obtain ⟨w, hw, hread⟩ := h.elements key
  rw [readProperty_element] at hw
  rw [hread]
  have hown {j : Int} (hj : key.integer? = some j) : j = i := by
    have := Number.truncate_of_integer? hj
    rw [hi] at this
    exact (Except.ok.inj this).symm
  by_cases hkey : ∃ j : Nat, key.integer? = some ↑j
  · obtain ⟨j, hj⟩ := hkey
    have : (place : Int) = j := by
      rw [hplace, ← hown hj, landing, if_neg (by omega)]
    exact iff_of_true (by rw [hj, this, if_pos rfl]) (.inl ⟨j, hj⟩)
  · have hne : key.integer? ≠ some ↑place := fun hp => hkey ⟨place, hp⟩
    -- a fraction and a negative integer name no element
    have hnone : m.element r key = .undefined := by
      unfold element
      cases hk : key.integer? with
      | none => rfl
      | some j =>
        have hneg : j < 0 := Int.not_le.mp fun h0 =>
          hkey ⟨j.toNat, by rw [hk, Int.toNat_of_nonneg h0]⟩
        simp [elementAt, hneg]
    cases hw
    rw [if_neg hne, hnone]
    refine ⟨fun h => ?_, fun h => ?_⟩
    · injection h with h
      exact .inr h.symm
    · rw [h.resolve_left hkey]

theorem writeProperty_length (m : Machine) (r : Nat) (k : Int) :
    writeProperty (.array r) (.string "length") (.int k) m = .ok () (m.withArray r fun _ =>
      ((m.elements r).take (landing (m.elements r).length k).toNat).toArray) := rfl

/-- What is written to an array is read again under the keys of the place where it lands. A numeric key
lands at its integer part, or that far from the end if it is negative; the value is read under the key
itself exactly if the key is an integer and not negative, or the value is `undefined` anyway. All other
elements stay, and the array becomes long enough. Setting the length of an array cuts it, and never
makes it longer. -/
theorem array_writes_observed (hr : r < m.arrays.size) :
    (∀ (key : Number) (v : Value),
      (∃ m', writeProperty (.array r) (.number key) v m = .ok () m') ↔
        ∃ i, key.truncate = .ok i ∧ -((m.arrayOf r).size : Int) ≤ i) ∧
    (∀ (key : Number) (v : Value) (m' : Machine),
      writeProperty (.array r) (.number key) v m = .ok () m' →
      ∃ (i : Int) (place : Nat), key.truncate = .ok i ∧
        (place : Int) = landing (m.arrayOf r).size i ∧ WrittenAt m m' r place v ∧
        (readProperty (.array r) (.number key) m' = .ok v m' ↔
          (∃ j : Nat, key.integer? = some ↑j) ∨ v = .undefined)) ∧
    ∀ k : Int, ∃ m', writeProperty (.array r) (.string "length") (.int k) m = .ok () m' ∧
      readProperty (.array r) (.string "length") m' =
        .ok (.int ↑(min (m.arrayOf r).size (landing (m.arrayOf r).size k).toNat)) m' ∧
      (readProperty (.array r) (.string "length") m' = .ok (.int k) m' ↔
        0 ≤ k ∧ k ≤ (m.arrayOf r).size) := by
  refine ⟨fun key v => ?_, fun key v m' h => ?_, fun k => ⟨_, writeProperty_length m r k, ?_⟩⟩
  · rw [writeProperty_number]
    cases key.truncate with
    | error f => simp
    | ok i =>
      simp only [Except.ok.injEq, exists_eq_left', landing_neg]
      split
      · exact iff_of_false (by rintro ⟨_, ⟨⟩⟩) (by omega)
      · exact iff_of_true ⟨_, rfl⟩ (by omega)
  · rw [writeProperty_number] at h
    cases hi : key.truncate with
    | error f => simp [hi] at h
    | ok i =>
      simp only [hi] at h
      split at h
      · cases h
      rename_i hland
      cases h
      have hplace := Int.toNat_of_nonneg (Int.not_lt.mp hland)
      have hwritten := writtenAt_withArray hr (landing (m.arrayOf r).size i).toNat v
      exact ⟨i, _, rfl, hplace, hwritten, hwritten.read_iff hi hplace⟩
  · have hsize : (m.elements r).length = (m.arrayOf r).size := Array.length_toList
    rw [readProperty_length, arrayOf_withArray hr, List.size_toArray, List.length_take, hsize,
      Nat.min_comm]
    refine ⟨rfl, ?_⟩
    unfold landing
    constructor
    · intro h
      injection h with h
      injection h with h
      injection h with h
      split at h <;> omega
    · intro h
      rw [if_neg (by omega)]
      congr 2
      omega

/-- A machine with one array of three elements. -/
def threeElements : Machine :=
  { envs := #[], arrays := #[#[.int 1, .int 2, .int 3]], objects := #[], nextFunction := 0,
    output := #[] }

theorem last_written :
    0 < threeElements.arrays.size ∧
      ∃ m', writeProperty (.array 0) (.number (.int (-1))) (.int 9) threeElements = .ok () m' :=
  ⟨by decide, ((array_writes_observed (by decide)).1 _ _).mpr ⟨-1, rfl, by decide⟩⟩

/-- A write before the start of an array goes through, is not read again, and changes an element that
another key names; a length that is set to more than it is stays. -/
theorem write_not_read :
    ∃ m', writeProperty (.array 0) (.number (.int (-1))) (.int 9) threeElements = .ok () m' ∧
      readProperty (.array 0) (.number (.int (-1))) m' = .ok .undefined m' ∧
      readProperty (.array 0) (.number (.int 2)) m' = .ok (.int 9) m' ∧
      ∃ m'', writeProperty (.array 0) (.string "length") (.int 5) m' = .ok () m'' ∧
        readProperty (.array 0) (.string "length") m'' = .ok (.int 3) m'' :=
  ⟨_, rfl, rfl, rfl, _, rfl, rfl⟩

end Machine

end StepBinding
