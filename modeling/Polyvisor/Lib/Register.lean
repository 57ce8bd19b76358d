import Mathlib.Data.Finset.Max
import Mathlib.Data.Finset.Image

/-!
# Registers that keep every concurrent write

A write carries a value and hides the writes its author had seen. A reader shows the writes it has
merged that none of them hides, and reads the greatest value shown. When every write is greater
than all it hides, what is hidden never decides the greatest value: it is the greatest of all
merged writes, so it depends on their set alone and grows with it.

* `visible`: the writes of a set that no write of the set hides.
* `winner`: the greatest value shown.
* `winner_eq_greatest`: it is the greatest value merged.
* `winner_eq_some`, `exists_winner`: it is the value of a merged write, at least every other.
-/

namespace Register

variable {W V : Type*} [LinearOrder V]

/-- The greatest value of a finite set, if it has one. -/
def greatest (values : Finset V) : Option V :=
  if h : values.Nonempty then some (values.max' h) else none

theorem greatest_eq_some {values : Finset V} {v : V} :
    greatest values = some v ↔ v ∈ values ∧ ∀ u ∈ values, u ≤ v := by
  unfold greatest
  split
  next h =>
    rw [Option.some_inj]
    constructor
    · rintro rfl
      exact ⟨values.max'_mem h, fun u hu => values.le_max' u hu⟩
    · rintro ⟨hmem, hle⟩
      exact le_antisymm (hle _ (values.max'_mem h)) (values.le_max' v hmem)
  next h =>
    simp only [reduceCtorEq, false_iff]
    rintro ⟨hmem, _⟩
    exact h ⟨v, hmem⟩

theorem greatest_eq_none {values : Finset V} : greatest values = none ↔ values = ∅ := by
  simp [greatest, Finset.not_nonempty_iff_eq_empty]

variable (value : W → V) (hides : W → W → Bool)

/-- The writes of a set that no write of the set hides. -/
def visible (merged : Finset W) : Finset W :=
  merged.filter fun w => ∀ w' ∈ merged, hides w' w = false

/-- The greatest value shown. -/
def winner (merged : Finset W) : Option V :=
  greatest ((visible hides merged).image value)

/-- Every write of the set is greater than the writes of the set it hides. -/
def Rising (merged : Finset W) : Prop :=
  ∀ w ∈ merged, ∀ w' ∈ merged, hides w w' → value w' < value w

variable {value hides}

/-- What is hidden never decides: the greatest value shown is the greatest value merged. -/
theorem winner_eq_greatest {merged : Finset W} (h : Rising value hides merged) :
    winner value hides merged = greatest (merged.image value) := by
  cases hgreatest : greatest (merged.image value) with
  | none =>
    have hempty : merged = ∅ := Finset.image_eq_empty.1 (greatest_eq_none.1 hgreatest)
    simp [winner, visible, hempty, greatest_eq_none]
  | some v =>
    obtain ⟨hmem, hle⟩ := greatest_eq_some.1 hgreatest
    obtain ⟨w, hw, rfl⟩ := Finset.mem_image.1 hmem
    refine greatest_eq_some.2 ⟨Finset.mem_image_of_mem value ?_, fun u hu => ?_⟩
    · -- a write hiding a greatest one would be greater still
      refine Finset.mem_filter.2 ⟨hw, fun w' hw' => ?_⟩
      by_contra hhides
      have hlt := h w' hw' w hw (by simpa using hhides)
      exact absurd (hle _ (Finset.mem_image_of_mem value hw')) (not_le.2 hlt)
    · obtain ⟨w', hw', rfl⟩ := Finset.mem_image.1 hu
      exact hle _ (Finset.mem_image_of_mem value (Finset.mem_filter.1 hw').1)

/-- The winner is the value of a merged write, and no merged write is greater. -/
theorem winner_eq_some {merged : Finset W} (h : Rising value hides merged) {v : V} :
    winner value hides merged = some v ↔
      (∃ w ∈ merged, value w = v) ∧ ∀ w ∈ merged, value w ≤ v := by
  rw [winner_eq_greatest h, greatest_eq_some]
  simp

/-- A register with a merged write has a winner, at least that write. -/
theorem exists_winner {merged : Finset W} (h : Rising value hides merged) {w : W}
    (hw : w ∈ merged) : ∃ v, winner value hides merged = some v ∧ value w ≤ v := by
  have hmem : value w ∈ merged.image value := Finset.mem_image_of_mem value hw
  rw [winner_eq_greatest h]
  cases hgreatest : greatest (merged.image value) with
  | none => simp [greatest_eq_none.1 hgreatest] at hmem
  | some v => exact ⟨v, rfl, (greatest_eq_some.1 hgreatest).2 _ hmem⟩

end Register
