import Mathlib.Data.List.Infix
import Mathlib.Data.List.Nodup

/-!
# Replacing one stretch of a list

The difference of two lists taken as one replacement: what they begin with in common stays, then
what the rests end with in common, and the stretch between is replaced.

* `splice`: a stretch of a list replaced by another.
* `sharedPrefix`, `sharedSuffix`: how many entries two lists begin and end with in common, the
  numbers characterised by `le_sharedPrefix_iff` and `le_sharedSuffix_iff`.
* `splice_shared`: replacing the stretch between them gives the new list.
* `agrees_iff`: which positions lie outside that stretch.
* `key_mem_splice_iff`: which entries with keys are still there after a replacement.
-/

namespace Splice

variable {α κ : Type*}

/-- `l` with the `deleted` entries from position `start` on replaced by `inserted`. -/
def splice (l : List α) (start deleted : ℕ) (inserted : List α) : List α :=
  l.take start ++ inserted ++ l.drop (start + deleted)

section Shared

variable [DecidableEq α]

/-- How many entries two lists begin with in common. -/
def sharedPrefix (old new : List α) : ℕ :=
  ((old.zip new).takeWhile fun pair => decide (pair.1 = pair.2)).length

/-- How many entries two lists end with in common. -/
def sharedSuffix (old new : List α) : ℕ :=
  sharedPrefix old.reverse new.reverse

@[simp]
theorem sharedPrefix_nil_left (new : List α) : sharedPrefix [] new = 0 := rfl

@[simp]
theorem sharedPrefix_nil_right (old : List α) : sharedPrefix old [] = 0 := by
  simp [sharedPrefix]

@[simp]
theorem sharedPrefix_cons (a b : α) (old new : List α) :
    sharedPrefix (a :: old) (b :: new) = if a = b then sharedPrefix old new + 1 else 0 := by
  by_cases h : a = b <;> simp [sharedPrefix, h]

/-- The entries shared at the start are the longest beginning of `old` that `new` begins with. -/
theorem le_sharedPrefix_iff {old new : List α} {n : ℕ} :
    n ≤ sharedPrefix old new ↔ n ≤ old.length ∧ old.take n <+: new := by
  induction old generalizing new n with
  | nil => simp
  | cons a old ih =>
    rcases n with _ | n
    · simp
    rcases new with _ | ⟨b, new⟩
    · simp
    by_cases hab : a = b
    · subst hab
      simp [ih]
    · simp [hab]

theorem sharedPrefix_le_left (old new : List α) : sharedPrefix old new ≤ old.length :=
  (le_sharedPrefix_iff.1 le_rfl).1

theorem take_sharedPrefix (old new : List α) : old.take (sharedPrefix old new) <+: new :=
  (le_sharedPrefix_iff.1 le_rfl).2

theorem sharedPrefix_le_right (old new : List α) : sharedPrefix old new ≤ new.length := by
  have hlength := (take_sharedPrefix old new).length_le
  rwa [List.length_take_of_le (sharedPrefix_le_left old new)] at hlength

/-- The entries shared at the end are the longest end of `old` that `new` ends with. -/
theorem le_sharedSuffix_iff {old new : List α} {n : ℕ} :
    n ≤ sharedSuffix old new ↔ n ≤ old.length ∧ old.drop (old.length - n) <:+ new := by
  rw [sharedSuffix, le_sharedPrefix_iff, List.length_reverse, List.take_reverse,
    List.reverse_prefix]

theorem drop_sharedSuffix (old new : List α) :
    old.drop (old.length - sharedSuffix old new) <:+ new :=
  (le_sharedSuffix_iff.1 le_rfl).2

theorem sharedSuffix_le_left (old new : List α) : sharedSuffix old new ≤ old.length :=
  (le_sharedSuffix_iff.1 le_rfl).1

theorem sharedSuffix_le_right (old new : List α) : sharedSuffix old new ≤ new.length := by
  have hsuffix := (drop_sharedSuffix old new).length_le
  rw [List.length_drop] at hsuffix
  have := sharedSuffix_le_left old new
  omega

/-- Replacing the stretch between what two lists share at the start and what their rests share
at the end turns the one into the other. -/
theorem splice_shared (old new : List α) {start suffix : ℕ} (hstart : start = sharedPrefix old new)
    (hsuffix : suffix = sharedSuffix (old.drop start) (new.drop start)) :
    splice old start ((old.drop start).length - suffix)
      ((new.take (new.length - suffix)).drop start) = new := by
  have hold : start ≤ old.length := hstart ▸ sharedPrefix_le_left old new
  have hnew : start ≤ new.length := hstart ▸ sharedPrefix_le_right old new
  have hleft : old.take start = new.take start := by
    have hshared := take_sharedPrefix old new
    rw [← hstart] at hshared
    have htake := List.prefix_iff_eq_take.1 hshared
    rwa [List.length_take_of_le hold] at htake
  have hbound : suffix ≤ (new.drop start).length := hsuffix ▸ sharedSuffix_le_right _ _
  have hright : old.drop (start + ((old.drop start).length - suffix)) =
      new.drop (new.length - suffix) := by
    have hend := drop_sharedSuffix (old.drop start) (new.drop start)
    have hle := sharedSuffix_le_left (old.drop start) (new.drop start)
    rw [← hsuffix] at hend hle
    have hdrop := List.suffix_iff_eq_drop.1 hend
    rw [List.drop_drop, List.drop_drop] at hdrop
    rw [hdrop]
    congr 1
    simp only [List.length_drop] at hbound hle ⊢
    omega
  have hmiddle : (new.take (new.length - suffix)).take start = new.take start := by
    rw [List.length_drop] at hbound
    rw [List.take_take]
    congr 1
    omega
  calc splice old start ((old.drop start).length - suffix)
        ((new.take (new.length - suffix)).drop start)
      = new.take start ++ (new.take (new.length - suffix)).drop start ++
          new.drop (new.length - suffix) := by rw [splice, hleft, hright]
    _ = new.take (new.length - suffix) ++ new.drop (new.length - suffix) := by
        rw [← hmiddle, List.take_append_drop]
    _ = new := List.take_append_drop _ _

/-- Position `i` of `old` lies in what both begin with, or in what both end with after that. -/
def Agrees (old new : List α) (i : ℕ) : Prop :=
  old.take (i + 1) <+: new ∨ old.drop i <:+ new.drop (sharedPrefix old new)

instance decidableAgrees (old new : List α) (i : ℕ) : Decidable (Agrees old new i) :=
  inferInstanceAs (Decidable (_ ∨ _))

theorem agrees_iff {old new : List α} {i : ℕ} (hi : i < old.length) {start suffix : ℕ}
    (hstart : start = sharedPrefix old new)
    (hsuffix : suffix = sharedSuffix (old.drop start) (new.drop start)) :
    Agrees old new i ↔ i < start ∨ start + ((old.drop start).length - suffix) ≤ i := by
  have hbegin : old.take (i + 1) <+: new ↔ i < start := by
    rw [hstart, ← Nat.succ_le_iff, le_sharedPrefix_iff]
    exact ⟨fun h => ⟨hi, h⟩, And.right⟩
  rw [Agrees, hbegin, ← hstart]
  refine or_congr_right' fun hlt => ?_
  -- Past the start, what is left from `i` on is an end of what is left from `start` on.
  have hdrop : old.drop i = (old.drop start).drop ((old.drop start).length - (old.length - i)) := by
    rw [List.drop_drop, List.length_drop]
    congr 1
    omega
  have hend : old.length - i ≤ sharedSuffix (old.drop start) (new.drop start) ↔ _ :=
    le_sharedSuffix_iff
  rw [← hdrop, ← hsuffix, List.length_drop] at hend
  rw [List.length_drop]
  constructor
  · intro h
    have := hend.2 ⟨by omega, h⟩
    omega
  · intro h
    have hle := sharedSuffix_le_left (old.drop start) (new.drop start)
    rw [← hsuffix, List.length_drop] at hle
    exact (hend.1 (by omega)).2

end Shared

/-- Of a list with distinct keys, the entry at position `i` is still there after a replacement
that brings in other keys iff `i` lies outside the stretch replaced. -/
theorem key_mem_splice_iff {l inserted : List (κ × α)} (hnodup : (l.map Prod.fst).Nodup)
    (hfresh : ∀ entry ∈ inserted, entry.1 ∉ l.map Prod.fst) {start deleted i : ℕ}
    {entry : κ × α} (hentry : l[i]? = some entry) :
    entry.1 ∈ (splice l start deleted inserted).map Prod.fst ↔
      i < start ∨ start + deleted ≤ i := by
  obtain ⟨hi, rfl⟩ := List.getElem?_eq_some_iff.1 hentry
  -- Keys are distinct, so a key found at another position is found at `i`.
  have hindex : ∀ j (hj : j < l.length), (l[j]).1 = (l[i]).1 → j = i := by
    intro j hj heq
    have hj' : j < (l.map Prod.fst).length := by simpa using hj
    have hi' : i < (l.map Prod.fst).length := by simpa using hi
    have hkeys : (l.map Prod.fst)[j] = (l.map Prod.fst)[i] := by simpa using heq
    exact (List.Nodup.getElem_inj_iff hnodup).1 hkeys
  rw [splice, List.map_append, List.map_append, List.mem_append, List.mem_append]
  constructor
  · rintro ((htake | hnew) | hdrop)
    · obtain ⟨other, hmem, hkey⟩ := List.mem_map.1 htake
      obtain ⟨j, hj, rfl⟩ := List.mem_take_iff_getElem.1 hmem
      left
      have := hindex j (by omega) hkey
      omega
    · obtain ⟨other, hmem, hkey⟩ := List.mem_map.1 hnew
      exact absurd (hkey ▸ List.mem_map_of_mem (List.getElem_mem hi)) (hfresh other hmem)
    · obtain ⟨other, hmem, hkey⟩ := List.mem_map.1 hdrop
      obtain ⟨j, hj, rfl⟩ := List.mem_drop_iff_getElem.1 hmem
      right
      have := hindex _ (by omega) hkey
      omega
  · rintro (hlt | hge)
    · exact .inl (.inl (List.mem_map_of_mem (List.mem_take_iff_getElem.2 ⟨i, by omega, rfl⟩)))
    · refine .inr (List.mem_map_of_mem (List.mem_drop_iff_getElem.2 ⟨i - (start + deleted), ?_⟩))
      exact ⟨by omega, by congr 1; omega⟩

/-- A replacement that brings in other distinct keys leaves the keys distinct. -/
theorem nodup_splice {l inserted : List (κ × α)} (hnodup : (l.map Prod.fst).Nodup)
    (hinserted : (inserted.map Prod.fst).Nodup)
    (hfresh : ∀ entry ∈ inserted, entry.1 ∉ l.map Prod.fst) {start deleted : ℕ} :
    ((splice l start deleted inserted).map Prod.fst).Nodup := by
  -- The keys left in place are those of a part of the list, in order.
  have hpart : (l.take start ++ l.drop (start + deleted)).Sublist l := by
    conv_rhs => rw [← List.take_append_drop start l]
    refine (List.Sublist.refl _).append ?_
    rw [← List.drop_drop]
    exact List.drop_sublist _ _
  have hperm : (splice l start deleted inserted).Perm
      (inserted ++ (l.take start ++ l.drop (start + deleted))) := by
    rw [splice, List.append_assoc]
    exact List.perm_append_comm_assoc _ _ _
  rw [(hperm.map Prod.fst).nodup_iff, List.map_append]
  refine List.Nodup.append hinserted (hnodup.sublist (hpart.map Prod.fst)) fun key hnew hold => ?_
  obtain ⟨entry, hmem, rfl⟩ := List.mem_map.1 hnew
  exact hfresh entry hmem ((hpart.map Prod.fst).subset hold)

end Splice
