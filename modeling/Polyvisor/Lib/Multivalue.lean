import Mathlib.Data.List.Sort
import Mathlib.Data.Finset.Basic
import Mathlib.Tactic.Common

/-!
# Maps that keep every concurrent write

A history is a list of writes. A write gives a key a value or removes it, and hides the writes of
its key its author saw. A key shows the writes of the history that no write of it hides, and a
reader who wants one value takes the newest. Two histories merge by union.

* `shown`, `values`, `newest`: what a key holds.
* `values_write`, `values_write_of_ne`: a write replaces everything its key held and leaves every
  other key alone.
* `mem_values_merge`: a merge shows nothing that neither side shows.
* `shown_merge_of_not_knows`: what a history says nothing about, it leaves alone.
* `shown_merge_of_shown_eq_nil`: where it shows nothing, it only takes away.
* `merge_of_subset`: what was merged already adds nothing.
-/

namespace Multivalue

variable {A K V : Type*}

/-- One write: `value` is what the key gets, or `none` for a removal. -/
structure Write (A K V : Type*) where
  counter : ℕ
  author : A
  key : K
  value : Option V
  /-- Counter and author of each write of the key that this one replaces. -/
  hides : List (ℕ × A)
  deriving DecidableEq

/-- A write is named by its counter and its author. -/
def Write.id (w : Write A K V) : ℕ × A := (w.counter, w.author)

/-- `w` hides `u`. -/
def Write.Hides (w u : Write A K V) : Prop :=
  w.key = u.key ∧ u.id ∈ w.hides

instance [DecidableEq A] [DecidableEq K] (w u : Write A K V) : Decidable (w.Hides u) :=
  inferInstanceAs (Decidable (_ ∧ _))

/-- The writes that were merged. An author counts past everything it has seen, so a write only
hides writes with a smaller counter. -/
structure History (A K V : Type*) where
  writes : List (Write A K V) := []
  causal : ∀ w ∈ writes, ∀ i ∈ w.hides, i.1 < w.counter

namespace History

/-- Nothing was written. -/
def empty : History A K V where
  causal := fun _ hw => absurd hw List.not_mem_nil

variable [DecidableEq A] [DecidableEq K]

/-- The writes a key shows. -/
def shown (h : History A K V) (key : K) : List (Write A K V) :=
  h.writes.filter fun w => w.key = key ∧ w.value.isSome ∧ ∀ u ∈ h.writes, ¬ u.Hides w

/-- Every value a key holds. -/
def values (h : History A K V) (key : K) : List V :=
  (h.shown key).filterMap Write.value

/-- The value of the newest write a key shows: the greatest counter, then the greatest author. -/
def newest [LE A] [DecidableLE A] (h : History A K V) (key : K) : Option V :=
  ((h.shown key).insertionSort fun u w =>
    u.counter < w.counter ∨ u.counter = w.counter ∧ u.author ≤ w.author).getLast?.bind Write.value

/-- The value of the newest of some writes. -/
def latest [LE A] [DecidableLE A] (writes : List (Write A K V)) : Option V :=
  (writes.insertionSort fun u w =>
    u.counter < w.counter ∨ u.counter = w.counter ∧ u.author ≤ w.author).getLast?.bind Write.value

/-- Every counter that was used is below this one. -/
def next (h : History A K V) : ℕ :=
  h.writes.foldr (fun w n => max (w.counter + 1) n) 0

omit [DecidableEq A] [DecidableEq K] in
theorem counter_lt_next (h : History A K V) : ∀ w ∈ h.writes, w.counter < h.next := by
  rw [next]
  induction h.writes with
  | nil => exact fun _ hw => absurd hw List.not_mem_nil
  | cons u us ih =>
    intro w hw
    rw [List.foldr_cons]
    rcases List.mem_cons.1 hw with rfl | hw
    · omega
    · have := ih w hw
      omega

theorem mem_shown {h : History A K V} {key : K} {w : Write A K V} :
    w ∈ h.shown key ↔
      w ∈ h.writes ∧ w.key = key ∧ w.value.isSome ∧ ∀ u ∈ h.writes, ¬ u.Hides w := by
  rw [shown, List.mem_filter, decide_eq_true_iff]

theorem mem_values {h : History A K V} {key : K} {v : V} :
    v ∈ h.values key ↔ ∃ w ∈ h.shown key, w.value = some v :=
  List.mem_filterMap

/-- The write by which `author` gives the key a value, or removes it. -/
def written (h : History A K V) (author : A) (key : K) (value : Option V) : Write A K V :=
  ⟨h.next, author, key, value, (h.shown key).map Write.id⟩

/-- Give the key a value, or remove it. -/
def write (h : History A K V) (author : A) (key : K) (value : Option V) : History A K V where
  writes := h.written author key value :: h.writes
  causal := by
    intro w hw i hi
    rcases List.mem_cons.1 hw with rfl | hw
    · obtain ⟨u, hu, rfl⟩ := List.mem_map.1 hi
      exact h.counter_lt_next u (mem_shown.1 hu).1
    · exact h.causal w hw i hi

/-- Two histories together. -/
def merge [DecidableEq V] (h g : History A K V) : History A K V where
  writes := h.writes ++ g.writes.filter (· ∉ h.writes)
  causal := by
    intro w hw
    rcases List.mem_append.1 hw with hw | hw
    · exact h.causal w hw
    · exact g.causal w (List.mem_filter.1 hw).1

/-! ## What a write and a merge show -/

/-- A key that was written and never removed shows a write. -/
theorem shown_ne_nil {h : History A K V} {key : K} {w : Write A K V} (hw : w ∈ h.writes)
    (hkey : w.key = key) (hall : ∀ u ∈ h.writes, u.key = key → u.value.isSome) :
    h.shown key ≠ [] := by
  induction hn : h.next - w.counter using Nat.strong_induction_on generalizing w with
  | _ n ih =>
    by_cases hhidden : ∃ u ∈ h.writes, u.Hides w
    · obtain ⟨u, hu, hhides⟩ := hhidden
      -- a write that hides it is a later one of the key
      have hlt : w.counter < u.counter := h.causal u hu _ hhides.2
      have hnext := h.counter_lt_next u hu
      exact ih (h.next - u.counter) (by omega) hu (hhides.1.trans hkey) rfl
    · have hnone : ∀ u ∈ h.writes, ¬ u.Hides w := fun u hu hhides => hhidden ⟨u, hu, hhides⟩
      exact List.ne_nil_of_mem (mem_shown.2 ⟨hw, hkey, hall w hw hkey, hnone⟩)

/-- What is written shows nothing of what its key held before. -/
theorem mem_shown_write {h : History A K V} {author : A} {key key' : K} {value : Option V}
    {w : Write A K V} :
    w ∈ (h.write author key value).shown key' ↔
      (w = h.written author key value ∧ key' = key ∧ value.isSome) ∨
        (w ∈ h.shown key' ∧ key' ≠ key) := by
  -- nothing hides the new write: whoever hid it would have counted past it
  have hfresh : ∀ u ∈ h.writes, ¬ u.Hides (h.written author key value) := by
    rintro u hu ⟨-, hid⟩
    have hlt := h.causal u hu _ hid
    have hle := h.counter_lt_next u hu
    simp only [Write.id, written] at hlt
    omega
  have hself : ¬ (h.written author key value).Hides (h.written author key value) := by
    rintro ⟨-, hid⟩
    obtain ⟨u, hu, heq⟩ := List.mem_map.1 hid
    have hlt := h.counter_lt_next u (mem_shown.1 hu).1
    have hcounter : u.counter = h.next := congrArg Prod.fst heq
    omega
  simp only [mem_shown, write, List.mem_cons, forall_eq_or_imp]
  constructor
  · rintro ⟨rfl | hw, hkey, hvalue, hnew, hold⟩
    · exact .inl ⟨rfl, hkey.symm, hvalue⟩
    · refine .inr ⟨⟨hw, hkey, hvalue, hold⟩, fun hsame => hnew ⟨?_, ?_⟩⟩
      · exact (hkey.trans hsame).symm
      · exact List.mem_map_of_mem (mem_shown.2 ⟨hw, hkey.trans hsame, hvalue, hold⟩)
  · rintro (⟨rfl, rfl, hvalue⟩ | ⟨⟨hw, hkey, hvalue, hold⟩, hne⟩)
    · exact ⟨.inl rfl, rfl, hvalue, hself, hfresh⟩
    · exact ⟨.inr hw, hkey, hvalue, fun hhides => hne (hkey.symm.trans hhides.1.symm), hold⟩

/-- A write replaces everything its key held. -/
theorem mem_values_write {h : History A K V} {author : A} {key : K} {value : Option V} {v : V} :
    v ∈ (h.write author key value).values key ↔ value = some v := by
  simp only [mem_values, mem_shown_write]
  constructor
  · rintro ⟨w, ⟨rfl, -, -⟩ | ⟨-, hne⟩, hv⟩
    · exact hv
    · exact absurd rfl hne
  · rintro rfl
    exact ⟨_, .inl ⟨rfl, trivial, rfl⟩, rfl⟩

/-- A write leaves every other key alone. -/
theorem mem_values_write_of_ne {h : History A K V} {author : A} {key key' : K} {value : Option V}
    {v : V} (hne : key' ≠ key) :
    v ∈ (h.write author key value).values key' ↔ v ∈ h.values key' := by
  simp only [mem_values, mem_shown_write, hne, false_and, and_false, false_or, ne_eq,
    not_false_eq_true, and_true]

/-- A write leaves what every other key shows as it was. -/
theorem shown_write_of_ne {h : History A K V} {author : A} {key key' : K} {value : Option V}
    (hne : key' ≠ key) : (h.write author key value).shown key' = h.shown key' := by
  have hkey : ¬ (h.written author key value).key = key' := fun heq => hne heq.symm
  rw [shown, write, List.filter_cons_of_neg (by simp [hkey]), shown]
  refine List.filter_congr fun w _ => ?_
  by_cases hw : w.key = key'
  · have hother : ¬ (h.written author key value).Hides w :=
      fun hhides => hkey (hhides.1.trans hw)
    simp [hw, hother]
  · simp [hw]

section Newest

variable [LE A] [DecidableLE A]

theorem newest_eq (h : History A K V) (key : K) : h.newest key = latest (h.shown key) := rfl

/-- A key that shows something has a newest write. -/
theorem exists_newest {h : History A K V} {key : K} (hne : h.shown key ≠ []) :
    ∃ w ∈ h.shown key, h.newest key = w.value := by
  rw [newest]
  set sorted := (h.shown key).insertionSort fun u w =>
    u.counter < w.counter ∨ u.counter = w.counter ∧ u.author ≤ w.author with hsorted
  have hmem : ∀ w, w ∈ sorted ↔ w ∈ h.shown key := fun w => by
    rw [hsorted, List.mem_insertionSort]
  obtain ⟨w, hw⟩ := List.exists_mem_of_ne_nil _ hne
  obtain ⟨last, hlast⟩ : ∃ last, sorted.getLast? = some last :=
    Option.ne_none_iff_exists'.1 fun hnone =>
      List.ne_nil_of_mem ((hmem w).2 hw) (List.getLast?_eq_none_iff.1 hnone)
  refine ⟨last, (hmem last).1 (List.mem_of_getLast? hlast), ?_⟩
  rw [hlast, Option.bind_some]

/-- Where every value is the same, the newest is that one. -/
theorem newest_eq_some {h : History A K V} {key : K} {v : V} (hv : v ∈ h.values key)
    (hall : ∀ u ∈ h.values key, u = v) : h.newest key = some v := by
  obtain ⟨w, hw, -⟩ := mem_values.1 hv
  obtain ⟨last, hlast, hnewest⟩ := exists_newest (List.ne_nil_of_mem hw)
  obtain ⟨u, hu⟩ := Option.isSome_iff_exists.1 (mem_shown.1 hlast).2.2.1
  rw [hnewest, hu, hall u (mem_values.2 ⟨last, hlast, hu⟩)]

/-- The newest value is one of those held. -/
theorem mem_values_of_newest {h : History A K V} {key : K} {v : V} (hv : h.newest key = some v) :
    v ∈ h.values key := by
  rw [newest, Option.bind_eq_some_iff] at hv
  obtain ⟨w, hw, hvalue⟩ := hv
  exact mem_values.2 ⟨w, (List.mem_insertionSort _).1 (List.mem_of_getLast? hw), hvalue⟩

theorem newest_write_of_ne {h : History A K V} {author : A} {key key' : K} {value : Option V}
    (hne : key' ≠ key) : (h.write author key value).newest key' = h.newest key' := by
  rw [newest, newest, shown_write_of_ne hne]

end Newest

/-- What a merge shows, one of the two showed. -/
theorem mem_values_merge [DecidableEq V] {h g : History A K V} {key : K} {v : V}
    (hv : v ∈ (h.merge g).values key) : v ∈ h.values key ∨ v ∈ g.values key := by
  obtain ⟨w, hw, hvalue⟩ := mem_values.1 hv
  obtain ⟨hmem, hkey, hsome, hhidden⟩ := mem_shown.1 hw
  rcases List.mem_append.1 hmem with hleft | hright
  · refine .inl (mem_values.2 ⟨w, mem_shown.2 ⟨hleft, hkey, hsome, fun u hu => ?_⟩, hvalue⟩)
    exact hhidden u (List.mem_append_left _ hu)
  · refine .inr (mem_values.2 ⟨w, mem_shown.2 ⟨(List.mem_filter.1 hright).1, hkey, hsome, ?_⟩,
      hvalue⟩)
    intro u hu
    by_cases hboth : u ∈ h.writes
    · exact hhidden u (List.mem_append_left _ hboth)
    · exact hhidden u (List.mem_append_right _ (List.mem_filter.2 ⟨hu, by simpa using hboth⟩))

/-! ## What a merge adds to a key -/

/-- Some write of the history is about the key. -/
def Knows (h : History A K V) (key : K) : Prop :=
  ∃ w ∈ h.writes, w.key = key

/-- The history neither hides the write nor shows it, nor one that has its name. -/
def Unseen (h : History A K V) (w : Write A K V) : Prop :=
  (∀ u ∈ h.writes, ¬ u.Hides w) ∧ w.id ∉ (h.shown w.key).map Write.id

instance (h : History A K V) (w : Write A K V) : Decidable (h.Unseen w) :=
  inferInstanceAs (Decidable (_ ∧ _))

theorem mem_writes_merge [DecidableEq V] {h g : History A K V} {w : Write A K V} :
    w ∈ (h.merge g).writes ↔ w ∈ h.writes ∨ w ∈ g.writes := by
  rw [merge, List.mem_append, List.mem_filter, decide_eq_true_iff]
  by_cases hw : w ∈ h.writes
  · simp [hw]
  · simp [hw]

/-- What a history says nothing about, it leaves alone. -/
theorem shown_merge_of_not_knows [DecidableEq V] {h g : History A K V} {key : K}
    (hnot : ¬ g.Knows key) : (h.merge g).shown key = h.shown key := by
  have hother (u : Write A K V) (hu : u ∈ g.writes) : u.key ≠ key := fun heq => hnot ⟨u, hu, heq⟩
  rw [shown, merge, List.filter_append, shown]
  have hright : (g.writes.filter (· ∉ h.writes)).filter (fun w => w.key = key ∧ w.value.isSome ∧
      ∀ u ∈ h.writes ++ g.writes.filter (· ∉ h.writes), ¬ u.Hides w) = [] := by
    refine List.filter_eq_nil_iff.2 fun w hw => ?_
    have hkey := hother w (List.mem_filter.1 hw).1
    simp [hkey]
  rw [hright, List.append_nil]
  refine List.filter_congr fun w _ => ?_
  by_cases hkey : w.key = key
  · -- a write that hides `w` is one about `key`
    have hnone (u : Write A K V) (hu : u ∈ g.writes) : ¬ u.Hides w :=
      fun hhides => hother u hu (hhides.1.trans hkey)
    simp only [hkey, true_and, List.mem_append, List.mem_filter, decide_eq_decide]
    refine and_congr_right fun _ => ⟨fun hall u hu => hall u (.inl hu), fun hall u hu => ?_⟩
    rcases hu with hu | hu
    · exact hall u hu
    · exact hnone u hu.1
  · simp [hkey]

/-- Merged into a history that shows nothing at the key, a history shows there what it showed,
except for what the other one hides. -/
theorem mem_shown_merge_of_shown_eq_nil [DecidableEq V] {h g : History A K V} {key : K}
    (hnil : h.shown key = []) {w : Write A K V} :
    w ∈ (h.merge g).shown key ↔ w ∈ g.shown key ∧ ∀ u ∈ h.writes, ¬ u.Hides w := by
  rw [mem_shown, mem_shown]
  simp only [mem_writes_merge]
  constructor
  · rintro ⟨hmem, hkey, hsome, hhidden⟩
    rcases hmem with hw | hw
    · have hshown : w ∈ h.shown key :=
        mem_shown.2 ⟨hw, hkey, hsome, fun u hu => hhidden u (.inl hu)⟩
      rw [hnil] at hshown
      exact absurd hshown List.not_mem_nil
    · exact ⟨⟨hw, hkey, hsome, fun u hu => hhidden u (.inr hu)⟩, fun u hu => hhidden u (.inl hu)⟩
  · rintro ⟨⟨hw, hkey, hsome, hright⟩, hleft⟩
    refine ⟨.inr hw, hkey, hsome, fun u hu => ?_⟩
    rcases hu with hu | hu
    · exact hleft u hu
    · exact hright u hu

/-- A history that shows nothing at the key only takes away from what another one shows there. -/
theorem shown_merge_of_shown_eq_nil [DecidableEq V] {h g : History A K V} {key : K}
    (hnil : g.shown key = []) :
    (h.merge g).shown key = (h.shown key).filter fun w => ∀ u ∈ g.writes, ¬ u.Hides w := by
  have hwrites (w : Write A K V) : (∀ u ∈ (h.merge g).writes, ¬ u.Hides w) ↔
      (∀ u ∈ h.writes, ¬ u.Hides w) ∧ ∀ u ∈ g.writes, ¬ u.Hides w := by
    simp only [mem_writes_merge]
    exact ⟨fun hall => ⟨fun u hu => hall u (.inl hu), fun u hu => hall u (.inr hu)⟩,
      fun hall u hu => hu.elim (hall.1 u) (hall.2 u)⟩
  have hright : (g.writes.filter (· ∉ h.writes)).filter (fun w => w.key = key ∧ w.value.isSome ∧
      ∀ u ∈ (h.merge g).writes, ¬ u.Hides w) = [] := by
    refine List.filter_eq_nil_iff.2 fun w hw hshown => ?_
    obtain ⟨hkey, hsome, hall⟩ := of_decide_eq_true hshown
    have hin : w ∈ g.shown key :=
      mem_shown.2 ⟨(List.mem_filter.1 hw).1, hkey, hsome, ((hwrites w).1 hall).2⟩
    rw [hnil] at hin
    exact List.not_mem_nil hin
  rw [shown, merge]
  show ((h.writes ++ _).filter fun w => decide (w.key = key ∧ w.value.isSome ∧
    ∀ u ∈ (h.merge g).writes, ¬ u.Hides w)) = _
  rw [List.filter_append, hright, List.append_nil, shown, List.filter_filter]
  refine List.filter_congr fun w _ => ?_
  rw [← Bool.decide_and, decide_eq_decide, hwrites]
  tauto

omit [DecidableEq A] [DecidableEq K] in
theorem ext_writes {h g : History A K V} (heq : h.writes = g.writes) : h = g := by
  rcases h with ⟨writes, causal⟩
  rcases g with ⟨writes', causal'⟩
  subst heq
  rfl

/-- What was merged already adds nothing. -/
theorem merge_of_subset [DecidableEq V] {h g : History A K V}
    (hsub : ∀ w ∈ g.writes, w ∈ h.writes) : h.merge g = h := by
  have hnone : g.writes.filter (· ∉ h.writes) = [] :=
    List.filter_eq_nil_iff.2 fun w hw => by simpa using hsub w hw
  have hwrites : (h.merge g).writes = h.writes := by
    show h.writes ++ g.writes.filter (· ∉ h.writes) = h.writes
    rw [hnone, List.append_nil]
  exact ext_writes hwrites

end History

end Multivalue
