import Mathlib.Data.List.Basic
import Std.Data.ExtTreeMap.Lemmas

/-!
# Storing a batch item by item

A loop that checks each item of a batch and stores it before it looks at the next, and ends at
the first item it refuses.

* `storeEach_fst`, `storeEach_snd`: what such a loop leaves behind and what it answers.
* `accepted_eq_nil_iff`: when it leaves nothing behind.
* `getElem?_filed`: every entry of a list put into a map is still there, if no key came with two
  values.
-/

namespace Batch

section Loop

variable {σ α κ ε : Type*} {takes : α → Option κ} {batch : List α}

/-- File every item under the key it is admitted with, up to the first that is refused. The
answer counts from `stored`. -/
def storeEach (takes : α → Option κ) (file : σ → κ → α → σ) (e : ε) :
    σ → List α → ℕ → σ × Except ε ℕ
  | s, [], stored => (s, .ok stored)
  | s, a :: rest, stored =>
    match takes a with
    | none => (s, .error e)
    | some k => storeEach takes file e (file s k a) rest (stored + 1)

/-- The items before the first refused one, each with its key. -/
def accepted (takes : α → Option κ) : List α → List (κ × α)
  | [] => []
  | a :: rest =>
    match takes a with
    | none => []
    | some k => (k, a) :: accepted takes rest

theorem accepted_cons_of_some {a : α} {k : κ} (h : takes a = some k) (rest : List α) :
    accepted takes (a :: rest) = (k, a) :: accepted takes rest := by
  simp only [accepted, h]

theorem accepted_cons_of_none {a : α} (h : takes a = none) (rest : List α) :
    accepted takes (a :: rest) = [] := by
  simp only [accepted, h]

/-- The loop leaves what filing the accepted items leaves. -/
theorem storeEach_fst (file : σ → κ → α → σ) (e : ε) (s : σ) (stored : ℕ) :
    (storeEach takes file e s batch stored).1 =
      (accepted takes batch).foldl (fun s p => file s p.1 p.2) s := by
  induction batch generalizing s stored with
  | nil => rfl
  | cons a rest ih =>
    rcases h : takes a with _ | k
    · simp only [storeEach, accepted, h, List.foldl_nil]
    · simp only [storeEach, accepted, h, List.foldl_cons, ih]

/-- The loop counts the batch if it admits all of it, and fails otherwise. -/
theorem storeEach_snd (file : σ → κ → α → σ) (e : ε) (s : σ) (stored : ℕ) :
    (storeEach takes file e s batch stored).2 =
      if ∀ a ∈ batch, (takes a).isSome then .ok (stored + batch.length) else .error e := by
  induction batch generalizing s stored with
  | nil => simp [storeEach]
  | cons a rest ih =>
    rcases h : takes a with _ | k
    · simp [storeEach, h]
    · have hlength : stored + 1 + rest.length = stored + (a :: rest).length := by
        rw [List.length_cons]
        omega
      simp only [storeEach, h, ih, hlength, List.forall_mem_cons, Option.isSome_some, true_and]

/-- Nothing is accepted exactly if the first item is refused or there is none. -/
theorem accepted_eq_nil_iff : accepted takes batch = [] ↔ ∀ a ∈ batch.head?, takes a = none := by
  rcases batch with _ | ⟨a, rest⟩
  · simp [accepted]
  · rcases h : takes a with _ | k
    · simp [accepted, h]
    · simp [accepted, h]

theorem of_mem_accepted {p : κ × α} (h : p ∈ accepted takes batch) :
    takes p.2 = some p.1 ∧ p.2 ∈ batch := by
  induction batch with
  | nil => simp [accepted] at h
  | cons a rest ih =>
    rcases ha : takes a with _ | k
    · simp [accepted_cons_of_none ha] at h
    rw [accepted_cons_of_some ha] at h
    rcases List.mem_cons.1 h with rfl | h
    · exact ⟨ha, List.mem_cons_self⟩
    · exact ⟨(ih h).1, List.mem_cons_of_mem a (ih h).2⟩

/-- If nothing is refused, the accepted items are the batch. -/
theorem map_accepted (h : ∀ a ∈ batch, (takes a).isSome) :
    (accepted takes batch).map Prod.snd = batch := by
  induction batch with
  | nil => rfl
  | cons a rest ih =>
    obtain ⟨ha, hrest⟩ := List.forall_mem_cons.1 h
    obtain ⟨k, hk⟩ := Option.isSome_iff_exists.1 ha
    rw [accepted_cons_of_some hk, List.map_cons, ih hrest]

theorem mem_accepted (h : ∀ a ∈ batch, (takes a).isSome) {a : α} (ha : a ∈ batch) :
    ∃ k, takes a = some k ∧ (k, a) ∈ accepted takes batch := by
  rw [← map_accepted h] at ha
  obtain ⟨⟨k, a⟩, hmem, rfl⟩ := List.mem_map.1 ha
  exact ⟨k, (of_mem_accepted hmem).1, hmem⟩

end Loop

section Map

open Std

variable {K V : Type*} [Ord K] [TransOrd K] [LawfulEqOrd K] {m : ExtTreeMap K V}
  {entries : List (K × V)}

/-- A map after entries were put into it one after another. -/
def filed (m : ExtTreeMap K V) (entries : List (K × V)) : ExtTreeMap K V :=
  entries.foldl (fun m p => m.insert p.1 p.2) m

/-- No key stands in the list with two values. -/
def Apart (entries : List (K × V)) : Prop :=
  ∀ p ∈ entries, ∀ q ∈ entries, p.1 = q.1 → p.2 = q.2

theorem getElem?_filed_of_not_mem {k : K} (h : ∀ p ∈ entries, p.1 ≠ k) :
    (filed m entries)[k]? = m[k]? := by
  induction entries generalizing m with
  | nil => rfl
  | cons p entries ih =>
    obtain ⟨hp, hrest⟩ := List.forall_mem_cons.1 h
    show (filed (m.insert p.1 p.2) entries)[k]? = m[k]?
    rw [ih hrest, ExtTreeMap.getElem?_insert, if_neg (by simpa using hp)]

theorem getElem?_filed (hapart : Apart entries) {p : K × V} (hp : p ∈ entries) :
    (filed m entries)[p.1]? = some p.2 := by
  induction entries generalizing m p with
  | nil => simp at hp
  | cons q entries ih =>
    have hrest : Apart entries := fun a ha b hb =>
      hapart a (List.mem_cons_of_mem q ha) b (List.mem_cons_of_mem q hb)
    show (filed (m.insert q.1 q.2) entries)[p.1]? = some p.2
    by_cases hlater : ∃ r ∈ entries, r.1 = p.1
    · -- the key is put in again, with the same value
      obtain ⟨r, hr, heq⟩ := hlater
      have hvalue : r.2 = p.2 := hapart r (List.mem_cons_of_mem q hr) p hp heq
      rw [← heq, ← hvalue]
      exact ih hrest hr
    · have hlast : ∀ r ∈ entries, r.1 ≠ p.1 := fun r hr heq => hlater ⟨r, hr, heq⟩
      rw [getElem?_filed_of_not_mem hlast]
      rcases List.mem_cons.1 hp with rfl | hmem
      · exact ExtTreeMap.getElem?_insert_self
      · exact absurd rfl (hlast p hmem)

end Map

end Batch
