import Mathlib.Data.Set.Basic
import Mathlib.Logic.Relation
import Mathlib.Data.Nat.Notation

/-!
# Frontiers of a ranked graph

A frontier is a set of entry points into a directed graph; what it gives access to is everything
its edges lead to. The graph is ranked when every edge goes down in rank, as edges from a change
to the changes it depends on do.

* `Reach E N x`: `x` is reached from an entry point of `N`.
* `Reach.inside_or`: a path that leaves a set of vertices has a last vertex outside it.
* `reach_of_replaced`: a frontier may drop any entry that another entry, or anything else that is
  accounted for in the same way, still leads to. Ranks make the accounting well founded, so no
  circle of entries can vouch for one another.
-/

namespace Frontier

open Relation

variable {α : Type*} {E E' : α → α → Prop} {N N' X : Set α} {x y : α}

/-- An entry point of the frontier `N` leads to `x`. -/
def Reach (E : α → α → Prop) (N : Set α) (x : α) : Prop :=
  ∃ s ∈ N, ReflTransGen E s x

theorem Reach.of_mem (h : x ∈ N) : Reach E N x := ⟨x, h, .refl⟩

theorem Reach.tail (h : Reach E N x) (he : E x y) : Reach E N y := by
  obtain ⟨s, hs, hpath⟩ := h
  exact ⟨s, hs, hpath.tail he⟩

theorem Reach.trans (h : Reach E N x) (hxy : ReflTransGen E x y) : Reach E N y := by
  obtain ⟨s, hs, hpath⟩ := h
  exact ⟨s, hs, hpath.trans hxy⟩

/-- A frontier that reaches every entry of another reaches whatever the other does, and more
edges reach more. -/
theorem Reach.mono (hE : ∀ a b, E a b → E' a b) (hN : ∀ s ∈ N, Reach E' N' s)
    (h : Reach E N x) : Reach E' N' x := by
  obtain ⟨s, hs, hpath⟩ := h
  exact (hN s hs).trans (ReflTransGen.mono hE _ _ hpath)

/-- What is reached is reached inside `K`, or a path inside `K` leads to it from a vertex that is
reached and lies outside. -/
theorem Reach.inside_or {K : Set α} (h : Reach E N x) :
    Reach (fun a b => E a b ∧ b ∈ K) {s | s ∈ N ∧ s ∈ K} x ∨
      ∃ d, d ∉ K ∧ Reach E N d ∧ ReflTransGen (fun a b => E a b ∧ b ∈ K) d x := by
  obtain ⟨s, hs, hpath⟩ := h
  induction hpath with
  | refl =>
    by_cases hK : s ∈ K
    · exact .inl (.of_mem ⟨hs, hK⟩)
    · exact .inr ⟨s, hK, .of_mem hs, .refl⟩
  | @tail y z hsy hyz ih =>
    by_cases hK : z ∈ K
    · rcases ih with hreach | ⟨d, hd, hreach, hpath⟩
      · exact .inl (hreach.tail ⟨hyz, hK⟩)
      · exact .inr ⟨d, hd, hreach, hpath.tail ⟨hyz, hK⟩⟩
    · exact .inr ⟨z, hK, ⟨s, hs, hsy.tail hyz⟩, .refl⟩

variable {rank : α → ℕ}

theorem rank_lt_of_transGen (hrank : ∀ a b, E a b → rank b < rank a) (h : TransGen E x y) :
    rank y < rank x := by
  induction h with
  | single h => exact hrank _ _ h
  | tail _ h ih => exact (hrank _ _ h).trans ih

/-- The ranks of finitely many vertices are bounded. -/
theorem exists_rank_le (rank : α → ℕ) (l : List α) : ∃ bound, ∀ x ∈ l, rank x ≤ bound := by
  induction l with
  | nil => exact ⟨0, fun x hx => by cases hx⟩
  | cons y l ih =>
    obtain ⟨bound, hbound⟩ := ih
    refine ⟨max (rank y) bound, fun x hx => ?_⟩
    rcases List.mem_cons.mp hx with rfl | hx
    · exact le_max_left _ _
    · exact (hbound x hx).trans (le_max_right _ _)

/-- If everything in `X` is an entry point or is led to from elsewhere in `X`, then all of `X` is
reached. The induction is on how far the rank lies below a bound of the ranks in `X`. -/
theorem reach_of_replaced (hrank : ∀ a b, E a b → rank b < rank a) {bound : ℕ}
    (hbound : ∀ x ∈ X, rank x ≤ bound)
    (h : ∀ x ∈ X, x ∈ N ∨ ∃ y ∈ X, TransGen E y x) (hx : x ∈ X) : Reach E N x := by
  induction hd : bound - rank x using Nat.strong_induction_on generalizing x with
  | _ d ih =>
    rcases h x hx with hN | ⟨y, hy, hpath⟩
    · exact .of_mem hN
    · have hlt := rank_lt_of_transGen hrank hpath
      have hle := hbound y hy
      have hreach : Reach E N y := ih (bound - rank y) (by omega) hy rfl
      exact hreach.trans hpath.to_reflTransGen

end Frontier
