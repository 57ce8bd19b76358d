import Mathlib.Data.List.Basic
import Mathlib.Logic.Basic

/-!
# Runs of a deterministic labelled machine

A machine is a function `step : σ → ℓ → σ`. Everything the outside world chooses (which task
moves next, whether a write fails) is part of the label, so a run is the list of labels it
takes and a disabled label leaves the state as it is.

* `run step s ls`: the state reached from `s` by the labels `ls`.
* `Meets step cond s ls`: every step of that run is taken in a state and by a label that
  satisfy `cond`.
* `run_preserves` and `run_preserves_of_meets`: what every step preserves, or every step that
  meets the condition, holds at the end of the run.
* `run_component`: a component that only some labels act on runs by these labels.
* `meets_of_meets`: of two conditions, the one that follows from the other in the states of a run.
* `meets_append`: a run meets a condition iff both of its halves do.
* `throughout_iff`: what holds throughout a run holds at the end of every run it begins with.
* `throughout_of_meets`: what every step meeting a condition preserves holds throughout every run
  that meets it.
* `throughout_iff_meets`: if a step keeps `P` exactly when it meets a condition, then `P` holds
  throughout a run iff every step of the run meets it.
* `exists_first` and `exists_before`: what becomes true along a run does so in one of its steps, and
  what such a step is taken in held earlier.
* `throughout_iff_meets_of_keeps`: likewise if a step that meets the condition keeps what `P`
  follows from, and one that does not breaks `P`.
-/

namespace Transition

variable {σ ℓ : Type*} (step : σ → ℓ → σ)

/-- The state reached from `s` by taking the labels `ls` in order. -/
def run (s : σ) (ls : List ℓ) : σ :=
  ls.foldl step s

@[simp]
theorem run_nil (s : σ) : run step s [] = s := rfl

@[simp]
theorem run_cons (s : σ) (l : ℓ) (ls : List ℓ) :
    run step s (l :: ls) = run step (step s l) ls := rfl

/-- A run of `ls ++ ms` is a run of `ms` from where `ls` ends. -/
theorem run_append (s : σ) (ls ms : List ℓ) :
    run step s (ls ++ ms) = run step (run step s ls) ms := by
  simp [run]

/-- Every step of the run of `ls` from `s` is taken in a state and by a label satisfying
`cond`. -/
def Meets (cond : σ → ℓ → Prop) : σ → List ℓ → Prop
  | _, [] => True
  | s, l :: ls => cond s l ∧ Meets cond (step s l) ls

/-- Whether a run meets a decidable condition is decidable. -/
instance decidableMeets (cond : σ → ℓ → Prop) [∀ s l, Decidable (cond s l)] :
    (s : σ) → (ls : List ℓ) → Decidable (Meets step cond s ls)
  | _, [] => inferInstanceAs (Decidable True)
  | s, l :: ls =>
    have := decidableMeets cond (step s l) ls
    inferInstanceAs (Decidable (cond s l ∧ Meets step cond (step s l) ls))

variable {step}

/-- What every step meeting `cond` preserves holds at the end of every run that meets
`cond`. -/
theorem run_preserves_of_meets {cond : σ → ℓ → Prop} {Inv : σ → Prop}
    (hstep : ∀ s l, cond s l → Inv s → Inv (step s l)) {s : σ} {ls : List ℓ}
    (hmeets : Meets step cond s ls) (hs : Inv s) : Inv (run step s ls) := by
  induction ls generalizing s with
  | nil => exact hs
  | cons l ls ih => exact ih hmeets.2 (hstep s l hmeets.1 hs)

/-- What every step preserves holds at the end of every run. -/
theorem run_preserves {Inv : σ → Prop} (hstep : ∀ s l, Inv s → Inv (step s l)) {s : σ}
    (hs : Inv s) (ls : List ℓ) : Inv (run step s ls) := by
  induction ls generalizing s with
  | nil => exact hs
  | cons l ls ih => exact ih (hstep s l hs)

/-- Where some labels act on one component alone and the others leave it as it is, the component of
a run is the run of the component by its own labels. -/
theorem run_component {τ : Type*} (view : σ → τ) {localStep : τ → ℓ → τ} {mine : ℓ → Bool}
    (hmine : ∀ s l, mine l → view (step s l) = localStep (view s) l)
    (hother : ∀ s l, ¬ mine l → view (step s l) = view s) (s : σ) (ls : List ℓ) :
    view (run step s ls) = run localStep (view s) (ls.filter mine) := by
  induction ls generalizing s with
  | nil => rfl
  | cons l ls ih =>
    rw [run_cons, ih]
    by_cases hl : mine l
    · rw [List.filter_cons_of_pos hl, run_cons, hmine s l hl]
    · rw [List.filter_cons_of_neg hl, hother s l hl]

/-- A run that meets one condition meets every condition that follows from it in the states that
the run keeps to. -/
theorem meets_of_meets {cond cond' : σ → ℓ → Prop} {Inv : σ → Prop}
    (hstep : ∀ s l, cond s l → Inv s → Inv (step s l))
    (hcond : ∀ s l, Inv s → cond s l → cond' s l) {s : σ} {ls : List ℓ}
    (hmeets : Meets step cond s ls) (hs : Inv s) : Meets step cond' s ls := by
  induction ls generalizing s with
  | nil => trivial
  | cons l ls ih => exact ⟨hcond s l hs hmeets.1, ih hmeets.2 (hstep s l hmeets.1 hs)⟩

section Append

attribute [local simp] Meets

/-- A run of `ls ++ ms` meets a condition iff the run of `ls` does and the run of `ms` does from
where `ls` ends. -/
theorem meets_append {cond : σ → ℓ → Prop} {s : σ} {ls ms : List ℓ} :
    Meets step cond s (ls ++ ms) ↔
      Meets step cond s ls ∧ Meets step cond (run step s ls) ms := by
  induction ls generalizing s with
  | nil => simp
  | cons l ls ih => simp [ih, and_assoc]

end Append

variable (step) in
/-- `P` holds at the start of the run and after each of its steps. -/
def Throughout (P : σ → Prop) : σ → List ℓ → Prop
  | s, [] => P s
  | s, l :: ls => P s ∧ Throughout P (step s l) ls

theorem throughout_iff {P : σ → Prop} {s : σ} {ls : List ℓ} :
    Throughout step P s ls ↔ ∀ ms, ms <+: ls → P (run step s ms) := by
  induction ls generalizing s with
  | nil =>
    refine ⟨fun h ms hms => ?_, fun h => h [] (List.nil_prefix)⟩
    rw [List.prefix_nil.1 hms]
    exact h
  | cons l ls ih =>
    rw [Throughout, ih]
    constructor
    · rintro ⟨hs, hrest⟩ ms hms
      cases ms with
      | nil => exact hs
      | cons m ms =>
        obtain ⟨rfl, hrun⟩ := List.cons_prefix_cons.1 hms
        exact hrest ms hrun
    · intro h
      exact ⟨h [] List.nil_prefix, fun ms hms => h (l :: ms) (List.cons_prefix_cons.2 ⟨rfl, hms⟩)⟩

/-- What every step meeting `cond` preserves holds throughout every run that meets `cond`. -/
theorem throughout_of_meets {cond : σ → ℓ → Prop} {P : σ → Prop}
    (hstep : ∀ s l, cond s l → P s → P (step s l)) {s : σ} {ls : List ℓ}
    (hmeets : Meets step cond s ls) (hs : P s) : Throughout step P s ls := by
  induction ls generalizing s with
  | nil => exact hs
  | cons l ls ih => exact ⟨hs, ih hmeets.2 (hstep s l hmeets.1 hs)⟩

theorem throughout_iff_meets {cond : σ → ℓ → Prop} {Inv P : σ → Prop}
    (hInv : ∀ s l, Inv s → Inv (step s l))
    (hP : ∀ s l, Inv s → P s → (P (step s l) ↔ cond s l)) {s : σ} (ls : List ℓ) (hs : Inv s)
    (hPs : P s) : Throughout step P s ls ↔ Meets step cond s ls := by
  induction ls generalizing s with
  | nil => exact ⟨fun _ => trivial, fun _ => hPs⟩
  | cons l ls ih =>
    have hstep := hP s l hs hPs
    constructor
    · rintro ⟨-, hrest⟩
      have hnext : P (step s l) := throughout_iff.1 hrest [] List.nil_prefix
      exact ⟨hstep.1 hnext, (ih (hInv s l hs) hnext).1 hrest⟩
    · rintro ⟨hcond, hrest⟩
      exact ⟨hPs, (ih (hInv s l hs) (hstep.2 hcond)).2 hrest⟩

theorem throughout_iff_meets_of_keeps {cond : σ → ℓ → Prop} {Inv P : σ → Prop}
    (hInv : ∀ s, Inv s → P s) (hkeeps : ∀ s l, Inv s → cond s l → Inv (step s l))
    (hbreaks : ∀ s l, Inv s → P (step s l) → cond s l) {s : σ} (ls : List ℓ) (hs : Inv s) :
    Throughout step P s ls ↔ Meets step cond s ls := by
  induction ls generalizing s with
  | nil => exact ⟨fun _ => trivial, fun _ => hInv s hs⟩
  | cons l ls ih =>
    constructor
    · rintro ⟨-, hrest⟩
      have hcond : cond s l := hbreaks s l hs (throughout_iff.1 hrest [] List.nil_prefix)
      exact ⟨hcond, (ih (hkeeps s l hs hcond)).1 hrest⟩
    · rintro ⟨hcond, hrest⟩
      exact ⟨hInv s hs, (ih (hkeeps s l hs hcond)).2 hrest⟩

/-- What does not hold at the start of a run and holds at its end comes with one of its steps. -/
theorem exists_first {Q : σ → Prop} {s : σ} {ls : List ℓ} (hs : ¬ Q s) (h : Q (run step s ls)) :
    ∃ ms l, ms ++ [l] <+: ls ∧ ¬ Q (run step s ms) ∧ Q (step (run step s ms) l) := by
  induction ls generalizing s with
  | nil => exact absurd h hs
  | cons l ls ih =>
    by_cases hl : Q (step s l)
    · exact ⟨[], l, ⟨ls, rfl⟩, hs, hl⟩
    · obtain ⟨ms, m, hms, hfirst⟩ := ih hl h
      exact ⟨l :: ms, m, List.cons_prefix_cons.2 ⟨rfl, hms⟩, hfirst⟩

/-- If only a step that is taken in a state of `P` makes `Q` true, `P` held before `Q` does. -/
theorem exists_before {Inv P Q : σ → Prop} (hInv : ∀ s l, Inv s → Inv (step s l))
    (hstep : ∀ s l, Inv s → Q (step s l) → Q s ∨ P s) {s : σ} {ls : List ℓ} (hs : Inv s)
    (hQ : ¬ Q s) (h : Q (run step s ls)) : ∃ ms, ms <+: ls ∧ P (run step s ms) := by
  obtain ⟨ms, l, hms, hbefore, hafter⟩ := exists_first hQ h
  exact ⟨ms, (List.prefix_append ms [l]).trans hms,
    (hstep _ l (run_preserves hInv hs ms) hafter).resolve_left hbefore⟩

end Transition
