import Mathlib.Data.Nat.Notation
import Mathlib.Logic.Function.Basic

/-!
# Stores that fail and crash part-way

A store has files, whose writes can tear, and cells, whose writes are atomic. A program is a
list of effects on it; what becomes of each effect is its fate, chosen by the outside world. A
failed write ends the program with the error the program attached to it, a failed removal is
passed over, and a crash ends everything. A list of fates that runs out is a crash between two
effects, so every prefix of a program is covered.

* `execute s es fs`: the store the program `es` leaves behind under the fates `fs`, and how it
  ended.
* `execute_agree`: whatever happens, a program leaves alone what none of its effects names.
* `isSome_execute`: a cell that no effect clears stays set.
* `execute_append`: a program in two halves.
* `execute_completed`: a program of noticed effects that completed did all of them.
* `execute_ne_failed`: removals are passed over, they never report a failure.
-/

namespace CrashStore

variable {P K C E : Type*}

/-- Files that can tear and cells that cannot. -/
structure Store (P K C : Type*) where
  files : P → Option C
  cells : K → Option C

/-- One durable effect. -/
inductive Effect (P K C E : Type*) where
  /-- Write a file, or end with this error. -/
  | write (path : P) (content : C) (error : E)
  /-- Remove a file, best effort. -/
  | remove (path : P)
  /-- Set a cell. -/
  | set (key : K) (content : C)
  /-- Clear a cell. -/
  | delete (key : K)

/-- What becomes of one effect. -/
inductive Fate (C : Type*) where
  | done
  /-- It reports failure and leaves this in its file. -/
  | failed (left : Option C)
  /-- The process stops during it and leaves this in its file. -/
  | crashed (left : Option C)

/-- How a program ended. -/
inductive Ending (E : Type*) where
  | completed
  | failed (error : E)
  | crashed
  deriving DecidableEq

namespace Store

section Files

variable [DecidableEq P]

/-- Replace what a file holds. -/
def put (s : Store P K C) (path : P) (content : Option C) : Store P K C :=
  { s with files := Function.update s.files path content }

@[simp]
theorem put_cells (s : Store P K C) (path : P) (content : Option C) :
    (s.put path content).cells = s.cells := rfl

@[simp]
theorem put_files_self (s : Store P K C) (path : P) (content : Option C) :
    (s.put path content).files path = content := by
  simp [put]

@[simp]
theorem put_files_of_ne (s : Store P K C) {path path' : P} (content : Option C)
    (h : path' ≠ path) : (s.put path content).files path' = s.files path' := by
  simp [put, h]

end Files

section Cells

variable [DecidableEq K]

/-- Replace what a cell holds. -/
def setCell (s : Store P K C) (key : K) (content : Option C) : Store P K C :=
  { s with cells := Function.update s.cells key content }

@[simp]
theorem setCell_files (s : Store P K C) (key : K) (content : Option C) :
    (s.setCell key content).files = s.files := rfl

@[simp]
theorem setCell_cells_self (s : Store P K C) (key : K) (content : Option C) :
    (s.setCell key content).cells key = content := by
  simp [setCell]

end Cells

end Store

/-! ## Frames -/

/-- Two stores hold the same in the files of `Q` and the cells of `R`. -/
structure Agree (Q : P → Prop) (R : K → Prop) (s s' : Store P K C) : Prop where
  files : ∀ path, Q path → s'.files path = s.files path
  cells : ∀ key, R key → s'.cells key = s.cells key

theorem Agree.refl (Q : P → Prop) (R : K → Prop) (s : Store P K C) : Agree Q R s s :=
  ⟨fun _ _ => rfl, fun _ _ => rfl⟩

theorem Agree.trans {Q : P → Prop} {R : K → Prop} {s s' s'' : Store P K C} (h : Agree Q R s s')
    (h' : Agree Q R s' s'') : Agree Q R s s'' :=
  ⟨fun path hp => (h'.files path hp).trans (h.files path hp),
    fun key hk => (h'.cells key hk).trans (h.cells key hk)⟩

/-- An effect names no file of `Q` and no cell of `R`. -/
def Effect.Avoids (Q : P → Prop) (R : K → Prop) : Effect P K C E → Prop
  | .write path _ _ => ¬ Q path
  | .remove path => ¬ Q path
  | .set key _ => ¬ R key
  | .delete key => ¬ R key

theorem Store.agree_put [DecidableEq P] {Q : P → Prop} (R : K → Prop) (s : Store P K C)
    {path : P} (content : Option C) (h : ¬ Q path) : Agree Q R s (s.put path content) := by
  refine ⟨fun path' hp => ?_, fun _ _ => rfl⟩
  have hne : path' ≠ path := fun he => h (he ▸ hp)
  exact s.put_files_of_ne content hne

theorem Store.agree_setCell [DecidableEq K] (Q : P → Prop) {R : K → Prop} (s : Store P K C)
    {key : K} (content : Option C) (h : ¬ R key) : Agree Q R s (s.setCell key content) := by
  refine ⟨fun _ _ => rfl, fun key' hk => ?_⟩
  have hne : key' ≠ key := fun he => h (he ▸ hk)
  simp [setCell, hne]

/-! ## Running a program -/

variable [DecidableEq P] [DecidableEq K]

/-- What an effect does when nothing goes wrong. -/
def Effect.apply (s : Store P K C) : Effect P K C E → Store P K C
  | .write path content _ => s.put path (some content)
  | .remove path => s.put path none
  | .set key content => s.setCell key (some content)
  | .delete key => s.setCell key none

/-- Run a program under the given fates. -/
def execute (s : Store P K C) :
    List (Effect P K C E) → List (Fate C) → Store P K C × Ending E
  | [], _ => (s, .completed)
  | _ :: _, [] => (s, .crashed)
  | e :: es, .done :: fates => execute (e.apply s) es fates
  | .write path _ error :: _, .failed left :: _ => (s.put path left, .failed error)
  | .write path _ _ :: _, .crashed left :: _ => (s.put path left, .crashed)
  -- the caller of a removal does not learn that it failed
  | .remove path :: es, .failed left :: fates => execute (s.put path left) es fates
  | .remove path :: _, .crashed left :: _ => (s.put path left, .crashed)
  -- a cell changes at once or not at all
  | .set _ _ :: _, _ :: _ => (s, .crashed)
  | .delete _ :: _, _ :: _ => (s, .crashed)

theorem Effect.agree_apply {Q : P → Prop} {R : K → Prop} (s : Store P K C)
    {e : Effect P K C E} (h : e.Avoids Q R) : Agree Q R s (e.apply s) := by
  cases e with
  | write path content _ => exact s.agree_put R (some content) h
  | remove path => exact s.agree_put R none h
  | set key content => exact s.agree_setCell Q (some content) h
  | delete key => exact s.agree_setCell Q none h

/-- A program that runs through changes only what its effects name. -/
theorem agree_foldl_apply {Q : P → Prop} {R : K → Prop} {s : Store P K C}
    {es : List (Effect P K C E)} (hes : ∀ e ∈ es, e.Avoids Q R) :
    Agree Q R s (es.foldl (fun s e => e.apply s) s) := by
  induction es generalizing s with
  | nil => exact .refl Q R s
  | cons e es ih =>
    have he : e.Avoids Q R := hes e List.mem_cons_self
    have hrest : ∀ e ∈ es, e.Avoids Q R := fun e' h => hes e' (List.mem_cons_of_mem _ h)
    exact (Effect.agree_apply s he).trans (ih hrest)

/-- Whatever the fates, a program changes only what its effects name. -/
theorem execute_agree {Q : P → Prop} {R : K → Prop} {s : Store P K C}
    {es : List (Effect P K C E)} (hes : ∀ e ∈ es, e.Avoids Q R) (fates : List (Fate C)) :
    Agree Q R s (execute s es fates).1 := by
  induction es generalizing s fates with
  | nil => exact .refl Q R s
  | cons e es ih =>
    have he : e.Avoids Q R := hes e List.mem_cons_self
    have hrest : ∀ e ∈ es, e.Avoids Q R := fun e' h => hes e' (List.mem_cons_of_mem _ h)
    rcases fates with _ | ⟨fate, fates⟩
    · exact .refl Q R s
    cases fate with
    | done => exact (Effect.agree_apply s he).trans (ih hrest fates)
    | failed left =>
      cases e with
      | write path _ _ => exact s.agree_put R left he
      | remove path => exact (s.agree_put R left he).trans (ih hrest fates)
      | set _ _ => exact .refl Q R s
      | delete _ => exact .refl Q R s
    | crashed left =>
      cases e with
      | write path _ _ => exact s.agree_put R left he
      | remove path => exact s.agree_put R left he
      | set _ _ => exact .refl Q R s
      | delete _ => exact .refl Q R s

theorem Effect.isSome_apply {s : Store P K C} {e : Effect P K C E} {key : K}
    (he : e ≠ .delete key) (h : (s.cells key).isSome) : ((e.apply s).cells key).isSome := by
  rcases e with ⟨path, content, error⟩ | path | ⟨other, content⟩ | other
  · exact h
  · exact h
  · show (Function.update s.cells other (some content) key).isSome
    by_cases hkey : key = other
    · rw [hkey, Function.update_self]
      rfl
    · rwa [Function.update_of_ne hkey]
  · have hkey : key ≠ other := fun heq => he (heq ▸ rfl)
    show (Function.update s.cells other none key).isSome
    rwa [Function.update_of_ne hkey]

/-- Whatever the fates, a cell that no effect clears stays set. -/
theorem isSome_execute {s : Store P K C} {es : List (Effect P K C E)} {key : K}
    (hes : ∀ e ∈ es, e ≠ .delete key) (fates : List (Fate C)) (h : (s.cells key).isSome) :
    ((execute s es fates).1.cells key).isSome := by
  induction es generalizing s fates with
  | nil => exact h
  | cons e es ih =>
    have he : e ≠ .delete key := hes e List.mem_cons_self
    have hrest : ∀ e ∈ es, e ≠ .delete key := fun e' h => hes e' (List.mem_cons_of_mem _ h)
    rcases fates with _ | ⟨_ | left | left, fates⟩
    · exact h
    · exact ih hrest fates (Effect.isSome_apply he h)
    · rcases e with _ | path | _ | _
      · exact h
      · exact ih hrest fates h
      · exact h
      · exact h
    · rcases e with _ | _ | _ | _ <;> exact h

/-! ## Programs in pieces -/

/-- The second half of a program runs on what a completed first half left, and on the fates it
left; a first half that ended early ends the whole. -/
theorem execute_append (s : Store P K C) (es es' : List (Effect P K C E))
    (fates : List (Fate C)) :
    execute s (es ++ es') fates =
      match execute s es fates with
      | (s', .completed) => execute s' es' (fates.drop es.length)
      | ended => ended := by
  induction es generalizing s fates with
  | nil => simp [execute]
  | cons e es ih =>
    rcases fates with _ | ⟨fate, fates⟩
    · rfl
    cases fate with
    | done => exact ih (e.apply s) fates
    | failed left =>
      cases e with
      | remove path => exact ih (s.put path left) fates
      | _ => rfl
    | crashed left => cases e <;> rfl

/-- Effects whose failure the program notices. -/
def Effect.Noticed : Effect P K C E → Prop
  | .remove _ => False
  | _ => True

/-- A completed program of noticed effects did all of them. -/
theorem execute_completed {s : Store P K C} {es : List (Effect P K C E)}
    (hes : ∀ e ∈ es, e.Noticed) {fates : List (Fate C)}
    (h : (execute s es fates).2 = .completed) :
    (execute s es fates).1 = es.foldl (fun s e => e.apply s) s := by
  induction es generalizing s fates with
  | nil => rfl
  | cons e es ih =>
    have he : e.Noticed := hes e List.mem_cons_self
    have hrest : ∀ e ∈ es, e.Noticed := fun e' h => hes e' (List.mem_cons_of_mem _ h)
    rcases fates with _ | ⟨fate, fates⟩
    · cases h
    cases fate with
    | done => exact ih hrest h
    | failed left =>
      cases e with
      | remove _ => exact he.elim
      | _ => cases h
    | crashed left => cases e <;> cases h

/-- A completed program that sets a cell last leaves the cell so. -/
theorem cells_of_completed {s s' : Store P K C} {es : List (Effect P K C E)} {key : K} {content : C}
    {fates : List (Fate C)} (hes : ∀ e ∈ es, e.Noticed)
    (h : execute s (es ++ [.set key content]) fates = (s', .completed)) :
    s'.cells key = some content := by
  have hnoticed : ∀ e ∈ es ++ [(.set key content : Effect P K C E)], e.Noticed := by
    intro e he
    rcases List.mem_append.1 he with hbefore | hlast
    · exact hes e hbefore
    · obtain rfl := List.mem_singleton.1 hlast
      trivial
  have hdone := execute_completed hnoticed (congrArg Prod.snd h)
  rw [h] at hdone
  dsimp only at hdone
  rw [hdone, List.foldl_append]
  simp [Effect.apply]

/-- A program whose effects go unnoticed never reports a failure. -/
theorem execute_ne_failed {s : Store P K C} {es : List (Effect P K C E)}
    (hes : ∀ e ∈ es, ¬ e.Noticed) (fates : List (Fate C)) (error : E) :
    (execute s es fates).2 ≠ .failed error := by
  induction es generalizing s fates with
  | nil => simp [execute]
  | cons e es ih =>
    have he : ¬ e.Noticed := hes e List.mem_cons_self
    have hrest : ∀ e ∈ es, ¬ e.Noticed := fun e' h => hes e' (List.mem_cons_of_mem _ h)
    cases e with
    | remove path =>
      rcases fates with _ | ⟨fate, fates⟩
      · simp [execute]
      cases fate with
      | done => exact ih hrest fates
      | failed left => exact ih hrest fates
      | crashed left => simp [execute]
    | _ => exact absurd trivial he

end CrashStore
