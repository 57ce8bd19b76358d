import Polyvisor.Lib.Transition
import Mathlib.Data.List.Induction
import Mathlib.Data.Nat.Notation

/-!
# The store synchronisation loop

`sync_now`, `schedule_store_sync`, `sync_gated` and `sync_loop` of `kernel/src/drive.rs`. A pass is
one call of `sync_once`, which here begins, and ends with one of the answers it can give. A
request is a call of `sync_now` that is not refused, or a call of `schedule_store_sync` that
spawns a task; the task may be polled at any later time.

## Main results

* `followed_step`: a step leaves a request with nothing to wait for iff it is the end of a pass that
  fails after the request was folded into it.
* `requests_followed_iff`: throughout a run at most one pass is in progress and every request that
  no pass has followed yet has its task or another round of the loop to come, iff no pass fails
  after a request was folded into it.
* `request_lost`: a request that is.
-/

namespace Polyvisor.StoreSync

/-- `Trouble`. -/
inductive Trouble where
  | reauthorize
  | hiccup
  deriving DecidableEq, Repr

/-- How a pass can end. -/
inductive Outcome where
  /-- Not connected, or no group yet. -/
  | skipped
  | synced
  /-- The store could not be synchronised, which is no error of the pass. -/
  | troubled (trouble : Trouble)
  /-- There is no engine, or the checkpoint after an import failed. -/
  | failed
  deriving DecidableEq, Repr

/-- What is remembered of a run. -/
inductive Event where
  | request (r : ℕ)
  /-- A pass starts. -/
  | start
  deriving DecidableEq, Repr

/-- What the kernel knows of its synchronisation. -/
structure Kernel where
  isOpen : Bool := true
  /-- Whether there are tokens. -/
  bound : Bool := false
  trouble : Option Trouble := none
  running : Bool := false
  dirty : Bool := false
  /-- The spawned tasks that were not polled yet, by their request. -/
  tasks : List ℕ := []
  /-- The calls that are inside `sync_loop`, by their request. -/
  loops : List ℕ := []
  /-- The number of the next request. -/
  next : ℕ := 0
  /-- What has happened. No code reads it. -/
  log : List Event := []
  deriving DecidableEq, Repr

namespace Kernel

variable (k : Kernel)

/-- The head of the loop: a pass starts. -/
def start : Kernel :=
  { k with dirty := false, log := k.log ++ [.start] }

/-- `sync_gated`, until it waits. -/
def syncGated (r : ℕ) : Kernel :=
  if k.running then { k with dirty := true }
  else { k with running := true, loops := k.loops ++ [r] }.start

/-- `sync_now`, until it waits. -/
def syncNow : Kernel :=
  if !k.isOpen then k
  else
    { k with trouble := none, next := k.next + 1, log := k.log ++ [Event.request k.next] }.syncGated
      k.next

/-- `schedule_store_sync`. While a new authorization is needed nothing is scheduled. -/
def schedule : Kernel :=
  if !k.bound || decide (k.trouble = some .reauthorize) then k
  else
    { k with
      tasks := k.tasks ++ [k.next]
      next := k.next + 1
      log := k.log ++ [.request k.next] }

/-- The end of `sync_gated`: both flags go back to their defaults. -/
def leave (r : ℕ) : Kernel :=
  { k with running := false, dirty := false, loops := k.loops.erase r }

/-- `sync_once` answers, and the loop goes on. -/
def finish (r : ℕ) (outcome : Outcome) : Kernel :=
  match outcome with
  | .failed => k.leave r
  | .skipped => if k.dirty then k.start else k.leave r
  | .synced =>
    let k := { k with trouble := none }
    if k.dirty then k.start else k.leave r
  | .troubled trouble =>
    let k := { k with trouble := some trouble }
    if k.dirty then k.start else k.leave r

end Kernel

/-- What can happen next. -/
inductive Label where
  | syncNow
  | schedule
  /-- A spawned task is polled for the first time. -/
  | poll (r : ℕ)
  /-- The pass of a call ends. -/
  | finish (r : ℕ) (outcome : Outcome)
  /-- The device is opened or sealed. -/
  | gate (isOpen : Bool)
  /-- `oauth_complete` and `storage_disconnect`. -/
  | bind (bound : Bool)
  deriving DecidableEq, Repr

namespace Kernel

/-- One step. -/
def step (k : Kernel) : Label → Kernel
  | .syncNow => k.syncNow
  | .schedule => k.schedule
  | .poll r => if r ∈ k.tasks then { k with tasks := k.tasks.erase r }.syncGated r else k
  | .finish r outcome => if r ∈ k.loops then k.finish r outcome else k
  | .gate isOpen => { k with isOpen }
  | .bind bound => { k with bound, trouble := none }

end Kernel

/-- The requests that no pass has followed yet. -/
def unserved (log : List Event) : List ℕ :=
  log.foldl (fun waiting event =>
    match event with
    | .request r => waiting ++ [r]
    | .start => []) []

namespace Kernel

/-- At most one pass is in progress, and every request that no pass has followed yet has its task to
come, or another round of the loop. -/
structure Followed (k : Kernel) : Prop where
  single : k.loops.length ≤ 1
  awaited : ∀ r ∈ unserved k.log, r ∈ k.tasks ∨ k.running ∧ k.dirty

/-- No pass fails after a request that was made during it has been folded into it. -/
def Spares (k : Kernel) : Label → Prop
  | .finish r .failed => r ∈ k.loops → ∀ r' ∈ unserved k.log, r' ∈ k.tasks
  | _ => True

instance decidableSpares (k : Kernel) : (l : Label) → Decidable (k.Spares l)
  | .finish r .failed => inferInstanceAs (Decidable (r ∈ k.loops →
      ∀ r' ∈ unserved k.log, r' ∈ k.tasks))
  | .finish _ .skipped | .finish _ .synced | .finish _ (.troubled _) =>
    inferInstanceAs (Decidable True)
  | .syncNow | .schedule | .poll _ | .gate _ | .bind _ => inferInstanceAs (Decidable True)

end Kernel

/-! ## Requests and passes -/

theorem unserved_append_start (log : List Event) : unserved (log ++ [.start]) = [] := by
  simp [unserved]

theorem unserved_append_request (log : List Event) (r : ℕ) :
    unserved (log ++ [.request r]) = unserved log ++ [r] := by
  simp [unserved]

/-- A request is not followed by a pass if it is made, and nothing starts after it. -/
theorem mem_unserved {log : List Event} {r : ℕ} :
    r ∈ unserved log ↔ ∃ before after, log = before ++ .request r :: after ∧ .start ∉ after := by
  induction log using List.reverseRecOn with
  | nil => simp [unserved]
  | append_singleton log event ih =>
    cases event with
    | start =>
      rw [unserved_append_start]
      refine ⟨nofun, fun ⟨before, after, heq, hnot⟩ => ?_⟩
      -- the start is the last of what comes after the request
      cases after using List.reverseRecOn with
      | nil => exact nomatch List.singleton_inj.1 (List.append_inj_right' heq rfl)
      | append_singleton after last =>
        have hlast : last = .start := by
          rw [← List.cons_append, ← List.append_assoc] at heq
          exact (List.append_inj_right' heq rfl |> List.singleton_inj.1).symm
        exact absurd (List.mem_append_right _ (List.mem_singleton.2 hlast.symm)) hnot
    | request r' =>
      rw [unserved_append_request, List.mem_append, ih, List.mem_singleton]
      constructor
      · rintro (⟨before, after, rfl, hnot⟩ | rfl)
        · exact ⟨before, after ++ [.request r'], by simp, by simpa using hnot⟩
        · exact ⟨log, [], rfl, by simp⟩
      · rintro ⟨before, after, heq, hnot⟩
        cases after using List.reverseRecOn with
        | nil =>
          have hlast := List.singleton_inj.1 (List.append_inj_right' heq rfl)
          exact .inr (Event.request.inj hlast).symm
        | append_singleton after last =>
          rw [← List.cons_append, ← List.append_assoc] at heq
          refine .inl ⟨before, after, List.append_inj_left' heq rfl, fun h => hnot ?_⟩
          exact List.mem_append_left _ h

namespace Kernel

variable {k : Kernel}

/-- What every step keeps: the flag says whether a call is inside the loop. -/
structure Sound (k : Kernel) : Prop where
  single : k.loops.length ≤ 1
  running : k.running = true ↔ k.loops ≠ []

theorem sound_leave (h : k.Sound) {r : ℕ} (hr : r ∈ k.loops) : (k.leave r).Sound := by
  have hnil : k.loops.erase r = [] := by
    rw [← List.length_eq_zero_iff, List.length_erase_of_mem hr]
    have := h.single
    omega
  refine ⟨?_, ?_⟩
  · simp [leave, hnil]
  · simp [leave, hnil]

theorem sound_syncGated (h : k.Sound) (r : ℕ) : (k.syncGated r).Sound := by
  rw [syncGated]
  split
  next => exact ⟨h.single, h.running⟩
  next hidle =>
    have hnil : k.loops = [] := by
      by_contra hne
      exact hidle (h.running.2 hne)
    exact ⟨by simp [start, hnil], by simp [start]⟩

theorem sound_finish (h : k.Sound) {r : ℕ} (hr : r ∈ k.loops) (outcome : Outcome) :
    (k.finish r outcome).Sound := by
  cases outcome with
  | failed => exact sound_leave h hr
  | skipped =>
    rw [finish]
    split
    next => exact ⟨h.single, h.running⟩
    next => exact sound_leave h hr
  | synced =>
    simp only [finish]
    split
    next => exact ⟨h.single, h.running⟩
    next => exact sound_leave (k := { k with trouble := none }) ⟨h.single, h.running⟩ hr
  | troubled trouble =>
    simp only [finish]
    split
    next => exact ⟨h.single, h.running⟩
    next => exact sound_leave (k := { k with trouble := some trouble }) ⟨h.single, h.running⟩ hr

theorem sound_step (k : Kernel) (l : Label) (h : k.Sound) : (k.step l).Sound := by
  cases l with
  | syncNow =>
    rw [step, syncNow]
    split
    next => exact h
    next =>
      refine sound_syncGated ?_ k.next
      exact ⟨h.single, h.running⟩
  | schedule =>
    rw [step, schedule]
    split
    next => exact h
    next => exact ⟨h.single, h.running⟩
  | poll r =>
    have hpolled : Sound { k with tasks := k.tasks.erase r } := ⟨h.single, h.running⟩
    rw [step]
    split
    next => exact sound_syncGated hpolled r
    next => exact h
  | finish r outcome =>
    rw [step]
    split
    next hr => exact sound_finish h hr outcome
    next => exact h
  | gate => exact ⟨h.single, h.running⟩
  | bind => exact ⟨h.single, h.running⟩

/-- At the gate a request is folded into the pass in progress, or a pass starts. -/
theorem followed_syncGated (h : k.Sound) (r : ℕ) : (k.syncGated r).Followed := by
  refine ⟨(sound_syncGated h r).single, fun r' hr' => ?_⟩
  rw [syncGated] at hr' ⊢
  split
  next hrunning => exact .inr ⟨hrunning, rfl⟩
  next hidle =>
    rw [if_neg hidle, start, unserved_append_start] at hr'
    cases hr'

/-- A pass that does not fail is followed by another one if anything was folded into it. -/
theorem followed_round (h : k.Followed) (hs : k.Sound) {r : ℕ} (hr : r ∈ k.loops) :
    (if k.dirty then k.start else k.leave r).Followed := by
  split
  next =>
    refine ⟨hs.single, fun r' hr' => ?_⟩
    rw [start, unserved_append_start] at hr'
    cases hr'
  next hclean =>
    refine ⟨(sound_leave hs hr).single, fun r' hr' => ?_⟩
    exact .inl ((h.awaited r' hr').resolve_right fun hdirty => hclean hdirty.2)

/-- A step leaves a request with nothing to wait for iff it is the end of a pass that fails after
the request was folded into it. -/
theorem followed_step (k : Kernel) (l : Label) (hs : k.Sound) (h : k.Followed) :
    (k.step l).Followed ↔ k.Spares l := by
  have hround (trouble : Option Trouble) {r : ℕ} (hr : r ∈ k.loops) :
      (if k.dirty then { k with trouble }.start else { k with trouble }.leave r).Followed :=
    followed_round (k := { k with trouble }) ⟨h.single, h.awaited⟩ ⟨hs.single, hs.running⟩ hr
  cases l with
  | syncNow =>
    refine iff_of_true ?_ trivial
    rw [step, syncNow]
    split
    next => exact h
    next =>
      refine followed_syncGated ?_ k.next
      exact ⟨hs.single, hs.running⟩
  | schedule =>
    refine iff_of_true ?_ trivial
    rw [step, schedule]
    split
    next => exact h
    next =>
      refine ⟨h.single, fun r hr => ?_⟩
      rw [unserved_append_request] at hr
      rcases List.mem_append.1 hr with hr | hr
      · exact (h.awaited r hr).imp_left (List.mem_append_left _)
      · exact .inl (List.mem_append_right _ hr)
  | poll r =>
    have hpolled : Sound { k with tasks := k.tasks.erase r } := ⟨hs.single, hs.running⟩
    refine iff_of_true ?_ trivial
    rw [step]
    split
    next => exact followed_syncGated hpolled r
    next => exact h
  | finish r outcome =>
    rw [step]
    split
    next hr =>
      cases outcome with
      | failed =>
        constructor
        · intro hleft _ r' hr'
          exact (hleft.awaited r' hr').resolve_right fun hdirty => nomatch hdirty.1
        · exact fun hspares => ⟨(sound_leave hs hr).single, fun r' hr' => .inl (hspares hr r' hr')⟩
      | skipped => exact iff_of_true (hround k.trouble hr) trivial
      | synced => exact iff_of_true (hround none hr) trivial
      | troubled trouble => exact iff_of_true (hround (some trouble) hr) trivial
    next hr =>
      refine iff_of_true h ?_
      cases outcome with
      | failed => exact fun hmem => absurd hmem hr
      | skipped => trivial
      | synced => trivial
      | troubled => trivial
  | gate => exact iff_of_true ⟨h.single, h.awaited⟩ trivial
  | bind => exact iff_of_true ⟨h.single, h.awaited⟩ trivial

/-- When nothing is left to do, a pass has followed every request. -/
theorem unserved_eq_nil (hs : k.Sound) (h : k.Followed) (htasks : k.tasks = [])
    (hloops : k.loops = []) : unserved k.log = [] := by
  refine List.eq_nil_iff_forall_not_mem.2 fun r hr => ?_
  rcases h.awaited r hr with hmem | ⟨hrunning, -⟩
  · rw [htasks] at hmem
    cases hmem
  · exact hs.running.1 hrunning hloops

/-- Throughout a run at most one pass is in progress and every request that no pass has followed has
one to come, iff no pass fails after such a request has been folded into it. -/
theorem requests_followed_iff (isOpen bound : Bool) (ls : List Label) :
    Transition.Throughout step (fun k => k.Followed ∧
        (k.tasks = [] → k.loops = [] → unserved k.log = [])) { isOpen, bound } ls ↔
      Transition.Meets step Spares { isOpen, bound } ls := by
  have hsound : Sound { isOpen, bound } := ⟨by simp, by simp⟩
  have hfollowed : Followed { isOpen, bound } := ⟨by simp, by simp [unserved]⟩
  rw [← Transition.throughout_iff_meets sound_step followed_step ls hsound hfollowed]
  simp only [Transition.throughout_iff]
  refine forall₂_congr fun ms hms => and_iff_left_of_imp fun hfollowed htasks hloops => ?_
  exact unserved_eq_nil (Transition.run_preserves sound_step hsound ms) hfollowed htasks hloops

/-- The pass of one request is running when another is folded into it, and its checkpoint fails. -/
theorem request_lost :
    let k := Transition.run step { bound := true } [.syncNow, .syncNow, .finish 0 .failed]
    unserved k.log = [1] ∧ k.tasks = [] ∧ k.loops = [] ∧ k.running = false := by
  decide

end Kernel

end Polyvisor.StoreSync
