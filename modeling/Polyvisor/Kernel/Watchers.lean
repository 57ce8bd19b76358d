import Polyvisor.Lib.Transition
import Mathlib.Data.List.Basic

/-!
# Watches of documents

`wait_document_change` of `kernel/src/lib.rs` and whatever wakes it. A watch parks on the partition
its session is bound to, until the revision of the partition is another one. A change is waited for
by partition, and so it is woken for: by the call that made it, once the change is written down, and
by the pump of the engine's events, for every live session.

A step is what a call, a task or a watch does between two awaits. What a Drive pass, an invitation,
the adoption of an identity, the end of a sync or a restored device applies is one kind of step. It
advances a partition and wakes nobody.

## Main results

* `watch_woken`: in every run, a parked watch is on a session that lives, and its partition has not
  advanced, or a task is under way that wakes it, or nobody is told of the change; what is written
  down, reported or closed wakes its watches, and what fails wakes none; a session that ended
  refuses new watches and woken ones.
* `failed_unsaid`: a change that is not written down wakes nobody.
-/

namespace Polyvisor.Watchers

open Transition

/-- What the adoption of an identity binds anew. -/
def todomvc : String := "todomvc"

/-- Where a watch stands. -/
inductive WatchPc where
  /-- The first read. -/
  | reading
  /-- `poll_fn` is pending, and the waker is in `document_waiters`. -/
  | parked
  /-- The waker was taken, and is to be polled again. -/
  | woken
  /-- The read after the wait. -/
  | rereading
  | answered (revision : ℕ)
  | refused
  deriving DecidableEq, Repr

/-- `tasks_watch` or `history_watch`. -/
structure Watch where
  session : ℕ
  /-- The partition that the session was bound to. -/
  app : String
  after : ℕ
  pc : WatchPc
  deriving DecidableEq, Repr

/-- What else is under way. -/
inductive Task where
  | done
  /-- `document_mutate` or `document_publish`, up to the change. -/
  | writing (app : String)
  /-- The change is in the document, and is being published. -/
  | publishing (app : String)
  /-- The engine is being persisted. -/
  | saving (app : String)
  /-- The pump applies a tree that was reported, to the partitions it advances. -/
  | absorbing (advanced : List String)
  /-- The kernel persists the engine for `EngineEvent::Changed`. -/
  | notifying (advanced : List String)
  deriving DecidableEq, Repr

/-- Why nobody was told that a partition had advanced. No code reads it. -/
inductive Why where
  /-- A local change was not published, or the engine was not persisted. -/
  | unwritten
  /-- Applied by what wakes no partition by itself. -/
  | quiet
  deriving DecidableEq, Repr

structure Kernel where
  /-- Whether `erase` is over. -/
  erased : Bool := false
  sessions : List (ℕ × String) := []
  sessionDocuments : List (ℕ × String) := []
  nextSession : ℕ := 1
  /-- The revisions of the documents. -/
  revision : String → ℕ := fun _ => 0
  watches : List Watch := []
  tasks : List Task := []
  /-- The partitions that advanced since they were woken last, where nobody is to be told. -/
  unsaid : List (String × Why) := []
  /-- The bindings that were taken away and not woken for. -/
  left : List (ℕ × String) := []

namespace Kernel

variable (k : Kernel)

/-- `validate_session` expects it. -/
def bound (session : ℕ) : Option String :=
  (k.sessionDocuments.lookup session).or (k.sessions.lookup session)

/-- `app_engine`, as far as it names a partition. -/
def partition (session : ℕ) : Option String :=
  (k.sessions.lookup session).map ((k.sessionDocuments.lookup session).getD ·)

/-- What live sessions are bound to. -/
def bindings : List (ℕ × String) :=
  k.sessions.map fun (session : ℕ × String) =>
    (session.1, (k.sessionDocuments.lookup session.1).getD session.2)

/-- `wake_documents`. -/
def wakeDocuments (app : String) : Kernel :=
  { k with
    watches := k.watches.map fun w =>
      if w.pc = .parked ∧ w.app = app then { w with pc := .woken } else w
    unsaid := k.unsaid.filter (·.1 ≠ app) }

def wakeAll (apps : List String) : Kernel :=
  apps.foldl wakeDocuments k

def advance (app : String) (changes : ℕ) : Kernel :=
  { k with revision := Function.update k.revision app (k.revision app + changes) }

def goto (id : ℕ) (task : Task) : Kernel :=
  { k with tasks := k.tasks.set id task }

def answer (id : ℕ) (w : Watch) (pc : WatchPc) : Kernel :=
  { k with watches := k.watches.set id { w with pc } }

/-- A change comes to nothing that is written down. -/
def leave (app : String) (why : Why) : Kernel :=
  { k with unsaid := (app, why) :: k.unsaid }

/-- The poll of `wait_document_change`. -/
def poll (w : Watch) : WatchPc :=
  if k.bound w.session ≠ some w.app then .refused
  else if k.revision w.app ≠ w.after then .rereading
  else .parked

/-- A read of the document answers. -/
def read (w : Watch) : WatchPc :=
  match w.pc with
  | .reading =>
    if k.revision w.app = w.after then k.poll w
    else if k.bound w.session = some w.app then .answered (k.revision w.app)
    else .refused
  | .rereading =>
    if k.bound w.session = some w.app then .answered (k.revision w.app) else .refused
  | pc => pc

def unbind (session : ℕ) : Kernel :=
  { k with
    sessions := k.sessions.filter (·.1 ≠ session)
    sessionDocuments := k.sessionDocuments.filter (·.1 ≠ session) }

/-- `close`, and what `abort` does for a live session. -/
def close (session : ℕ) : Kernel :=
  match k.sessions.lookup session with
  | some app =>
    (k.unbind session).wakeDocuments ((k.sessionDocuments.lookup session).getD app)
  | none => k.unbind session

/-- The end of `launch_bound`, which does not look at the device again. -/
def launched (app : String) (partition : Option String) : Kernel :=
  { k with
    sessions := (k.nextSession, app) :: k.sessions
    sessionDocuments := partition.toList.map (k.nextSession, ·) ++ k.sessionDocuments
    nextSession := k.nextSession + 1 }

/-- The sessions that an adoption binds anew. -/
def rebound : List ℕ :=
  (k.sessions.filter (·.2 = todomvc)).map Prod.fst

/-- The adopted identity has a personal list of its own, and the sessions are bound to it. -/
def rebind (personal : String) : Kernel :=
  { k with
    sessionDocuments :=
      k.rebound.map (·, personal) ++ k.sessionDocuments.filter (·.1 ∉ k.rebound)
    left :=
      k.bindings.filter (fun binding => binding.1 ∈ k.rebound ∧ binding.2 ≠ personal) ++ k.left }

/-- `erase`, up to the removal of the device's files. -/
def erase : Kernel :=
  if k.erased then k
  else
    let apps := k.sessions.map Prod.snd
    { k with sessions := [], left := k.bindings ++ k.left }.wakeAll apps

/-- What a task does when its await answers. -/
def run (id : ℕ) (task : Task) (ok : Bool) (changes : ℕ) : Kernel :=
  match task with
  | .done => k
  | .writing app =>
    -- a document that did not open, or that is read-only, is not changed
    if ok then (k.advance app changes).goto id (.publishing app) else k.goto id .done
  | .publishing app =>
    if ok then k.goto id (.saving app) else (k.leave app .unwritten).goto id .done
  | .saving app =>
    if ok then (k.wakeDocuments app).goto id .done else (k.leave app .unwritten).goto id .done
  | .absorbing advanced => k.goto id (.notifying advanced)
  -- whatever the write answered
  | .notifying _ => (k.wakeAll (k.bindings.map Prod.snd)).goto id .done

end Kernel

/-- What can happen next. -/
inductive Label where
  | launched (app : String) (partition : Option String)
  | close (session : ℕ)
  | abort (session : ℕ)
  | watch (session after : ℕ)
  /-- A read of a watch answers. -/
  | read (watch : ℕ) (ok : Bool)
  /-- A woken watch is polled. -/
  | poll (watch : ℕ)
  /-- The call of a watch goes away. -/
  | drop (watch : ℕ)
  /-- A session changes its document, by any of its calls. -/
  | change (session : ℕ)
  | run (task : ℕ) (ok : Bool) (changes : ℕ)
  /-- The engine reports a tree. -/
  | reported
  /-- The tree advances a partition. -/
  | absorbed (task : ℕ) (app : String) (changes : ℕ)
  /-- A partition advances, and nobody is told. -/
  | quiet (app : String) (changes : ℕ)
  /-- A Drive pass imported something, and is over. -/
  | passed
  | rebind (personal : String)
  | erase
  /-- The device's files are gone. -/
  | erased
  deriving DecidableEq, Repr

namespace Kernel

/-- One step of the device. -/
def step (k : Kernel) : Label → Kernel
  | .launched app partition => k.launched app partition
  | .close session => k.close session
  | .abort session => if (k.sessions.lookup session).isSome then k.close session else k
  | .watch session after =>
    { k with
      watches := k.watches ++
        [match k.erased, k.partition session with
        | false, some app => { session, app, after, pc := .reading }
        | _, _ => { session, app := "", after, pc := .refused }] }
  | .read id ok =>
    match k.watches[id]? with
    | some w =>
      if w.pc = .reading ∨ w.pc = .rereading then
        k.answer id w (if ok then k.read w else .refused)
      else k
    | none => k
  | .poll id =>
    match k.watches[id]? with
    | some w => if w.pc = .woken then k.answer id w (k.poll w) else k
    | none => k
  | .drop id =>
    match k.watches[id]? with
    | some w => k.answer id w .refused
    | none => k
  | .change session =>
    match k.erased, k.partition session with
    | false, some app => { k with tasks := k.tasks ++ [.writing app] }
    | _, _ => k
  | .run id ok changes =>
    match k.tasks[id]? with
    | some task => k.run id task ok changes
    | none => k
  | .reported => { k with tasks := k.tasks ++ [.absorbing []] }
  | .absorbed id app changes =>
    match k.tasks[id]? with
    | some (.absorbing advanced) => (k.advance app changes).goto id (.absorbing (app :: advanced))
    | _ => k
  | .quiet app changes => (k.advance app changes).leave app .quiet
  | .passed => k.wakeAll (k.sessions.map Prod.snd)
  | .rebind personal => k.rebind personal
  | .erase => k.erase
  | .erased => { k with erased := true }

end Kernel

/-! ## Who is woken -/

/-- The partition is woken for when the task is over. -/
def Task.Owes (app : String) : Task → Prop
  | .publishing app' => app' = app
  | .saving app' => app' = app
  | .absorbing advanced => app ∈ advanced
  | .notifying advanced => app ∈ advanced
  | _ => False

namespace Kernel

/-- The partition has not advanced since, or it is to be woken for, or nobody is to be told. -/
def Told (k : Kernel) (w : Watch) : Prop :=
  k.revision w.app = w.after ∨ (∃ task ∈ k.tasks, task.Owes w.app) ∨ ∃ why, (w.app, why) ∈ k.unsaid

/-- A parked watch is on a live session, and told. -/
def Attended (k : Kernel) (w : Watch) : Prop :=
  k.bound w.session = some w.app ∧ k.Told w

/-- What every step keeps. -/
structure Inv (k : Kernel) : Prop where
  attended : ∀ w ∈ k.watches, w.pc = .parked → (w.session, w.app) ∈ k.left ∨ k.Attended w
  known : ∀ session app, k.bound session = some app → session < k.nextSession
  /-- A session that is bound to a document but no longer live was erased. -/
  orphan : ∀ session app, k.sessionDocuments.lookup session = some app →
    k.sessions.lookup session = none → (session, app) ∈ k.left

section Woken

variable {k k' : Kernel} {id : ℕ} {w : Watch} {app : String}

theorem mem_wakeDocuments_watches (h : w ∈ (k.wakeDocuments app).watches) (hpc : w.pc = .parked) :
    w ∈ k.watches ∧ w.app ≠ app := by
  obtain ⟨x, hx, rfl⟩ := List.mem_map.1 h
  split at hpc
  · cases hpc
  · next hne =>
    rw [if_neg hne]
    exact ⟨hx, fun happ => hne ⟨hpc, happ⟩⟩

@[simp]
theorem wakeAll_nil : k.wakeAll [] = k := rfl

@[simp]
theorem wakeAll_cons (apps : List String) :
    k.wakeAll (app :: apps) = (k.wakeDocuments app).wakeAll apps := rfl

/-- Waking changes which watches are parked, and what is left to be said. -/
theorem wakeAll_fields (apps : List String) : (k.wakeAll apps).sessions = k.sessions ∧
    (k.wakeAll apps).sessionDocuments = k.sessionDocuments ∧
    (k.wakeAll apps).nextSession = k.nextSession ∧ (k.wakeAll apps).revision = k.revision ∧
    (k.wakeAll apps).tasks = k.tasks ∧ (k.wakeAll apps).left = k.left := by
  induction apps generalizing k with
  | nil => exact ⟨rfl, rfl, rfl, rfl, rfl, rfl⟩
  | cons app apps ih => exact ih

theorem mem_wakeAll_watches (apps : List String) (h : w ∈ (k.wakeAll apps).watches)
    (hpc : w.pc = .parked) : w ∈ k.watches ∧ w.app ∉ apps := by
  induction apps generalizing k with
  | nil => exact ⟨h, List.not_mem_nil⟩
  | cons app apps ih =>
    obtain ⟨hmem, hnot⟩ := ih h
    obtain ⟨hwatch, hne⟩ := mem_wakeDocuments_watches hmem hpc
    exact ⟨hwatch, List.not_mem_cons_of_ne_of_not_mem hne hnot⟩

theorem mem_wakeAll_unsaid {why : Why} (apps : List String) (h : (app, why) ∈ k.unsaid)
    (hnot : app ∉ apps) : (app, why) ∈ (k.wakeAll apps).unsaid := by
  induction apps generalizing k with
  | nil => exact h
  | cons app' apps ih =>
    obtain ⟨hne, hnot⟩ := List.ne_and_not_mem_of_not_mem_cons hnot
    exact ih (List.mem_filter.2 ⟨h, by simpa using hne⟩) hnot

/-- What is told stays told, as long as the partition does not advance. -/
theorem Told.mono (h : k.Told w) (hrevision : k'.revision w.app = k.revision w.app)
    (htasks : ∀ task ∈ k.tasks, task.Owes w.app → ∃ task' ∈ k'.tasks, task'.Owes w.app)
    (hunsaid : ∀ why, (w.app, why) ∈ k.unsaid → (w.app, why) ∈ k'.unsaid) : k'.Told w := by
  obtain hsame | ⟨task, htask, howes⟩ | ⟨why, hwhy⟩ := h
  · exact .inl (hrevision.trans hsame)
  · exact .inr (.inl (htasks task htask howes))
  · exact .inr (.inr ⟨why, hunsaid why hwhy⟩)

theorem Inv.mono (h : Inv k) (hsessions : k'.sessions = k.sessions)
    (hdocuments : k'.sessionDocuments = k.sessionDocuments) (hnext : k'.nextSession = k.nextSession)
    (hleft : k'.left = k.left)
    (hwatches : ∀ w ∈ k'.watches, w.pc = .parked → (w ∈ k.watches ∧ (k.Told w → k'.Told w)) ∨
      k'.Attended w) : Inv k' := by
  have hbound : ∀ session, k'.bound session = k.bound session := by
    intro session
    rw [bound, bound, hsessions, hdocuments]
  refine ⟨fun w hw hpc => ?_, fun session app hs => ?_, ?_⟩
  · obtain ⟨hold, htold⟩ | hattended := hwatches w hw hpc
    · rw [hleft]
      refine (h.attended w hold hpc).imp_right fun hattended => ?_
      exact ⟨(hbound w.session).trans hattended.1, htold hattended.2⟩
    · exact .inr hattended
  · rw [hnext]
    exact h.known session app ((hbound session).symm.trans hs)
  · rw [hdocuments, hsessions, hleft]
    exact h.orphan

/-- Waking some partitions leaves the watches of the others parked, and told. -/
theorem Inv.wakeAll (h : Inv k) (apps : List String) : Inv (k.wakeAll apps) := by
  obtain ⟨hsessions, hdocuments, hnext, hrevision, htasks, hleft⟩ := wakeAll_fields (k := k) apps
  refine h.mono hsessions hdocuments hnext hleft fun w hw hpc => ?_
  obtain ⟨hold, hnot⟩ := mem_wakeAll_watches apps hw hpc
  refine .inl ⟨hold, fun htold => htold.mono (by rw [hrevision]) ?_ fun why hwhy => ?_⟩
  · rw [htasks]
    exact fun task htask howes => ⟨task, htask, howes⟩
  · exact mem_wakeAll_unsaid apps hwhy hnot

theorem Inv.wakeDocuments (h : Inv k) (app : String) : Inv (k.wakeDocuments app) :=
  h.wakeAll [app]

/-- A task goes on, and owes what it did but for the partitions that are told otherwise. -/
theorem Inv.goto (h : Inv k) {task task' : Task} (hid : k.tasks[id]? = some task)
    (howes : ∀ w ∈ k.watches, w.pc = .parked → task.Owes w.app → (w.session, w.app) ∉ k.left →
      task'.Owes w.app ∨ (∃ why, (w.app, why) ∈ k.unsaid)) : Inv (k.goto id task') := by
  refine ⟨fun w hw hpc => ?_, h.known, h.orphan⟩
  by_cases hleft : (w.session, w.app) ∈ k.left
  · exact .inl hleft
  obtain ⟨hbound, htold⟩ := (h.attended w hw hpc).resolve_left hleft
  refine .inr ⟨hbound, ?_⟩
  have hlt : id < k.tasks.length := (List.getElem?_eq_some_iff.1 hid).1
  obtain hsame | ⟨x, hx, hxowes⟩ | hunsaid := htold
  · exact .inl hsame
  · obtain ⟨i, hi⟩ := List.getElem?_of_mem hx
    by_cases hne : i = id
    · subst hne
      obtain rfl := Option.some.inj (hid.symm.trans hi)
      obtain howes' | hunsaid := howes w hw hpc hxowes hleft
      · exact .inr (.inl ⟨task', List.mem_set hlt task', howes'⟩)
      · exact .inr (.inr hunsaid)
    · refine .inr (.inl ⟨x, ?_, hxowes⟩)
      refine List.mem_of_getElem? (i := i) ?_
      rw [Kernel.goto, List.getElem?_set_ne (Ne.symm hne)]
      exact hi
  · exact .inr (.inr hunsaid)

theorem Inv.spawn (h : Inv k) (task : Task) : Inv { k with tasks := k.tasks ++ [task] } := by
  refine h.mono rfl rfl rfl rfl fun w hw _ => .inl ⟨hw, fun htold => ?_⟩
  refine htold.mono rfl (fun task htask howes => ?_) fun _ hwhy => hwhy
  exact ⟨task, List.mem_append_left _ htask, howes⟩

theorem Inv.leave (h : Inv k) (app : String) (why : Why) : Inv (k.leave app why) := by
  refine h.mono rfl rfl rfl rfl fun w hw _ => .inl ⟨hw, fun htold => htold.mono rfl ?_ fun _ => ?_⟩
  · exact fun task htask howes => ⟨task, htask, howes⟩
  · exact List.mem_cons_of_mem _

/-- A partition advances by a task that is to wake it afterwards. -/
theorem Inv.advance (h : Inv k) {task task' : Task} (hid : k.tasks[id]? = some task) (app : String)
    (changes : ℕ) (howes : ∀ app', task.Owes app' → task'.Owes app') (happ : task'.Owes app) :
    Inv ((k.advance app changes).goto id task') := by
  have hlt : id < k.tasks.length := (List.getElem?_eq_some_iff.1 hid).1
  have hmem : task' ∈ k.tasks.set id task' := List.mem_set hlt task'
  refine h.mono rfl rfl rfl rfl fun w hw _ => .inl ⟨hw, fun htold => ?_⟩
  by_cases heq : w.app = app
  · exact .inr (.inl ⟨task', hmem, heq ▸ happ⟩)
  · refine htold.mono (Function.update_of_ne heq _ _) (fun x hx hxowes => ?_) fun _ hwhy => hwhy
    obtain ⟨i, hi⟩ := List.getElem?_of_mem hx
    by_cases hne : i = id
    · subst hne
      obtain rfl := Option.some.inj (hid.symm.trans hi)
      exact ⟨task', hmem, howes w.app hxowes⟩
    · refine ⟨x, List.mem_of_getElem? (i := i) ?_, hxowes⟩
      rw [Kernel.goto, List.getElem?_set_ne (Ne.symm hne)]
      exact hi

theorem Inv.quiet (h : Inv k) (app : String) (changes : ℕ) :
    Inv ((k.advance app changes).leave app .quiet) := by
  refine h.mono rfl rfl rfl rfl fun w hw _ => .inl ⟨hw, fun htold => ?_⟩
  by_cases heq : w.app = app
  · exact .inr (.inr ⟨.quiet, heq ▸ List.mem_cons_self⟩)
  · refine htold.mono (Function.update_of_ne heq _ _) ?_ fun _ => List.mem_cons_of_mem _
    exact fun task htask howes => ⟨task, htask, howes⟩

/-- A watch parks only where its session lives and its partition has not advanced. -/
theorem poll_eq_parked (h : k.poll w = .parked) : k.Attended w := by
  unfold poll at h
  split at h
  · cases h
  · next hbound =>
    split at h
    · cases h
    · next hrevision => exact ⟨not_ne_iff.1 hbound, .inl (not_ne_iff.1 hrevision)⟩

theorem read_eq_parked (h : k.read w = .parked) : w.pc = .parked ∨ k.Attended w := by
  unfold Kernel.read at h
  split at h
  · split at h
    · exact .inr (poll_eq_parked h)
    · split at h <;> cases h
  · split at h <;> cases h
  · exact .inl h

theorem Inv.answer (h : Inv k) {pc : WatchPc} (hpc : pc = .parked → k.Attended w) :
    Inv (k.answer id w pc) := by
  refine h.mono rfl rfl rfl rfl fun x hx hparked => ?_
  obtain hold | rfl := List.mem_or_eq_of_mem_set hx
  · exact .inl ⟨hold, fun htold => htold⟩
  · exact .inr (hpc hparked)

end Woken

end Kernel

/-! ## Sessions come and go -/

namespace Kernel

section Sessions

variable {k : Kernel} {session : ℕ} {app : String}

theorem lookup_filter_of_pos {l : List (ℕ × String)} {p : ℕ → Bool} {s : ℕ} (hs : p s) :
    (l.filter fun entry => p entry.1).lookup s = l.lookup s := by
  induction l with
  | nil => rfl
  | cons entry l ih =>
    obtain ⟨s', app⟩ := entry
    by_cases h : p s'
    · rw [List.filter_cons_of_pos (by simpa using h), List.lookup_cons, List.lookup_cons, ih]
    · have hne : s ≠ s' := by
        rintro rfl
        exact h hs
      rw [List.filter_cons_of_neg (by simpa using h), ih, List.lookup_cons,
        beq_eq_false_iff_ne.2 hne]

theorem lookup_filter_ne {l : List (ℕ × String)} {s s' : ℕ} (hne : s ≠ s') :
    (l.filter (·.1 ≠ s')).lookup s = l.lookup s := by
  have hpos : decide (s ≠ s') = true := by simpa using hne
  exact lookup_filter_of_pos (p := fun s => decide (s ≠ s')) hpos

theorem lookup_map_pair (l : List ℕ) (app : String) (s : ℕ) :
    (l.map (·, app)).lookup s = if s ∈ l then some app else none := by
  induction l with
  | nil => rfl
  | cons s' l ih =>
    rw [List.map_cons, List.lookup_cons, ih]
    by_cases h : s = s'
    · simp [h]
    · simp [h, beq_eq_false_iff_ne.2 h]

theorem lookup_filter_self {l : List (ℕ × String)} {s : ℕ} :
    (l.filter (·.1 ≠ s)).lookup s = none := by
  rw [List.lookup_eq_none_iff]
  intro entry hentry
  have hne : entry.1 ≠ s := by simpa using (List.mem_filter.1 hentry).2
  exact bne_iff_ne.2 (Ne.symm hne)

theorem mem_bindings_of_bound (hlive : (k.sessions.lookup session).isSome)
    (hbound : k.bound session = some app) : (session, app) ∈ k.bindings := by
  obtain ⟨app', happ'⟩ := Option.isSome_iff_exists.1 hlive
  have hmem : (session, app') ∈ k.sessions := by
    obtain ⟨l₁, l₂, heq, -⟩ := List.lookup_eq_some_iff.1 happ'
    rw [heq]
    exact List.mem_append_right _ List.mem_cons_self
  refine List.mem_map.2 ⟨_, hmem, ?_⟩
  rw [bound, happ'] at hbound
  cases hdocument : k.sessionDocuments.lookup session with
  | none =>
    rw [hdocument] at hbound
    exact congrArg _ (Option.some.inj hbound)
  | some partition =>
    rw [hdocument] at hbound
    exact congrArg _ (Option.some.inj hbound)

theorem bound_unbind {s : ℕ} (hne : s ≠ session) : (k.unbind session).bound s = k.bound s := by
  rw [bound, bound]
  dsimp only [unbind]
  rw [lookup_filter_ne hne, lookup_filter_ne hne]

theorem bound_unbind_self : (k.unbind session).bound session = none := by
  rw [bound]
  dsimp only [unbind]
  rw [lookup_filter_self, lookup_filter_self]
  rfl

/-- Of the watches of a session that ends those are attended no more that are parked on the
partition it was bound to, if it was live. -/
theorem Inv.unbind (h : Inv k) (hparked : ∀ w ∈ k.watches, w.pc = .parked → w.session = session →
    k.bound session = some w.app → k.sessions.lookup session = none) : Inv (k.unbind session) where
  attended w hw hpc := by
    by_cases hleft : (w.session, w.app) ∈ k.left
    · exact .inl hleft
    obtain ⟨hbound, htold⟩ := (h.attended w hw hpc).resolve_left hleft
    by_cases hne : w.session = session
    · have hnone := hparked w hw hpc hne (hne ▸ hbound)
      rw [← hne] at hnone
      rw [bound, hnone, Option.or_none] at hbound
      exact .inl (h.orphan w.session w.app hbound hnone)
    · exact .inr ⟨(bound_unbind hne).trans hbound, htold⟩
  known s app hs := by
    by_cases hne : s = session
    · rw [hne, bound_unbind_self] at hs
      cases hs
    · exact h.known s app (bound_unbind hne ▸ hs)
  orphan s app hdocument hsession := by
    dsimp only [Kernel.unbind] at hdocument hsession
    by_cases hne : s = session
    · rw [hne, lookup_filter_self] at hdocument
      cases hdocument
    · rw [lookup_filter_ne hne] at hdocument hsession
      exact h.orphan s app hdocument hsession

theorem bound_of_lookup (happ : k.sessions.lookup session = some app) :
    k.bound session = some ((k.sessionDocuments.lookup session).getD app) := by
  rw [bound, happ]
  cases k.sessionDocuments.lookup session <;> rfl

/-- A session that ends is woken for. What was bound but not live was left out before. -/
theorem Inv.close (h : Inv k) (session : ℕ) : Inv (k.close session) := by
  unfold Kernel.close
  split
  · next app happ =>
    -- the order of the two does not matter
    have hwoken := h.wakeDocuments ((k.sessionDocuments.lookup session).getD app)
    apply hwoken.unbind
    intro w hw hpc hsession hbound
    obtain ⟨-, hnot⟩ := mem_wakeDocuments_watches hw hpc
    exact absurd (Option.some.inj (hbound.symm.trans (bound_of_lookup happ))) hnot
  · next hnone => exact h.unbind fun _ _ _ _ _ => hnone

theorem bound_launched {s : ℕ} (hne : s ≠ k.nextSession) (app : String)
    (partition : Option String) : (k.launched app partition).bound s = k.bound s := by
  have hbeq : (s == k.nextSession) = false := beq_eq_false_iff_ne.2 hne
  cases partition <;> simp [launched, bound, List.lookup_cons, hbeq]

theorem Inv.launched (h : Inv k) (app : String) (partition : Option String) :
    Inv (k.launched app partition) := by
  have hsame : ∀ {s app'}, k.bound s = some app' →
      (k.launched app partition).bound s = some app' := by
    intro s app' hs
    rw [bound_launched (Nat.ne_of_lt (h.known s app' hs)), hs]
  refine ⟨fun w hw hpc => ?_, fun s app' hs => ?_, fun s app' hdocument hsession => ?_⟩
  · exact (h.attended w hw hpc).imp_right fun hattended => ⟨hsame hattended.1, hattended.2⟩
  · by_cases hne : s = k.nextSession
    · rw [hne]
      exact Nat.lt_succ_self _
    · rw [bound_launched hne] at hs
      exact Nat.lt_succ_of_lt (h.known s app' hs)
  · have hne : s ≠ k.nextSession := by
      rintro rfl
      simp [Kernel.launched] at hsession
    have hbeq : (s == k.nextSession) = false := beq_eq_false_iff_ne.2 hne
    rw [Kernel.launched] at hdocument hsession
    dsimp only at hdocument hsession
    rw [List.lookup_cons, hbeq] at hsession
    refine h.orphan s app' ?_ hsession
    cases partition with
    | none => exact hdocument
    | some p =>
      rw [Option.toList_some, List.map_singleton, List.singleton_append, List.lookup_cons,
        hbeq] at hdocument
      exact hdocument

theorem lookup_of_mem_rebound {s : ℕ} (hs : s ∈ k.rebound) : (k.sessions.lookup s).isSome := by
  obtain ⟨entry, hentry, rfl⟩ := List.mem_map.1 hs
  rw [Option.isSome_iff_ne_none]
  intro hnone
  have hne := List.lookup_eq_none_iff.1 hnone entry (List.mem_filter.1 hentry).1
  exact absurd rfl (bne_iff_ne.1 hne)

theorem lookup_rebind (personal : String) (s : ℕ) :
    (k.rebind personal).sessionDocuments.lookup s =
      if s ∈ k.rebound then some personal else k.sessionDocuments.lookup s := by
  dsimp only [Kernel.rebind]
  rw [List.lookup_append, lookup_map_pair]
  split
  · rfl
  · next hs =>
    have hpos : decide (s ∉ k.rebound) = true := by simpa using hs
    exact lookup_filter_of_pos (p := fun s => decide (s ∉ k.rebound)) hpos

theorem bound_rebind {personal : String} {s : ℕ} (hs : s ∉ k.rebound) :
    (k.rebind personal).bound s = k.bound s := by
  rw [bound, lookup_rebind, if_neg hs]
  rfl

/-- The sessions that are bound anew leave their bindings behind. -/
theorem Inv.rebind (h : Inv k) (personal : String) : Inv (k.rebind personal) := by
  have hbound : ∀ s ∈ k.rebound, (k.rebind personal).bound s = some personal := by
    intro s hs
    rw [bound, lookup_rebind, if_pos hs]
    rfl
  refine ⟨fun w hw hpc => ?_, fun s app hs => ?_, fun s app hs hnone => ?_⟩
  · obtain hleft | ⟨hold, htold⟩ := h.attended w hw hpc
    · exact .inl (List.mem_append_right _ hleft)
    by_cases hs : w.session ∈ k.rebound
    · by_cases heq : w.app = personal
      · exact .inr ⟨by rw [hbound _ hs, heq], htold⟩
      · refine .inl (List.mem_append_left _ (List.mem_filter.2 ⟨?_, ?_⟩))
        · exact mem_bindings_of_bound (lookup_of_mem_rebound hs) hold
        · simpa [heq] using hs
    · exact .inr ⟨(bound_rebind hs).trans hold, htold⟩
  · by_cases hmem : s ∈ k.rebound
    · obtain ⟨app', happ'⟩ := Option.isSome_iff_exists.1 (lookup_of_mem_rebound hmem)
      exact h.known s _ (bound_of_lookup happ')
    · exact h.known s app ((bound_rebind hmem).symm.trans hs)
  · have hmem : s ∉ k.rebound := by
      intro hmem
      have hsome := lookup_of_mem_rebound hmem
      rw [show k.sessions.lookup s = none from hnone] at hsome
      cases hsome
    rw [lookup_rebind, if_neg hmem] at hs
    exact List.mem_append_right _ (h.orphan s app hs hnone)

theorem Inv.erase (h : Inv k) : Inv k.erase := by
  unfold Kernel.erase
  split
  · exact h
  · refine Inv.wakeAll ?_ _
    refine ⟨fun w hw hpc => ?_, fun s app hs => ?_, fun s app hs _ => ?_⟩
    · obtain hleft | ⟨hold, htold⟩ := h.attended w hw hpc
      · exact .inl (List.mem_append_right _ hleft)
      · refine .inl ?_
        by_cases hlive : (k.sessions.lookup w.session).isSome
        · exact List.mem_append_left _ (mem_bindings_of_bound hlive hold)
        · have hnone := Option.not_isSome_iff_eq_none.1 hlive
          rw [bound, hnone, Option.or_none] at hold
          exact List.mem_append_right _ (h.orphan w.session w.app hold hnone)
    · have hdocument : k.sessionDocuments.lookup s = some app := by
        simpa [bound] using hs
      refine h.known s app ?_
      rw [bound, hdocument]
      rfl
    · have hdocument : k.sessionDocuments.lookup s = some app := hs
      by_cases hlive : (k.sessions.lookup s).isSome
      · refine List.mem_append_left _ (mem_bindings_of_bound hlive ?_)
        rw [bound, hdocument]
        rfl
      · have hnone := Option.not_isSome_iff_eq_none.1 hlive
        exact List.mem_append_right _ (h.orphan s app hdocument hnone)

/-- The pump wakes whatever it applied for. -/
theorem Inv.notify (h : Inv k) {id : ℕ} {advanced : List String}
    (hid : k.tasks[id]? = some (.notifying advanced)) :
    Inv ((k.wakeAll (k.bindings.map Prod.snd)).goto id .done) := by
  obtain ⟨hsessions, hdocuments, -, -, htasks, hleft⟩ :=
    wakeAll_fields (k := k) (k.bindings.map Prod.snd)
  refine (h.wakeAll (k.bindings.map Prod.snd)).goto (by rw [htasks, hid]) ?_
  intro w hw hpc _ hnotleft
  obtain ⟨hold, hnot⟩ := mem_wakeAll_watches _ hw hpc
  rw [hleft] at hnotleft
  obtain ⟨hbound, -⟩ := (h.attended w hold hpc).resolve_left hnotleft
  by_cases hlive : (k.sessions.lookup w.session).isSome
  · -- a live session's partition is among those that are woken
    exact absurd (List.mem_map.2 ⟨_, mem_bindings_of_bound hlive hbound, rfl⟩) hnot
  · have hnone := Option.not_isSome_iff_eq_none.1 hlive
    rw [bound, hnone, Option.or_none] at hbound
    exact absurd (h.orphan w.session w.app hbound hnone) hnotleft

theorem Inv.run (h : Inv k) {id : ℕ} {task : Task} (hid : k.tasks[id]? = some task) (ok : Bool)
    (changes : ℕ) : Inv (k.run id task ok changes) := by
  cases task with
  | done => exact h
  | writing app =>
    rw [Kernel.run]
    split
    · exact h.advance hid app changes (fun _ => False.elim) rfl
    · exact h.goto hid fun w _ _ howes _ => howes.elim
  | publishing app =>
    rw [Kernel.run]
    split
    · exact h.goto hid fun w _ _ howes _ => .inl howes
    · refine (h.leave app .unwritten).goto hid fun w _ _ howes _ => .inr ⟨.unwritten, ?_⟩
      have happ : app = w.app := howes
      exact happ ▸ List.mem_cons_self
  | saving app =>
    rw [Kernel.run]
    split
    · refine (h.wakeDocuments app).goto hid fun w hw hpc howes _ => ?_
      have happ : app = w.app := howes
      exact absurd happ.symm (mem_wakeDocuments_watches hw hpc).2
    · refine (h.leave app .unwritten).goto hid fun w _ _ howes _ => .inr ⟨.unwritten, ?_⟩
      have happ : app = w.app := howes
      exact happ ▸ List.mem_cons_self
  | absorbing advanced => exact h.goto hid fun w _ _ howes _ => .inl howes
  | notifying advanced => exact h.notify hid

theorem inv_step (k : Kernel) (l : Label) (h : Inv k) : Inv (k.step l) := by
  cases l with
  | launched app partition => exact h.launched app partition
  | close session => exact h.close session
  | abort session =>
    rw [Kernel.step]
    split
    · exact h.close session
    · exact h
  | watch session after =>
    refine h.mono rfl rfl rfl rfl fun w hw hpc => ?_
    obtain hold | hnew := List.mem_append.1 hw
    · exact .inl ⟨hold, fun htold => htold⟩
    · -- a watch is read first
      rw [List.mem_singleton] at hnew
      rw [hnew] at hpc
      split at hpc <;> cases hpc
  | read id ok =>
    rw [Kernel.step]
    split
    · next w hid =>
      split
      · next hreading =>
        refine h.answer fun hparked => ?_
        split at hparked
        · refine (read_eq_parked hparked).resolve_left fun hpc => ?_
          rw [hpc] at hreading
          obtain hreading | hreading := hreading <;> cases hreading
        · cases hparked
      · exact h
    · exact h
  | poll id =>
    rw [Kernel.step]
    split
    · split
      · exact h.answer poll_eq_parked
      · exact h
    · exact h
  | drop id =>
    rw [Kernel.step]
    split
    · exact h.answer nofun
    · exact h
  | change session =>
    rw [Kernel.step]
    split
    · exact h.spawn _
    · exact h
  | run id ok changes =>
    rw [Kernel.step]
    split
    · next task hid => exact h.run hid ok changes
    · exact h
  | reported => exact h.spawn _
  | absorbed id app changes =>
    rw [Kernel.step]
    split
    · next advanced hid =>
      exact h.advance hid app changes (fun _ => List.mem_cons_of_mem _) List.mem_cons_self
    · exact h
  | quiet app changes => exact h.quiet app changes
  | passed => exact h.wakeAll _
  | rebind personal => exact h.rebind personal
  | erase => exact h.erase
  | erased => exact ⟨h.attended, h.known, h.orphan⟩

/-! ## A session that ended -/

/-- A session that was there, and is bound to nothing. -/
def Ended (k : Kernel) (session : ℕ) : Prop :=
  session < k.nextSession ∧ k.bound session = none

theorem Ended.lookup (h : k.Ended session) : k.sessions.lookup session = none :=
  (Option.or_eq_none_iff.1 h.2).2

theorem Ended.of_eq {k' : Kernel} (h : k.Ended session) (hsessions : k'.sessions = k.sessions)
    (hdocuments : k'.sessionDocuments = k.sessionDocuments)
    (hnext : k'.nextSession = k.nextSession) : k'.Ended session := by
  rw [Ended, bound, hsessions, hdocuments, hnext]
  exact h

theorem Ended.wakeAll (h : k.Ended session) (apps : List String) :
    (k.wakeAll apps).Ended session := by
  obtain ⟨hsessions, hdocuments, hnext, -⟩ := wakeAll_fields (k := k) apps
  exact h.of_eq hsessions hdocuments hnext

theorem Ended.close (h : k.Ended session) (session' : ℕ) : (k.close session').Ended session := by
  have hunbind : (k.unbind session').Ended session := by
    refine ⟨h.1, ?_⟩
    by_cases hne : session = session'
    · rw [hne, bound_unbind_self]
    · rw [bound_unbind hne, h.2]
  unfold Kernel.close
  split
  · exact hunbind.wakeAll [_]
  · exact hunbind

theorem Ended.run (h : k.Ended session) (id : ℕ) (task : Task) (ok : Bool) (changes : ℕ) :
    (k.run id task ok changes).Ended session := by
  unfold Kernel.run
  split
  · exact h
  · split <;> exact h
  · split <;> exact h
  · next app =>
    split
    · exact h.wakeAll [app]
    · exact h
  · exact h
  · exact h.wakeAll _

theorem Ended.step (h : k.Ended session) (l : Label) : (k.step l).Ended session := by
  cases l with
  | launched app partition =>
    refine ⟨Nat.lt_succ_of_lt h.1, ?_⟩
    rw [Kernel.step, bound_launched (Nat.ne_of_lt h.1), h.2]
  | close session' => exact h.close session'
  | abort session' =>
    rw [Kernel.step]
    split
    · exact h.close session'
    · exact h
  | watch session' after => exact h
  | read id ok =>
    rw [Kernel.step]
    split
    · split <;> exact h
    · exact h
  | poll id =>
    rw [Kernel.step]
    split
    · split <;> exact h
    · exact h
  | drop id =>
    rw [Kernel.step]
    split <;> exact h
  | change session' =>
    rw [Kernel.step]
    split <;> exact h
  | run id ok changes =>
    rw [Kernel.step]
    split
    · exact h.run id _ ok changes
    · exact h
  | reported => exact h
  | absorbed id app changes =>
    rw [Kernel.step]
    split <;> exact h
  | quiet app changes => exact h
  | passed => exact h.wakeAll _
  | rebind personal =>
    refine ⟨h.1, ?_⟩
    rw [Kernel.step, bound_rebind, h.2]
    intro hmem
    have hsome := lookup_of_mem_rebound hmem
    rw [h.lookup] at hsome
    cases hsome
  | erase =>
    rw [Kernel.step, erase]
    split
    · exact h
    · have hcleared : Ended { k with sessions := [], left := k.bindings ++ k.left } session := by
        refine ⟨h.1, ?_⟩
        have hnone := (Option.or_eq_none_iff.1 h.2).1
        rw [bound]
        dsimp only
        rw [hnone]
        rfl
      exact hcleared.wakeAll _
  | erased => exact h

theorem close_ended (hinv : Inv k) (hlive : (k.sessions.lookup session).isSome) :
    (k.close session).Ended session := by
  obtain ⟨app, happ⟩ := Option.isSome_iff_exists.1 hlive
  have hknown := hinv.known session _ (bound_of_lookup happ)
  have hunbind : (k.unbind session).Ended session := ⟨hknown, bound_unbind_self⟩
  unfold Kernel.close
  rw [happ]
  exact hunbind.wakeAll [_]

/-- A session refuses every watch: a new one, one that was woken, and one that reads. -/
structure Refuses (k : Kernel) (session : ℕ) : Prop where
  new : ∀ after, ∃ w, (k.step (.watch session after)).watches = k.watches ++ [w] ∧ w.pc = .refused
  woken : ∀ (id : ℕ) (w : Watch), k.watches[id]? = some w → w.session = session →
    w.pc = .woken → (k.step (.poll id)).watches[id]? = some { w with pc := .refused }
  read : ∀ (id : ℕ) (w : Watch) (ok : Bool), k.watches[id]? = some w → w.session = session →
    w.pc = .reading ∨ w.pc = .rereading →
      (k.step (.read id ok)).watches[id]? = some { w with pc := .refused }

theorem poll_of_ended {w : Watch} (h : k.Ended w.session) : k.poll w = .refused := by
  rw [poll, if_pos]
  rw [h.2]
  exact nofun

theorem read_of_ended {w : Watch} (h : k.Ended w.session)
    (hpc : w.pc = .reading ∨ w.pc = .rereading) : k.read w = .refused := by
  have hnot : k.bound w.session ≠ some w.app := by
    rw [h.2]
    exact nofun
  obtain hpc | hpc := hpc
  · rw [Kernel.read, hpc]
    dsimp only
    rw [if_neg hnot, poll_of_ended h, ite_self]
  · rw [Kernel.read, hpc]
    dsimp only
    rw [if_neg hnot]

theorem Ended.refuses (h : k.Ended session) : k.Refuses session where
  new after := by
    have hnone : k.partition session = none := by rw [partition, h.lookup, Option.map_none]
    refine ⟨{ session, app := "", after, pc := .refused }, ?_, rfl⟩
    rw [Kernel.step, hnone]
    cases k.erased <;> rfl
  woken id w hid hsession hpc := by
    have hlt : id < k.watches.length := (List.getElem?_eq_some_iff.1 hid).1
    rw [Kernel.step, hid]
    dsimp only
    rw [if_pos hpc, poll_of_ended (hsession ▸ h)]
    exact List.getElem?_set_self hlt
  read id w ok hid hsession hpc := by
    have hlt : id < k.watches.length := (List.getElem?_eq_some_iff.1 hid).1
    have hrefused : (if ok then k.read w else .refused) = .refused := by
      rw [read_of_ended (hsession ▸ h) hpc, ite_self]
    rw [Kernel.step, hid]
    dsimp only
    rw [if_pos hpc, hrefused]
    exact List.getElem?_set_self hlt

end Sessions

/-! ## Every run -/

theorem inv_start : Inv {} where
  attended := nofun
  known := nofun
  orphan := nofun

/-- No watch is parked on the partition. -/
def Awake (k : Kernel) (app : String) : Prop :=
  ∀ w ∈ k.watches, w.pc = .parked → w.app ≠ app

/-- What a device keeps up towards its watches. -/
structure Watchful (k : Kernel) : Prop where
  /-- A watch is parked only as long as nothing changed, or it is to be told, or nobody is. -/
  attended : ∀ w ∈ k.watches, w.pc = .parked → (w.session, w.app) ∉ k.left → k.Attended w
  /-- A change that is written down wakes every watch on its partition. -/
  saved : ∀ (id : ℕ) (app : String) (changes : ℕ), k.tasks[id]? = some (.saving app) →
    (k.step (.run id true changes)).Awake app
  /-- One whose publication or write fails wakes nobody. -/
  failed : ∀ (id : ℕ) (task : Task) (app : String) (changes : ℕ), k.tasks[id]? = some task →
    task = .publishing app ∨ task = .saving app →
      (k.step (.run id false changes)).watches = k.watches
  /-- What the engine reported wakes every watch of a live session, whatever the write answers. -/
  notified : ∀ (id : ℕ) (advanced : List String) (ok : Bool) (changes : ℕ),
    k.tasks[id]? = some (.notifying advanced) →
      ∀ binding ∈ k.bindings, (k.step (.run id ok changes)).Awake binding.2
  /-- A session that is closed, or aborted while it lives, wakes what it was bound to. -/
  closed : ∀ session app, (k.sessions.lookup session).isSome → k.bound session = some app →
    (k.step (.close session)).Awake app ∧ (k.step (.abort session)).Awake app
  /-- What is closed, or aborted while it lives, refuses every watch from then on. -/
  ended : ∀ session, (k.sessions.lookup session).isSome → ∀ ls : List Label,
    Refuses (Transition.run step (k.step (.close session)) ls) session ∧
      Refuses (Transition.run step (k.step (.abort session)) ls) session

theorem awake_close {k : Kernel} {session : ℕ} {app : String}
    (hlive : (k.sessions.lookup session).isSome) (hbound : k.bound session = some app) :
    (k.close session).Awake app := by
  obtain ⟨app', happ'⟩ := Option.isSome_iff_exists.1 hlive
  have happ := Option.some.inj (hbound.symm.trans (bound_of_lookup happ'))
  intro w hw hpc
  rw [Kernel.close, happ'] at hw
  rw [happ]
  exact (mem_wakeDocuments_watches hw hpc).2

theorem step_abort {k : Kernel} {session : ℕ} (hlive : (k.sessions.lookup session).isSome) :
    k.step (.abort session) = k.close session := if_pos hlive

theorem step_run {k : Kernel} {id : ℕ} {task : Task} (hid : k.tasks[id]? = some task) (ok : Bool)
    (changes : ℕ) : k.step (.run id ok changes) = k.run id task ok changes := by
  rw [Kernel.step, hid]

theorem watch_woken (ls : List Label) : Watchful (Transition.run step {} ls) := by
  have hinv : Inv (Transition.run step {} ls) := run_preserves inv_step inv_start ls
  generalize Transition.run step {} ls = k at hinv
  refine
    { attended := fun w hw hpc hleft => (hinv.attended w hw hpc).resolve_left hleft
      saved := fun id app changes hid w hw hpc => ?_
      failed := fun id task app changes hid htask => ?_
      notified := fun id advanced ok changes hid binding hbinding w hw hpc happ => ?_
      closed := fun session app hlive hbound => ?_
      ended := ?_ }
  · rw [step_run hid] at hw
    exact (mem_wakeDocuments_watches hw hpc).2
  · rw [step_run hid]
    rcases htask with rfl | rfl <;> rfl
  · rw [step_run hid] at hw
    exact (mem_wakeAll_watches _ hw hpc).2 (List.mem_map.2 ⟨binding, hbinding, happ.symm⟩)
  · rw [step_abort hlive]
    exact ⟨awake_close hlive hbound, awake_close hlive hbound⟩
  intro session hlive ls
  have hended := close_ended hinv hlive
  rw [step_abort hlive]
  have hkeep : ∀ k l, Ended k session → Ended (step k l) session := fun _ l h => h.step l
  have hrun : Ended (Transition.run step (k.close session) ls) session :=
    run_preserves hkeep hended ls
  exact ⟨hrun.refuses, hrun.refuses⟩

/-- A session parks a watch, and adds a task whose checkpoint fails. -/
def unwritten : List Label :=
  [.launched todomvc (some "p"), .watch 1 0, .read 0 true, .change 1, .run 0 true 1, .run 0 true 0,
    .run 0 false 0]

/-- The watch sleeps on, though its partition has advanced, its session lives, and nothing is under
way. -/
theorem failed_unsaid : (Transition.run step {} unwritten).watches =
      [{ session := 1, app := "p", after := 0, pc := .parked }] ∧
    (Transition.run step {} unwritten).bound 1 = some "p" ∧
    (Transition.run step {} unwritten).revision "p" = 1 ∧
    (Transition.run step {} unwritten).tasks = [.done] := by
  decide +kernel

end Kernel

end Polyvisor.Watchers
