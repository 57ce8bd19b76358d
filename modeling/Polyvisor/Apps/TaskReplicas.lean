import Polyvisor.Apps.Tasks
import Polyvisor.Lib.Transition

/-!
# Replicas of a task list

Every device that has the document has a replica of it, with an actor of its own. It acts on the
tasks, authors merge anchors (`merge_anchor` of `document-history/src/lib.rs`), and gives what it
has to the others, who absorb it at any time, in any order and any number of times. A change has
every head its author had for its dependencies, and what lacks a dependency waits; so what a replica
has of the others' is always the documents that some of them had.

## Main results

* `operations_refine`: in every run, an operation is what it is for on the replica's tasks.
* `snapshots_converge`: in every run, replicas with the same changes list the same tasks.
* `mem_items_iff`: in every run, a task is listed iff it was added and not removed.
-/

namespace Polyvisor.Tasks

open Multivalue Transition

/-- A task that was added: when, by whom, and its object. -/
structure Minted where
  revision : ℕ
  actor : Bytes
  object : ℕ × Bytes
  deriving DecidableEq

/-- The replicas, and the tasks that were ever added. -/
structure Devices where
  replicas : Replicas Bytes Key Scalar := {}
  minted : List Minted := []

/-- What happens to the replica of an actor. -/
inductive Event where
  | act (actor : Bytes) (op : Op)
  | anchor (actor : Bytes)
  | send (actor : Bytes)
  | deliver (actor : Bytes) (i : ℕ)

variable (lib : Library)

/-- The id of a task that was added. -/
def Minted.id (m : Minted) : Bytes :=
  mintId lib m.revision m.actor

namespace Devices

abbrev doc (s : Devices) (actor : Bytes) : Document :=
  s.replicas.docs actor

/-- What an operation adds. -/
def mints (s : Devices) (actor : Bytes) : Op → List Minted
  | .add _ => [⟨revision (s.doc actor), actor, nextObject (s.doc actor) actor⟩]
  | _ => []

def step (s : Devices) : Event → Devices
  | .act actor op =>
    match op.run lib (s.doc actor) actor with
    | .ok doc =>
      { replicas := s.replicas.setDoc actor doc, minted := s.minted ++ s.mints actor op }
    | .error _ => s
  | .anchor actor => { s with replicas := s.replicas.step (.commit actor []) }
  | .send actor => { s with replicas := s.replicas.step (.send actor) }
  | .deliver actor i => { s with replicas := s.replicas.step (.deliver actor i) }

/-- What a write is, where `minted` are the tasks that were added: one of a field comes after its
object, one that puts a task puts one of these, and one that removes a task hides one of these. -/
def Sound (minted : List Minted) (w : Write Bytes Key Scalar) : Prop :=
  match w.key with
  | .field obj _ => obj.1 < w.counter
  | .item id => ∃ m ∈ minted, m.id lib = id ∧
    (w.value = some .map ∧ m.object = w.id ∨ w.value = none ∧ m.object ∈ w.hides)

/-- What holds of every state. -/
structure Inv (s : Devices) : Prop where
  lawful : s.replicas.Lawful
  sound : s.replicas.Every (Sound lib s.minted)
  early : ∀ m ∈ s.minted, m.revision < revision (s.doc m.actor)
  once : ∀ m ∈ s.minted, ∀ n ∈ s.minted, m.revision = n.revision → m.actor = n.actor → m = n

variable {lib : Library} {s : Devices} {minted : List Minted} {w : Write Bytes Key Scalar}

theorem Sound.mono {minted' : List Minted} (h : Sound lib minted w)
    (hsub : ∀ m ∈ minted, m ∈ minted') : Sound lib minted' w := by
  rw [Sound] at h ⊢
  split at h
  · exact h
  · obtain ⟨m, hm, hrest⟩ := h
    exact ⟨m, hsub m hm, hrest⟩

theorem Sound.of_field {obj : ℕ × Bytes} {f : Field} (hkey : w.key = .field obj f) :
    Sound lib minted w ↔ obj.1 < w.counter := by
  rw [Sound, hkey]

theorem Sound.of_item {id : Bytes} (hkey : w.key = .item id) :
    Sound lib minted w ↔ ∃ m ∈ minted, m.id lib = id ∧
      (w.value = some .map ∧ m.object = w.id ∨ w.value = none ∧ m.object ∈ w.hides) := by
  rw [Sound, hkey]

/-- The documents of a state are such as the operations keep them. -/
theorem Inv.grounded (h : Inv lib s) {doc : Document} (hdoc : s.replicas.Has doc) :
    Grounded doc where
  named := (h.lawful.doc doc hdoc).named
  fields w hw _ _ hkey := (Sound.of_field hkey).1 (h.sound doc hdoc w hw)
  items w hw id hkey := by
    obtain ⟨m, -, -, hput | hremoved⟩ := (Sound.of_item hkey).1 (h.sound doc hdoc w hw)
    · exact .inl hput.1
    · exact .inr hremoved.1

theorem has_doc (s : Devices) (actor : Bytes) : s.replicas.Has (s.doc actor) :=
  .inl ⟨actor, rfl⟩

/-! ## What an operation writes -/

variable {doc doc' : Document} {actor : Bytes} {op : Op}

/-- The writes of `add`: the task, and its fields. -/
theorem sound_add (h : Grounded doc) (title : Bytes) :
    ∀ w ∈ doc.history.added actor (addBatch lib doc actor title),
      Sound lib [⟨revision doc, actor, nextObject doc actor⟩] w := by
  intro w hw
  rw [h.addBatch_eq] at hw
  obtain rfl | hw := List.mem_cons.1 hw
  · exact (Sound.of_item rfl).2 ⟨_, List.mem_singleton_self _, rfl, .inl ⟨rfl, rfl⟩⟩
  · -- the other writes count on from the task's
    have hlater : doc.history.next < w.counter :=
      (History.next_write _ _).trans_le (History.next_le_of_mem_added hw)
    have hkey := History.key_of_mem_added hw
    simp only [List.map_cons, List.map_nil, List.mem_cons, List.not_mem_nil, or_false] at hkey
    obtain hkey | hkey | hkey := hkey <;> exact (Sound.of_field hkey).2 hlater

/-- The write of a field: its object is there. -/
theorem sound_put {item : Write Bytes Key Scalar} (hitem : item ∈ doc.history.writes) (f : Field)
    (value : Scalar) :
    ∀ w ∈ doc.history.added actor (doc.put (.field item.id f) value), Sound lib [] w := by
  intro w hw
  obtain ⟨write, hwrite, hkey⟩ := List.mem_map.1 (History.key_of_mem_added hw)
  rw [Doc.mem_put hwrite] at hkey
  refine (Sound.of_field hkey.symm).2 ?_
  exact (doc.history.counter_lt_next item hitem).trans_le (History.next_le_of_mem_added hw)

/-- The write of a removal hides the task it removes. -/
theorem sound_remove {id : Bytes} (hsound : ∀ w ∈ doc.history.writes, Sound lib minted w)
    (hshown : doc.history.shown (.item id) ≠ []) :
    ∀ w ∈ doc.history.added actor [(.item id, none)], Sound lib minted w := by
  intro w hw
  obtain rfl : w = doc.history.written actor (.item id) none := List.mem_singleton.1 hw
  obtain ⟨u, hu⟩ := List.exists_mem_of_ne_nil _ hshown
  obtain ⟨hmem, hkey, hsome, -⟩ := History.mem_shown.1 hu
  obtain ⟨m, hm, hid, ⟨-, hobject⟩ | ⟨hnone, -⟩⟩ := (Sound.of_item hkey).1 (hsound u hmem)
  · refine (Sound.of_item rfl).2 ⟨m, hm, hid, .inr ⟨rfl, ?_⟩⟩
    rw [hobject]
    exact List.mem_map_of_mem hu
  · simp [hnone] at hsome

/-- An operation writes one batch, of sound writes. -/
theorem run_eq_ok (h : Inv lib s) (hrun : op.run lib (s.doc actor) actor = .ok doc') :
    ∃ batch, doc' = (s.doc actor).transact actor batch ∧
      (∀ w ∈ (s.doc actor).history.added actor batch,
        Sound lib (s.minted ++ s.mints actor op) w) ∧
      (s.mints actor op ≠ [] → batch ≠ []) := by
  have hgrounded := h.grounded (s.has_doc actor)
  have hput {id : Bytes} {f : Field} {value : Scalar} {minted : List Minted}
      (hok : putField lib (s.doc actor) actor id f value = .ok doc') :
      ∃ batch, doc' = (s.doc actor).transact actor batch ∧
        (∀ w ∈ (s.doc actor).history.added actor batch, Sound lib minted w) := by
    obtain ⟨item, htop, -, rfl⟩ := putField_eq_ok.1 hok
    have hmem := (History.mem_shown.1 (History.mem_shown_of_top htop)).1
    exact ⟨_, rfl, fun w hw => (sound_put hmem f value w hw).mono (by simp)⟩
  cases op with
  | add title =>
    refine ⟨addBatch lib (s.doc actor) actor title, (Except.ok.inj hrun).symm, fun w hw => ?_,
      fun _ => by simp [addBatch]⟩
    exact (sound_add hgrounded title w hw).mono fun m hm => List.mem_append_right _ hm
  | setCompleted id value =>
    obtain ⟨batch, hdoc, hsound⟩ := hput hrun
    exact ⟨batch, hdoc, hsound, by simp [mints]⟩
  | setTitle id value =>
    obtain ⟨batch, hdoc, hsound⟩ := hput hrun
    exact ⟨batch, hdoc, hsound, by simp [mints]⟩
  | remove id =>
    obtain ⟨hshown, rfl⟩ := remove_eq_ok.1 hrun
    refine ⟨[(.item id, none)], rfl, ?_, fun _ => by simp⟩
    show ∀ w ∈ _, Sound lib (s.minted ++ []) w
    rw [List.append_nil]
    exact sound_remove (h.sound _ (s.has_doc actor)) hshown

/-! ## Every run -/

/-- What holds of a state stays, where the replicas take a step that adds sound writes. -/
theorem Inv.moves (h : Inv lib s) (ev : Replicas.Event Bytes Key Scalar)
    (hnew : ∀ a batch, ev = .commit a batch →
      ∀ w ∈ (s.doc a).history.added a batch, Sound lib s.minted w) :
    Inv lib { s with replicas := s.replicas.step ev } where
  lawful := Replicas.lawful_step _ _ h.lawful
  sound := h.sound.step ev hnew
  early m hm := (h.early m hm).trans_le (Replicas.length_le_step _ _ _)
  once := h.once

/-- What an operation adds was not added before. -/
theorem Inv.mint (h : Inv lib s) (hrun : op.run lib (s.doc actor) actor = .ok doc') :
    Inv lib (s.step lib (.act actor op)) := by
  obtain ⟨batch, rfl, hsound, hbatch⟩ := run_eq_ok h hrun
  rw [step, hrun]
  show Inv lib ⟨s.replicas.setDoc actor ((s.doc actor).transact actor batch),
    s.minted ++ s.mints actor op⟩
  rw [Replicas.setDoc_transact]
  split_ifs with hempty
  · -- nothing is written, and nothing added
    have hmints : s.mints actor op = [] := by_contra fun hne => hbatch hne hempty
    rw [hmints, List.append_nil]
    exact h
  -- the replica that added it has a greater revision from now on
  · have hrevision : revision (s.doc actor) <
        revision ((s.replicas.step (.commit actor batch)).docs actor) := by
      simp [Replicas.step, revision, Doc.commit]
    have hmint (m : Minted) (hm : m ∈ s.mints actor op) :
        m = ⟨revision (s.doc actor), actor, nextObject (s.doc actor) actor⟩ := by
      cases op <;> simp_all [mints]
    refine ⟨Replicas.lawful_step _ (.commit actor batch) h.lawful, ?_, fun m hm => ?_,
      fun m hm n hn hrev hactor => ?_⟩
    · have hbefore : s.replicas.Every (Sound lib (s.minted ++ s.mints actor op)) :=
        fun d hd w hw => (h.sound d hd w hw).mono fun m hm => List.mem_append_left _ hm
      refine hbefore.step (.commit actor batch) ?_
      rintro a batch' ⟨⟩
      exact hsound
    · obtain hm | hm := List.mem_append.1 hm
      · exact (h.early m hm).trans_le (s.replicas.length_le_step (.commit actor batch) m.actor)
      · rw [hmint m hm]
        exact hrevision
    · have hnew (m n : Minted) (hm : m ∈ s.minted) (hn : n ∈ s.mints actor op)
          (hrev : m.revision = n.revision) (hactor : m.actor = n.actor) : False := by
        have hlt := h.early m hm
        rw [hmint n hn] at hrev hactor
        change m.actor = actor at hactor
        change m.revision = revision (s.doc actor) at hrev
        rw [hactor, hrev] at hlt
        exact hlt.false
      obtain hm | hm := List.mem_append.1 hm <;> obtain hn | hn := List.mem_append.1 hn
      · exact h.once m hm n hn hrev hactor
      · exact (hnew m n hm hn hrev hactor).elim
      · exact (hnew n m hn hm hrev.symm hactor.symm).elim
      · rw [hmint m hm, hmint n hn]

theorem inv_step (s : Devices) (ev : Event) (h : Inv lib s) : Inv lib (s.step lib ev) := by
  cases ev with
  | act actor op =>
    cases hrun : op.run lib (s.doc actor) actor with
    | ok doc => exact h.mint hrun
    -- an operation that fails writes nothing
    | error e => rwa [step, hrun]
  | anchor actor =>
    refine h.moves (.commit actor []) ?_
    rintro a batch ⟨⟩ w hw
    simp [History.added] at hw
  | send actor => exact h.moves (.send actor) (by simp)
  | deliver actor i => exact h.moves (.deliver actor i) (by simp)

theorem inv_start : Inv lib ({} : Devices) :=
  ⟨Replicas.lawful_start, Replicas.every_start, by simp, by simp⟩

variable (lib) in
theorem inv_run (evs : List Event) : Inv lib (run (step lib) ({} : Devices) evs) :=
  run_preserves inv_step inv_start evs

/-! ## What a replica lists -/

/-- The change adds a task. -/
def Adds (c : Multivalue.Change Bytes Key Scalar) (id : Bytes) : Prop :=
  ∃ w ∈ c.writes, w.key = .item id ∧ w.value.isSome

/-- The change removes a task. -/
def Removes (c : Multivalue.Change Bytes Key Scalar) (id : Bytes) : Prop :=
  ∃ w ∈ c.writes, w.key = .item id ∧ w.value = none

/-- No two tasks that were added got one id. -/
def Distinct (lib : Library) (s : Devices) : Prop :=
  ∀ m ∈ s.minted, ∀ n ∈ s.minted, m.id lib = n.id lib →
    m.revision = n.revision ∧ m.actor = n.actor

instance (lib : Library) (s : Devices) : Decidable (Distinct lib s) :=
  inferInstanceAs (Decidable (∀ _ ∈ _, _))

/-- Where no two tasks got one id, a task shows iff it was added and not removed. -/
theorem Inv.shown_ne_nil (h : Inv lib s) (hids : Distinct lib s) (hdoc : s.replicas.Has doc)
    (id : Bytes) :
    doc.history.shown (.item id) ≠ [] ↔
      (∃ w ∈ doc.history.writes, w.key = .item id ∧ w.value.isSome) ∧
        ∀ w ∈ doc.history.writes, w.key = .item id → w.value.isSome := by
  have hsame {m n : Minted} (hm : m ∈ s.minted) (hn : n ∈ s.minted) (hmid : m.id lib = id)
      (hnid : n.id lib = id) : m = n := by
    obtain ⟨hrev, hactor⟩ := hids m hm n hn (hmid.trans hnid.symm)
    exact h.once m hm n hn hrev hactor
  have hput {w : Write Bytes Key Scalar} (hw : w ∈ doc.history.writes) (hkey : w.key = .item id)
      (hsome : w.value.isSome) : ∃ m ∈ s.minted, m.id lib = id ∧ m.object = w.id := by
    obtain ⟨m, hm, hid, hput | hremoved⟩ := (Sound.of_item hkey).1 (h.sound doc hdoc w hw)
    · exact ⟨m, hm, hid, hput.2⟩
    · simp [hremoved.1] at hsome
  constructor
  · intro hshown
    obtain ⟨w, hw⟩ := List.exists_mem_of_ne_nil _ hshown
    obtain ⟨hmem, hkey, hsome, hnone⟩ := History.mem_shown.1 hw
    refine ⟨⟨w, hmem, hkey, hsome⟩, fun u hu hukey => ?_⟩
    by_contra hremoved
    -- a removal hides the one write that put the task
    obtain ⟨m, hm, hmid, hobject⟩ := hput hmem hkey hsome
    obtain ⟨n, hn, hnid, hadd | ⟨-, hhides⟩⟩ := (Sound.of_item hukey).1 (h.sound doc hdoc u hu)
    · simp [hadd.1] at hremoved
    · refine hnone u hu ⟨hukey.trans hkey.symm, ?_⟩
      rwa [← hobject, hsame hm hn hmid hnid]
  · rintro ⟨⟨w, hmem, hkey, hsome⟩, hall⟩
    refine List.ne_nil_of_mem (History.mem_shown.2 ⟨hmem, hkey, hsome, fun u hu hhides => ?_⟩)
    -- who hides it puts the same task, and no write hides itself
    have hukey := hhides.1.trans hkey
    obtain ⟨m, hm, hmid, hobject⟩ := hput hmem hkey hsome
    obtain ⟨n, hn, hnid, hobject'⟩ := hput hu hukey (hall u hu hukey)
    have hid : w.id = u.id := by rw [← hobject, ← hobject', hsame hm hn hmid hnid]
    have hlt := doc.history.causal u hu _ hhides.2
    rw [hid] at hlt
    exact lt_irrefl _ hlt

end Devices

open Devices

variable (lib : Library)

/-- In every run, an operation on a replica is what it is for: on the replica's tasks, it makes,
changes or removes its own one, or it says that there is no such task. -/
theorem operations_refine (evs : List Event) (actor : Bytes) (op : Op) :
    let doc := (run (step lib) ({} : Devices) evs).doc actor
    (op.run lib doc actor).map task =
      op.meaning (mintId lib (revision doc) actor) (createdAt (revision doc)) (task doc) :=
  run_meaning ((inv_run lib evs).grounded (has_doc _ actor)) op

/-- In every run, replicas that have the same changes list the same tasks in the same order, and
name the same revision. -/
theorem snapshots_converge (evs : List Event) (a b : Bytes) :
    let s := run (step lib) ({} : Devices) evs
    (∀ c, c ∈ (s.doc a).changes ↔ c ∈ (s.doc b).changes) →
      snapshot (s.doc a) = snapshot (s.doc b) := by
  intro s hsame
  obtain ⟨hlength, hshown, htop⟩ :=
    Replicas.converge (inv_run lib evs).lawful (has_doc s a) (has_doc s b) hsame
  -- every field is read as its newest write, and those are the same
  have hfield (obj : ℕ × Bytes) (f : Field) : field (s.doc a) obj f = field (s.doc b) obj f := by
    rw [field, field, History.newest_eq_top, History.newest_eq_top, htop]
  have htask : task (s.doc a) = task (s.doc b) := by
    ext1 id
    exact task_congr (htop _) fun item _ f => hfield item.id f
  rw [snapshot, snapshot]
  exact congrArg₂ Snapshot.mk hlength (items_congr htask)

/-- A library whose ids end in the revision and the actor. -/
def reversing : Library := ⟨List.reverse, "put into no object"⟩

/-- Two devices: each task is added on the first, and the second removes one. -/
def removal : List Event :=
  [.act [1] (.add (utf8 "a")), .send [1], .deliver [2] 0,
    .act [2] (.remove (mintId reversing 0 [1])), .act [1] (.add (utf8 "b")), .send [2],
    .deliver [1] 1, .send [1], .deliver [2] 2]

theorem snapshots_converge_removal :
    snapshot ((run (step reversing) ({} : Devices) removal).doc [1]) =
      snapshot ((run (step reversing) ({} : Devices) removal).doc [2]) := by
  have hperm : ((run (step reversing) ({} : Devices) removal).doc [1]).changes.Perm
      ((run (step reversing) ({} : Devices) removal).doc [2]).changes := by decide +kernel
  exact snapshots_converge reversing removal [1] [2] fun c => hperm.mem_iff

/-- In every run in which no two tasks got one id, a replica lists a task iff some change it has
adds the task, and none removes it. -/
theorem mem_items_iff (evs : List Event)
    (hids : Distinct lib (run (step lib) ({} : Devices) evs)) (actor id : Bytes) :
    let doc := (run (step lib) ({} : Devices) evs).doc actor
    id ∈ (snapshot doc).items.map TodoItem.id ↔
      (∃ c ∈ doc.changes, Adds c id) ∧ ∀ c ∈ doc.changes, ¬ Removes c id := by
  intro doc
  have h := inv_run lib evs
  have hdoc : (run (step lib) ({} : Devices) evs).replicas.Has doc := has_doc _ actor
  -- from here on it is any document of the run
  clear_value doc
  have hlisted : id ∈ (snapshot doc).items.map TodoItem.id ↔
      doc.history.shown (.item id) ≠ [] := by
    rw [← readItem_isSome, snapshot, List.map_map, List.mem_map]
    constructor
    · rintro ⟨item, hitem, rfl⟩
      exact Option.isSome_of_eq_some (mem_sorted.1 hitem)
    · intro hread
      obtain ⟨item, hread⟩ := Option.isSome_iff_exists.1 hread
      have hid := id_of_readItem hread
      exact ⟨item, mem_sorted.2 (hid.symm ▸ hread), hid⟩
  have hwrites := (h.lawful.doc doc hdoc).writes
  rw [hlisted, h.shown_ne_nil hids hdoc id]
  simp only [Adds, Removes, hwrites, ← Option.not_isSome_iff_eq_none]
  constructor
  · rintro ⟨⟨w, ⟨c, hc, hw⟩, hadds⟩, hall⟩
    refine ⟨⟨c, hc, w, hw, hadds⟩, ?_⟩
    rintro c hc ⟨w, hw, hkey, hnone⟩
    exact hnone (hall w ⟨c, hc, hw⟩ hkey)
  · rintro ⟨⟨c, hc, w, hw, hadds⟩, hall⟩
    refine ⟨⟨w, ⟨c, hc, hw⟩, hadds⟩, ?_⟩
    rintro w ⟨c, hc, hw⟩ hkey
    by_contra hnone
    exact hall c hc ⟨w, hw, hkey, hnone⟩

theorem mem_items_iff_removal :
    Distinct reversing (run (step reversing) {} removal) ∧
      (mintId reversing 1 [1] ∈
        (snapshot ((run (step reversing) ({} : Devices) removal).doc [2])).items.map TodoItem.id ↔
        (∃ c ∈ ((run (step reversing) ({} : Devices) removal).doc [2]).changes,
          Adds c (mintId reversing 1 [1])) ∧
        ∀ c ∈ ((run (step reversing) ({} : Devices) removal).doc [2]).changes,
          ¬ Removes c (mintId reversing 1 [1])) :=
  have hids : Distinct reversing (run (step reversing) {} removal) := by decide +kernel
  ⟨hids, mem_items_iff reversing removal hids [2] (mintId reversing 1 [1])⟩

end Polyvisor.Tasks
