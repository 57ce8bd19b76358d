import Polyvisor.Contacts.Document
import Polyvisor.Lib.BigEndian
import Polyvisor.Lib.Replicas
import Polyvisor.Lib.Text
import Mathlib.Algebra.Group.Int.Defs
import Mathlib.Algebra.GroupWithZero.Nat

/-!
# Tasks

`todo-model/src/lib.rs`: a list of tasks in an automerge document. The root map has an object for
each task under the task's id, and the object has the title, whether it is completed, and the
revision at which it was made. An object is named by the operation that put it, and keys keep every
concurrent write.

A string is its UTF-8 bytes. SHA-256 and the library's texts are parameters.

## Main results

* `mem_items`, `pairwise_items`: what a snapshot lists, and in which order.
* `task_add`, `task_setField`, `task_remove`: what an operation does to every task.
-/

namespace Polyvisor.Tasks

open Multivalue

/-- `TITLE`, `COMPLETED` and `CREATED`. -/
inductive Field where
  | title
  | completed
  | created
  deriving DecidableEq, Repr

/-- A key of the root map, or of the object that an operation put. -/
inductive Key where
  | item (id : Bytes)
  | field (obj : ℕ × Bytes) (field : Field)
  deriving DecidableEq

/-- `automerge::Value`, as far as `to_str`, `to_bool` and `to_i64` tell values apart. -/
inductive Scalar where
  | map
  | text (value : Bytes)
  | bool (value : Bool)
  | int (value : ℤ)
  | other
  deriving DecidableEq

namespace Scalar

/-- `to_str`. -/
def toStr : Scalar → Option Bytes
  | .text value => some value
  | _ => none

/-- `to_bool`. -/
def toBool : Scalar → Option Bool
  | .bool value => some value
  | _ => none

/-- `to_i64`. -/
def toI64 : Scalar → Option ℤ
  | .int value => some value
  | _ => none

end Scalar

abbrev Document := Doc Bytes Key Scalar

/-- What the model uses of its libraries. -/
structure Library where
  sha256 : Bytes → Bytes
  /-- What automerge says of a put into something that is no object. -/
  notAnObject : String

/-- `TodoItem`. -/
structure TodoItem where
  id : Bytes
  title : Bytes
  completed : Bool
  deriving DecidableEq

/-- `Snapshot`. -/
structure Snapshot where
  revision : ℕ
  items : List TodoItem
  deriving DecidableEq

/-- `Document::revision`. -/
def revision (doc : Document) : ℕ :=
  doc.changes.length

/-! ## Reading -/

/-- `Automerge::keys` at the root. -/
def keys (doc : Document) : List Bytes :=
  ((doc.history.writes.filterMap fun w =>
    match w.key with
    | .item id => some id
    | .field _ _ => none).filter fun id => doc.history.shown (.item id) ≠ []).dedup.insertionSort
      (· ≤ ·)

/-- `Automerge::get` of a field of an object. -/
def field (doc : Document) (obj : ℕ × Bytes) (f : Field) : Option Scalar :=
  doc.history.newest (.field obj f)

/-- A task, as it is read under its id: `created`, and the item. -/
def readItem (doc : Document) (id : Bytes) : Option (ℤ × TodoItem) :=
  (doc.history.top (.item id)).map fun item =>
    (((field doc item.id .created).bind Scalar.toI64).getD 0,
      { id
        title := ((field doc item.id .title).bind Scalar.toStr).getD []
        completed := ((field doc item.id .completed).bind Scalar.toBool).getD false })

/-- The order of a snapshot. -/
def inOrder (a b : ℤ × TodoItem) : Prop :=
  a.1 < b.1 ∨ a.1 = b.1 ∧ a.2.id ≤ b.2.id

instance : DecidableRel inOrder := fun a b =>
  inferInstanceAs (Decidable (a.1 < b.1 ∨ a.1 = b.1 ∧ a.2.id ≤ b.2.id))

/-- The tasks with the revisions they were made at, sorted. -/
def sorted (doc : Document) : List (ℤ × TodoItem) :=
  ((keys doc).filterMap (readItem doc)).insertionSort inOrder

/-- `snapshot`. -/
def snapshot (doc : Document) : Snapshot :=
  { revision := revision doc, items := (sorted doc).map Prod.snd }

/-! ## Writing -/

variable (lib : Library)

/-- `mint_id`. -/
def mintId (revision : ℕ) (actor : Bytes) : Bytes :=
  Contacts.hex ((lib.sha256 (utf8 "polyvisor:task-id:" ++ actor ++
    BigEndian.toBytes 8 revision)).take 16)

/-- The object that the next operation of a document puts. -/
def nextObject (doc : Document) (actor : Bytes) : ℕ × Bytes :=
  (doc.history.next, actor)

/-- `i64::try_from(revision).unwrap_or(i64::MAX)`. -/
def createdAt (revision : ℕ) : ℤ :=
  if revision < 2 ^ 63 then revision else 2 ^ 63 - 1

/-- What `add` writes. No object of this name has a field yet, so each `put` is an operation. -/
def addBatch (doc : Document) (actor : Bytes) (title : Bytes) : List (Key × Option Scalar) :=
  let item := nextObject doc actor
  -- the map comes first: its operation is what the fields are put into
  (.item (mintId lib (revision doc) actor), some .map) ::
    (doc.put (.field item .title) (.text title) ++
      doc.put (.field item .completed) (.bool false) ++
      doc.put (.field item .created) (.int (createdAt (revision doc))))

/-- `add`. -/
def add (doc : Document) (actor : Bytes) (title : Bytes) : Document × Bytes :=
  (doc.transact actor (addBatch lib doc actor title), mintId lib (revision doc) actor)

/-- `require`, or the message of its error. -/
def require (doc : Document) (id : Bytes) : Except Bytes (Write Bytes Key Scalar) :=
  match doc.history.top (.item id) with
  | some item => .ok item
  | none => .error (utf8 "no task with id " ++ id)

/-- `put` of the crate. -/
def putField (doc : Document) (actor id : Bytes) (f : Field) (value : Scalar) :
    Except Bytes Document := do
  let item ← require doc id
  -- another client may have put something that is no task
  if item.value ≠ some .map then throw (utf8 lib.notAnObject)
  return doc.transact actor (doc.put (.field item.id f) value)

/-- `set_completed`. -/
def setCompleted (doc : Document) (actor id : Bytes) (value : Bool) : Except Bytes Document :=
  putField lib doc actor id .completed (.bool value)

/-- `set_title`. -/
def setTitle (doc : Document) (actor id value : Bytes) : Except Bytes Document :=
  putField lib doc actor id .title (.text value)

/-- `remove`. -/
def remove (doc : Document) (actor id : Bytes) : Except Bytes Document := do
  -- every put that is shown goes, also one that came with a merge
  let _ ← require doc id
  return doc.transact actor [(.item id, none)]

/-! ## What a snapshot lists -/

/-- What the task under an id is: when it was made, its title, and whether it is completed. -/
structure Task where
  created : ℤ
  title : Bytes
  completed : Bool
  deriving DecidableEq

/-- The task under an id. -/
def task (doc : Document) (id : Bytes) : Option Task :=
  (readItem doc id).map fun item => ⟨item.1, item.2.title, item.2.completed⟩

theorem mem_keys {doc : Document} {id : Bytes} :
    id ∈ keys doc ↔ doc.history.shown (.item id) ≠ [] := by
  simp only [keys, List.mem_insertionSort, List.mem_dedup, List.mem_filter, List.mem_filterMap,
    decide_eq_true_eq, and_iff_right_iff_imp]
  intro hshown
  obtain ⟨w, hw⟩ := List.exists_mem_of_ne_nil _ hshown
  obtain ⟨hmem, hkey, -⟩ := History.mem_shown.1 hw
  exact ⟨w, hmem, by rw [hkey]⟩

theorem readItem_isSome {doc : Document} {id : Bytes} :
    (readItem doc id).isSome ↔ doc.history.shown (.item id) ≠ [] := by
  rw [readItem, Option.isSome_map, ← not_iff_not, Option.not_isSome_iff_eq_none,
    History.top_eq_none, not_not]

theorem id_of_readItem {doc : Document} {id : Bytes} {item : ℤ × TodoItem}
    (h : readItem doc id = some item) : item.2.id = id := by
  obtain ⟨w, -, rfl⟩ := Option.map_eq_some_iff.1 h
  rfl

theorem mem_sorted {doc : Document} {item : ℤ × TodoItem} :
    item ∈ sorted doc ↔ readItem doc item.2.id = some item := by
  rw [sorted, List.mem_insertionSort, List.mem_filterMap]
  constructor
  · rintro ⟨id, -, hread⟩
    rwa [id_of_readItem hread]
  · intro hread
    refine ⟨_, mem_keys.2 (readItem_isSome.1 ?_), hread⟩
    rw [hread]
    rfl

theorem task_eq_some {doc : Document} {id : Bytes} {t : Task} :
    task doc id = some t ↔ readItem doc id = some (t.created, ⟨id, t.title, t.completed⟩) := by
  rw [task, Option.map_eq_some_iff]
  constructor
  · rintro ⟨⟨created, item⟩, hread, rfl⟩
    obtain rfl : item.id = id := id_of_readItem hread
    exact hread
  · intro hread
    exact ⟨_, hread, rfl⟩

/-- A snapshot lists the tasks there are, each as it is. -/
theorem mem_items {doc : Document} {item : TodoItem} :
    item ∈ (snapshot doc).items ↔
      ∃ created, task doc item.id = some ⟨created, item.title, item.completed⟩ := by
  simp only [snapshot, List.mem_map, Prod.exists, exists_eq_right, mem_sorted, task_eq_some]

instance : Std.Total inOrder := ⟨fun a b => by
  obtain hlt | heq | hgt := lt_trichotomy a.1 b.1
  · exact .inl (.inl hlt)
  · exact (Std.le_total (a := a.2.id) (b := b.2.id)).imp (.inr ⟨heq, ·⟩) (.inr ⟨heq.symm, ·⟩)
  · exact .inr (.inl hgt)⟩

instance : IsTrans (ℤ × TodoItem) inOrder := ⟨fun a b c hab hbc => by
  obtain hlt | ⟨heq, hle⟩ := hab <;> obtain hlt' | ⟨heq', hle'⟩ := hbc
  · exact .inl (hlt.trans hlt')
  · exact .inl (heq' ▸ hlt)
  · exact .inl (heq ▸ hlt')
  · exact .inr ⟨heq.trans heq', Std.le_trans hle hle'⟩⟩

theorem pairwise_sorted (doc : Document) : (sorted doc).Pairwise inOrder :=
  List.pairwise_insertionSort inOrder _

theorem nodup_keys (doc : Document) : (keys doc).Nodup :=
  ((List.perm_insertionSort _ _).nodup_iff).2 (List.nodup_dedup _)

/-- Every task is listed once. -/
theorem nodup_items (doc : Document) : ((snapshot doc).items.map TodoItem.id).Nodup := by
  have hids : (((keys doc).filterMap (readItem doc)).map fun item => item.2.id).Sublist
      (keys doc) := by
    generalize keys doc = ids
    induction ids with
    | nil => exact .slnil
    | cons id ids ih =>
      rw [List.filterMap_cons]
      split
      · exact ih.cons _
      next item hread =>
        rw [List.map_cons, id_of_readItem hread]
        exact ih.cons_cons _
  have hnodup := (nodup_keys doc).sublist hids
  rw [snapshot, List.map_map]
  exact (((List.perm_insertionSort _ _).map _).nodup_iff).2 hnodup

/-! ## What an operation does -/

/-- Every write has a name of its own, a field is written after its object was put, and a task is
an object. -/
structure Grounded (doc : Document) : Prop where
  named : doc.history.Named
  fields : ∀ w ∈ doc.history.writes, ∀ obj f, w.key = .field obj f → obj.1 < w.counter
  items : ∀ w ∈ doc.history.writes, ∀ id, w.key = .item id → w.value = some .map ∨ w.value = none

/-- A task is what its object and the fields of it show. -/
theorem task_congr {doc doc' : Document} {id : Bytes}
    (hitem : doc'.history.top (.item id) = doc.history.top (.item id))
    (hfields : ∀ item, doc.history.top (.item id) = some item →
      ∀ f, field doc' item.id f = field doc item.id f) : task doc' id = task doc id := by
  rw [task, task, readItem, readItem, hitem]
  cases htop : doc.history.top (.item id) with
  | none => rfl
  | some item => simp only [Option.map_some, hfields item htop]

variable {lib : Library} {doc doc' : Document} {actor id : Bytes}

/-- Two tasks have two objects. -/
theorem Grounded.eq_of_id (h : Grounded doc) {id' : Bytes} {item item' : Write Bytes Key Scalar}
    (htop : doc.history.top (.item id) = some item)
    (htop' : doc.history.top (.item id') = some item') (heq : item.id = item'.id) : id = id' := by
  obtain ⟨hmem, hkey, -⟩ := History.mem_shown.1 (History.mem_shown_of_top htop)
  obtain ⟨hmem', hkey', -⟩ := History.mem_shown.1 (History.mem_shown_of_top htop')
  obtain rfl := h.named item hmem item' hmem' heq
  exact Key.item.inj (hkey.symm.trans hkey')

/-- What a field of a task becomes. -/
def Task.set (t : Task) : Field → Scalar → Task
  | .title, value => { t with title := value.toStr.getD [] }
  | .completed, value => { t with completed := value.toBool.getD false }
  | .created, value => { t with created := value.toI64.getD 0 }

theorem task_eq (doc : Document) (id : Bytes) :
    task doc id = (doc.history.top (.item id)).map fun item =>
      ⟨((field doc item.id .created).bind Scalar.toI64).getD 0,
        ((field doc item.id .title).bind Scalar.toStr).getD [],
        ((field doc item.id .completed).bind Scalar.toBool).getD false⟩ := by
  rw [task, readItem, Option.map_map]
  rfl

theorem putField_eq_ok {f : Field} {value : Scalar} :
    putField lib doc actor id f value = .ok doc' ↔
      ∃ item, doc.history.top (.item id) = some item ∧ item.value = some .map ∧
        doc' = doc.transact actor (doc.put (.field item.id f) value) := by
  simp only [putField, require]
  cases htop : doc.history.top (.item id) with
  | none => simp [bind, Except.bind]
  | some item =>
    by_cases hmap : item.value = some .map
    · simp [bind, Except.bind, pure, Except.pure, hmap, eq_comm]
    · simp [bind, Except.bind, throw, throwThe, MonadExceptOf.throw, hmap]

/-- A field of one task is set, and nothing else is changed. -/
theorem task_putField (h : Grounded doc) {f : Field} {value : Scalar}
    (hput : putField lib doc actor id f value = .ok doc') :
    task doc' = Function.update (task doc) id ((task doc id).map (·.set f value)) := by
  obtain ⟨item, htop, -, rfl⟩ := putField_eq_ok.1 hput
  have hkeys (key : Key) (hne : key ≠ .field item.id f) :
      (doc.transact actor (doc.put (.field item.id f) value)).history.shown key =
        doc.history.shown key := by
    rw [Doc.history_transact]
    refine History.shown_writeAll_of_notMem fun hmem => ?_
    obtain ⟨write, hwrite, rfl⟩ := List.mem_map.1 hmem
    exact hne (congrArg Prod.fst (Doc.mem_put hwrite))
  have hitem (id' : Bytes) : (doc.transact actor (doc.put (.field item.id f) value)).history.top
      (.item id') = doc.history.top (.item id') :=
    History.top_congr (hkeys _ (by simp))
  have hfield (obj : ℕ × Bytes) (f' : Field) (hne : (obj, f') ≠ (item.id, f)) :
      field (doc.transact actor (doc.put (.field item.id f) value)) obj f' = field doc obj f' := by
    rw [field, field, History.newest_eq, History.newest_eq, hkeys]
    intro heq
    obtain ⟨hobj, hf⟩ := Key.field.inj heq
    exact hne (Prod.ext hobj hf)
  have hself : field (doc.transact actor (doc.put (.field item.id f) value)) item.id f =
      some value := by
    rw [field, Doc.history_transact]
    exact Doc.newest_put doc actor _ value
  ext1 id'
  by_cases hid : id' = id
  · subst hid
    have hother (f' : Field) (hne : f' ≠ f) := hfield item.id f' (by simp [hne])
    rw [Function.update_self, task_eq, task_eq, hitem, htop]
    cases f <;> simp [hself, hother, Task.set]
  · rw [Function.update_of_ne hid]
    refine task_congr (hitem id') fun item' htop' f' => hfield _ _ fun heq => ?_
    exact hid (h.eq_of_id htop' htop (congrArg Prod.fst heq))

/-- No object is in the document before it is put. -/
theorem Grounded.shown_nextObject (h : Grounded doc) (actor : Bytes) (f : Field) :
    doc.history.shown (.field (nextObject doc actor) f) = [] := by
  refine List.eq_nil_iff_forall_not_mem.2 fun w hw => ?_
  obtain ⟨hmem, hkey, -⟩ := History.mem_shown.1 hw
  have hafter : doc.history.next < w.counter := h.fields w hmem _ f hkey
  have hbefore := doc.history.counter_lt_next w hmem
  omega

/-- What `add` writes, every field of it. -/
theorem Grounded.addBatch_eq (h : Grounded doc) (title : Bytes) :
    addBatch lib doc actor title =
      [(.item (mintId lib (revision doc) actor), some .map),
        (.field (nextObject doc actor) .title, some (.text title)),
        (.field (nextObject doc actor) .completed, some (.bool false)),
        (.field (nextObject doc actor) .created, some (.int (createdAt (revision doc))))] := by
  have hput (f : Field) (value : Scalar) : doc.put (.field (nextObject doc actor) f) value =
      [(.field (nextObject doc actor) f, some value)] := by
    refine if_neg fun heq => ?_
    rw [History.values, h.shown_nextObject] at heq
    exact absurd heq (by simp)
  simp only [addBatch, hput, List.cons_append, List.nil_append]

/-- A task is made, under its id, and nothing else is changed. -/
theorem task_add (h : Grounded doc) (title : Bytes) :
    task (add lib doc actor title).1 = Function.update (task doc)
      (mintId lib (revision doc) actor) (some ⟨createdAt (revision doc), title, false⟩) := by
  have hhistory : (add lib doc actor title).1.history =
      doc.history.writeAll actor (addBatch lib doc actor title) := Doc.history_transact _ _ _
  have hkeys (key : Key) (hid : key ≠ .item (mintId lib (revision doc) actor))
      (hobj : ∀ f, key ≠ .field (nextObject doc actor) f) :
      (add lib doc actor title).1.history.shown key = doc.history.shown key := by
    rw [hhistory]
    refine History.shown_writeAll_of_notMem ?_
    simp [h.addBatch_eq, hid, hobj]
  have hfield (f : Field) (value : Scalar)
      (hmem : (.field (nextObject doc actor) f, some value) ∈ addBatch lib doc actor title) :
      field (add lib doc actor title).1 (nextObject doc actor) f = some value := by
    rw [field, hhistory]
    refine History.newest_writeAll ?_ hmem
    simp [h.addBatch_eq]
  ext1 id
  by_cases hid : id = mintId lib (revision doc) actor
  · subst hid
    have htop : (add lib doc actor title).1.history.top (.item (mintId lib (revision doc) actor)) =
        some (doc.history.written actor (.item (mintId lib (revision doc) actor)) (some .map)) := by
      refine History.top_of_shown ?_
      rw [hhistory, addBatch]
      refine History.shown_writeAll_cons ?_
      simp only [List.map_append, List.mem_append, not_or, List.mem_map, not_exists, not_and]
      refine ⟨⟨fun w hw => ?_, fun w hw => ?_⟩, fun w hw => ?_⟩ <;>
        · rw [Doc.mem_put hw]
          simp
    rw [Function.update_self, task_eq, htop]
    show some (Task.mk _ _ _) = _
    rw [show (doc.history.written actor (.item (mintId lib (revision doc) actor))
      (some Scalar.map)).id = nextObject doc actor from rfl,
      hfield .created _ (by simp [h.addBatch_eq]; rfl),
      hfield .title (.text title) (by simp [h.addBatch_eq]),
      hfield .completed (.bool false) (by simp [h.addBatch_eq])]
    rfl
  · rw [Function.update_of_ne hid]
    refine task_congr (History.top_congr (hkeys _ (by simpa using hid) (by simp)))
      fun item htop f => ?_
    rw [field, field, History.newest_eq, History.newest_eq, hkeys _ (by simp)]
    intro f' heq
    -- the object was there before
    have hbefore := doc.history.counter_lt_next item
      (History.mem_shown.1 (History.mem_shown_of_top htop)).1
    have hcounter : item.counter = doc.history.next :=
      congrArg Prod.fst (Key.field.inj heq).1
    omega

theorem remove_eq_ok : remove doc actor id = .ok doc' ↔
    doc.history.shown (.item id) ≠ [] ∧ doc' = doc.commit actor [(.item id, none)] := by
  rw [ne_eq, ← History.top_eq_none]
  simp only [remove, require]
  cases doc.history.top (.item id) with
  | none => simp [bind, Except.bind]
  | some item => simp [bind, Except.bind, pure, Except.pure, Doc.transact, eq_comm]

/-- A task is removed, and nothing else is changed. -/
theorem task_remove (hremove : remove doc actor id = .ok doc') :
    task doc' = Function.update (task doc) id none := by
  obtain ⟨-, rfl⟩ := remove_eq_ok.1 hremove
  have hkeys (key : Key) (hne : key ≠ .item id) :
      (doc.commit actor [(.item id, none)]).history.shown key = doc.history.shown key :=
    History.shown_write_of_ne hne
  ext1 id'
  by_cases hid : id' = id
  · subst hid
    have hnone : (doc.commit actor [(.item id', none)]).history.shown (.item id') = [] :=
      History.shown_write_self _ none
    rw [Function.update_self, task_eq, History.top_eq_none.2 hnone]
    rfl
  · rw [Function.update_of_ne hid]
    refine task_congr (History.top_congr (hkeys _ (by simpa using hid))) fun item _ f => ?_
    rw [field, field, History.newest_eq, History.newest_eq, hkeys _ (by simp)]

/-! ## Operations -/

/-- What an app asks of its document. -/
inductive Op where
  | add (title : Bytes)
  | setCompleted (id : Bytes) (value : Bool)
  | setTitle (id value : Bytes)
  | remove (id : Bytes)

variable (lib) in
def Op.run (doc : Document) (actor : Bytes) : Op → Except Bytes Document
  | .add title => .ok (Tasks.add lib doc actor title).1
  | .setCompleted id value => Tasks.setCompleted lib doc actor id value
  | .setTitle id value => Tasks.setTitle lib doc actor id value
  | .remove id => Tasks.remove doc actor id

/-- A change of the task under an id, where there is one. -/
def edit (tasks : Bytes → Option Task) (id : Bytes) (change : Task → Option Task) :
    Except Bytes (Bytes → Option Task) :=
  match tasks id with
  | none => .error (utf8 "no task with id " ++ id)
  | some t => .ok (Function.update tasks id (change t))

/-- What an operation is for: it makes, changes or removes one task. A new task gets `id`. -/
def Op.meaning (id : Bytes) (created : ℤ) (tasks : Bytes → Option Task) :
    Op → Except Bytes (Bytes → Option Task)
  | .add title => .ok (Function.update tasks id (some ⟨created, title, false⟩))
  | .setCompleted id value => edit tasks id fun t => some { t with completed := value }
  | .setTitle id value => edit tasks id fun t => some { t with title := value }
  | .remove id => edit tasks id fun _ => none

theorem task_eq_none : task doc id = none ↔ doc.history.top (.item id) = none := by
  rw [task_eq, Option.map_eq_none_iff]

theorem run_putField (h : Grounded doc) (f : Field) (value : Scalar) :
    (putField lib doc actor id f value).map task =
      edit (task doc) id fun t => some (t.set f value) := by
  rw [edit]
  cases htask : task doc id with
  | none =>
    rw [putField, require, task_eq_none.1 htask]
    rfl
  | some t =>
    have htop : doc.history.top (.item id) ≠ none := by
      rw [ne_eq, ← task_eq_none, htask]
      simp
    obtain ⟨item, htop⟩ := Option.ne_none_iff_exists'.1 htop
    obtain ⟨hmem, hkey, hsome, -⟩ := History.mem_shown.1 (History.mem_shown_of_top htop)
    have hmap : item.value = some .map :=
      (h.items item hmem id hkey).resolve_right fun hnone => by simp [hnone] at hsome
    have hput : putField lib doc actor id f value =
        .ok (doc.transact actor (doc.put (.field item.id f) value)) :=
      putField_eq_ok.2 ⟨item, htop, hmap, rfl⟩
    have htask' := task_putField h hput
    rw [htask] at htask'
    rw [hput]
    exact congrArg Except.ok htask'

theorem run_remove : (remove doc actor id).map task = edit (task doc) id fun _ => none := by
  rw [edit]
  cases htask : task doc id with
  | none =>
    rw [remove, require, task_eq_none.1 htask]
    rfl
  | some t =>
    have hshown : doc.history.shown (.item id) ≠ [] := by
      rw [ne_eq, ← History.top_eq_none, ← task_eq_none, htask]
      simp
    have hremove : remove doc actor id = .ok (doc.commit actor [(.item id, none)]) :=
      remove_eq_ok.2 ⟨hshown, rfl⟩
    rw [hremove]
    exact congrArg Except.ok (task_remove hremove)

/-- An operation on the document is the operation on its tasks. -/
theorem run_meaning (h : Grounded doc) (op : Op) :
    (op.run lib doc actor).map task =
      op.meaning (mintId lib (revision doc) actor) (createdAt (revision doc)) (task doc) := by
  cases op with
  | add title => exact congrArg Except.ok (task_add h title)
  | setCompleted id value => exact run_putField h .completed (.bool value)
  | setTitle id value => exact run_putField h .title (.text value)
  | remove id => exact run_remove

/-- Documents with the same tasks list the same items, in the same order. -/
theorem items_congr (htask : task doc = task doc') :
    (snapshot doc).items = (snapshot doc').items := by
  have hread : readItem doc = readItem doc' := by
    ext1 id
    refine Option.ext fun item => ?_
    by_cases hid : item.2.id = id
    · subst hid
      have hsome (d : Document) := @task_eq_some d item.2.id
        ⟨item.1, item.2.title, item.2.completed⟩
      exact (hsome doc).symm.trans (htask ▸ hsome doc')
    · exact ⟨fun hitem => absurd (id_of_readItem hitem) hid,
        fun hitem => absurd (id_of_readItem hitem) hid⟩
  have hperm : (sorted doc).Perm (sorted doc') := by
    refine (List.perm_ext_iff_of_nodup ?_ ?_).2 fun item => ?_
    · exact .of_map _ (List.map_map ▸ nodup_items doc)
    · exact .of_map _ (List.map_map ▸ nodup_items doc')
    · rw [mem_sorted, mem_sorted, hread]
  refine congrArg (List.map Prod.snd) (hperm.eq_of_pairwise (fun a b ha hb hab hba => ?_)
    (pairwise_sorted doc) (pairwise_sorted doc'))
  -- two items at one place of the order have one id
  have hid : a.2.id = b.2.id := by
    obtain hlt | ⟨heq, hle⟩ := hab <;> obtain hlt' | ⟨heq', hle'⟩ := hba
    · omega
    · omega
    · omega
    · exact Std.le_antisymm hle hle'
  rw [mem_sorted] at ha hb
  rw [hid, hread, hb] at ha
  exact (Option.some.inj ha).symm

end Polyvisor.Tasks
