import Polyvisor.Engine.Storage

/-!
# The local journal

`EngineControl`, `EngineDelta` and `JournalState` of `engine/src/lib.rs`, and the meaning both
the journal and the storage have: a partial map from item keys to items, on which a mutation
acts. `Contents`, `StorageMutation.act` and `replay` are that meaning.

## Main results

* `JournalState.contents_apply`: applying a delta replays its mutations on the contents.
* `SnapshotStorage.Writes`: a storage operation changed the contents exactly by the mutations
  it pushed. `writes_persistItems`, `writes_restore`, `writes_prune` and `writes_forgetTree` are
  the one specification each mutator has.
-/

namespace Polyvisor

open Std

variable {B : Type}

/-- `vault::VaultState`, as far as the journal carries it: the archive and the frontier are
opaque to it. -/
structure EngineControl (V : Type) where
  /-- The partitions with an open document. -/
  partitions : List String
  /-- The device's keyhive, if it has one. -/
  vault : Option V
  /-- The group's store-name key. -/
  nameKey : Option Bytes32
  deriving DecidableEq

/-- One journal record. -/
structure EngineDelta (B V : Type) where
  /-- The control record, whole. -/
  control : EngineControl V
  /-- The storage mutations since the last record, in order. -/
  mutations : List (StorageMutation B)
  deriving DecidableEq

/-- `JournalState`: what replaying the records so far gives. -/
structure JournalState (B V : Type) where
  /-- The last record's control. -/
  control : Option (EngineControl V) := none
  /-- The stored items. -/
  items : ExtTreeMap ItemKey (StoreItem B) := ∅

/-! ### Contents -/

/-- What a store holds: at most one item under each key. -/
abbrev Contents (B : Type) := ItemKey → Option (StoreItem B)

/-- What a mutation does to the contents. -/
def StorageMutation.act (m : StorageMutation B) (c : Contents B) : Contents B :=
  fun k => match m with
    | .put item => if k = item.key then some item else c k
    | .remove key => if k = key then none else c k
    | .forgetTree t => if k.tree = t then none else c k

/-- What a list of mutations does to the contents, first to last. -/
def replay (ms : List (StorageMutation B)) (c : Contents B) : Contents B :=
  ms.foldl (fun c m => m.act c) c

@[simp]
theorem replay_nil (c : Contents B) : replay [] c = c := rfl

@[simp]
theorem replay_cons (m : StorageMutation B) (ms : List (StorageMutation B)) (c : Contents B) :
    replay (m :: ms) c = replay ms (m.act c) := rfl

/-- Replaying two lists one after the other replays their concatenation. -/
theorem replay_append (ms ms' : List (StorageMutation B)) (c : Contents B) :
    replay (ms ++ ms') c = replay ms' (replay ms c) := by
  simp [replay]

/-- Whether a mutation decides what a key holds. -/
def StorageMutation.Touches (m : StorageMutation B) (k : ItemKey) : Prop :=
  match m with
  | .put item => k = item.key
  | .remove key => k = key
  | .forgetTree t => k.tree = t

/-- What a mutation leaves under a key it touches. -/
def StorageMutation.leaves : StorageMutation B → Option (StoreItem B)
  | .put item => some item
  | .remove _ => none
  | .forgetTree _ => none

theorem StorageMutation.act_of_touches {m : StorageMutation B} {k : ItemKey} (h : m.Touches k)
    (c : Contents B) : m.act c k = m.leaves := by
  cases m with
  | put item => exact if_pos h
  | remove key => exact if_pos h
  | forgetTree t => exact if_pos h

theorem StorageMutation.act_of_not_touches {m : StorageMutation B} {k : ItemKey}
    (h : ¬ m.Touches k) (c : Contents B) : m.act c k = c k := by
  cases m with
  | put item => exact if_neg h
  | remove key => exact if_neg h
  | forgetTree t => exact if_neg h

theorem replay_of_not_touches {ms : List (StorageMutation B)} {k : ItemKey}
    (h : ∀ m ∈ ms, ¬ m.Touches k) (c : Contents B) : replay ms c k = c k := by
  induction ms generalizing c with
  | nil => rfl
  | cons m ms ih =>
    rw [replay_cons, ih fun m' hm' => h m' (List.mem_cons_of_mem m hm')]
    exact m.act_of_not_touches (h m List.mem_cons_self) c

/-- The last mutation that touches a key decides what it holds. -/
theorem replay_of_touches {before after : List (StorageMutation B)} {m : StorageMutation B}
    {k : ItemKey} (hm : m.Touches k) (hafter : ∀ m' ∈ after, ¬ m'.Touches k) (c : Contents B) :
    replay (before ++ m :: after) c k = m.leaves := by
  rw [replay_append, replay_cons, replay_of_not_touches hafter]
  exact m.act_of_touches hm _

/-! ### The journal -/

namespace JournalState

variable {V : Type}

/-- What a journal holds. -/
def contents (j : JournalState B V) : Contents B :=
  fun k => j.items[k]?

/-- One mutation of `JournalState::apply`. -/
def applyMutation (items : ExtTreeMap ItemKey (StoreItem B)) :
    StorageMutation B → ExtTreeMap ItemKey (StoreItem B)
  | .put item => items.insert item.key item
  | .remove key => items.erase key
  | .forgetTree t => items.filter fun k _ => k.tree != t

/-- `JournalState::apply`. -/
def apply (j : JournalState B V) (delta : EngineDelta B V) : JournalState B V :=
  { control := some delta.control, items := delta.mutations.foldl applyMutation j.items }

/-- A journal mutation is the mutation's action on the contents. -/
theorem getElem?_applyMutation (items : ExtTreeMap ItemKey (StoreItem B))
    (m : StorageMutation B) (k : ItemKey) :
    (applyMutation items m)[k]? = m.act (fun k => items[k]?) k := by
  cases m with
  | put item =>
    simp only [applyMutation, StorageMutation.act, ExtTreeMap.getElem?_insert,
      LawfulEqOrd.compare_eq_iff_eq]
    by_cases h : k = item.key
    · simp [h]
    · simp [h, Ne.symm h]
  | remove key =>
    simp only [applyMutation, StorageMutation.act, ExtTreeMap.getElem?_erase,
      LawfulEqOrd.compare_eq_iff_eq]
    by_cases h : k = key
    · simp [h]
    · simp [h, Ne.symm h]
  | forgetTree t =>
    simp only [applyMutation, StorageMutation.act, ExtTreeMap.getElem?_filter']
    by_cases h : k.tree = t
    · cases hk : items[k]? <;> simp [h, Option.filter]
    · cases hk : items[k]? <;> simp [h, Option.filter]

/-- The action of a list of journal mutations on the contents. -/
theorem getElem?_foldl_applyMutation (ms : List (StorageMutation B))
    (items : ExtTreeMap ItemKey (StoreItem B)) :
    (fun k => (ms.foldl applyMutation items)[k]?) = replay ms fun k => items[k]? := by
  induction ms generalizing items with
  | nil => rfl
  | cons m ms ih =>
    rw [List.foldl_cons, ih, replay_cons]
    congr 1
    funext k
    exact getElem?_applyMutation items m k

/-- Applying a delta replays its mutations. -/
theorem contents_apply (j : JournalState B V) (delta : EngineDelta B V) :
    (j.apply delta).contents = replay delta.mutations j.contents :=
  getElem?_foldl_applyMutation delta.mutations j.items

/-- Applying deltas in turn replays their mutations in turn. -/
theorem contents_foldl_apply (j : JournalState B V) (deltas : List (EngineDelta B V)) :
    (deltas.foldl apply j).contents = replay (deltas.flatMap (·.mutations)) j.contents := by
  induction deltas generalizing j with
  | nil => rfl
  | cons delta deltas ih =>
    rw [List.foldl_cons, ih, contents_apply, List.flatMap_cons, replay_append]

end JournalState

/-! ### The storage -/

namespace SnapshotStorage

/-- What one tree holds under an id and a kind. -/
def treeItem (t : TreeId) (tree : Tree B) (id : CommitId) : ItemKind → Option (StoreItem B)
  | .commit => tree.commits[id]?.map fun item => ⟨t, id, item.1.bytes, item.2, .commit⟩
  | .fragment => tree.fragments[id]?.map fun item => ⟨t, id, item.1.bytes, item.2, .fragment⟩

/-- What a storage holds. -/
def contents (s : SnapshotStorage B) : Contents B :=
  fun k => treeItem k.tree (s.tree k.tree) k.commit k.kind

/-- `s'` came from `s` by pushing the mutations `ms` and changing the contents by them, and by
nothing else. -/
structure Writes (s s' : SnapshotStorage B) (ms : List (StorageMutation B)) : Prop where
  /-- The mutations are the new end of the pending list. -/
  pending : s'.pending = s.pending ++ ms
  /-- They account for the whole change of the contents. -/
  contents : s'.contents = replay ms s.contents
  /-- The cut did not move. -/
  settled : s'.settled = s.settled

/-- Doing nothing writes nothing. -/
theorem Writes.refl (s : SnapshotStorage B) : Writes s s [] :=
  ⟨by simp, rfl, rfl⟩

/-- Writing twice writes both lists. -/
theorem Writes.trans {s s' s'' : SnapshotStorage B} {ms ms' : List (StorageMutation B)}
    (h : Writes s s' ms) (h' : Writes s' s'' ms') : Writes s s'' (ms ++ ms') :=
  ⟨by rw [h'.pending, h.pending, List.append_assoc],
    by rw [h'.contents, h.contents, replay_append],
    h'.settled.trans h.settled⟩

@[simp]
theorem tree_write_self (s : SnapshotStorage B) (t : TreeId) (tree : Tree B)
    (m : StorageMutation B) : (s.write t tree m).tree t = tree := by
  simp [write, SnapshotStorage.tree, ExtTreeMap.getD_insert_self]

@[simp]
theorem tree_write_of_ne (s : SnapshotStorage B) {t t' : TreeId} (tree : Tree B)
    (m : StorageMutation B) (h : t' ≠ t) : (s.write t tree m).tree t' = s.tree t' := by
  simp [write, SnapshotStorage.tree, ExtTreeMap.getD_insert, Ne.symm h]

/-- A write that replaces one tree writes its record, if the record says what happened to the
tree. -/
theorem writes_write (s : SnapshotStorage B) (t : TreeId) (tree : Tree B)
    (m : StorageMutation B)
    (hin : ∀ id kind, treeItem t tree id kind = m.act s.contents ⟨t, id, kind⟩)
    (hout : ∀ k : ItemKey, k.tree ≠ t → m.act s.contents k = s.contents k) :
    Writes s (s.write t tree m) [m] := by
  refine ⟨rfl, ?_, rfl⟩
  funext k
  obtain ⟨t', id, kind⟩ := k
  rw [replay_cons, replay_nil]
  by_cases h : t' = t
  · subst h
    rw [← hin id kind, contents, tree_write_self]
  · rw [hout _ h, contents, contents, tree_write_of_ne s tree m h]

/-- Filing a commit writes one `put`. -/
theorem writes_insertCommit (s : SnapshotStorage B) (t : TreeId) (head : CommitId)
    (item : Signed LooseCommit × B) :
    Writes s (s.insertCommit t head item) [.put ⟨t, head, item.1.bytes, item.2, .commit⟩] := by
  apply writes_write
  · intro id kind
    cases kind with
    | commit =>
      by_cases h : id = head
      · simp [treeItem, StorageMutation.act, StoreItem.key, h]
      · simp [treeItem, StorageMutation.act, StoreItem.key, contents, h, Ne.symm h,
          ExtTreeMap.getElem?_insert]
    | fragment => simp [treeItem, StorageMutation.act, StoreItem.key, contents]
  · intro k hk
    have hne : k ≠ ⟨t, head, .commit⟩ := fun h => hk (h ▸ rfl)
    simp [StorageMutation.act, StoreItem.key, hne]

/-- Filing a fragment writes one `put`. -/
theorem writes_insertFragment (s : SnapshotStorage B) (t : TreeId) (head : CommitId)
    (item : Signed Fragment × B) :
    Writes s (s.insertFragment t head item)
      [.put ⟨t, head, item.1.bytes, item.2, .fragment⟩] := by
  apply writes_write
  · intro id kind
    cases kind with
    | commit => simp [treeItem, StorageMutation.act, StoreItem.key, contents]
    | fragment =>
      by_cases h : id = head
      · simp [treeItem, StorageMutation.act, StoreItem.key, h]
      · simp [treeItem, StorageMutation.act, StoreItem.key, contents, h, Ne.symm h,
          ExtTreeMap.getElem?_insert]
  · intro k hk
    have hne : k ≠ ⟨t, head, .fragment⟩ := fun h => hk (h ▸ rfl)
    simp [StorageMutation.act, StoreItem.key, hne]

/-- Dropping a commit writes one `remove`. -/
theorem writes_removeCommit (s : SnapshotStorage B) (t : TreeId) (id : CommitId) :
    Writes s (s.removeCommit t id) [.remove ⟨t, id, .commit⟩] := by
  apply writes_write
  · intro id' kind
    cases kind with
    | commit =>
      by_cases h : id' = id
      · simp [treeItem, StorageMutation.act, h]
      · simp [treeItem, StorageMutation.act, contents, h, Ne.symm h, ExtTreeMap.getElem?_erase]
    | fragment => simp [treeItem, StorageMutation.act, contents]
  · intro k hk
    have hne : k ≠ ⟨t, id, .commit⟩ := fun h => hk (h ▸ rfl)
    simp [StorageMutation.act, hne]

/-- Forgetting a tree writes one `forgetTree`. -/
theorem writes_forgetTree (s : SnapshotStorage B) (t : TreeId) :
    Writes s (s.forgetTree t) [.forgetTree t] := by
  refine ⟨rfl, ?_, rfl⟩
  funext k
  obtain ⟨t', id, kind⟩ := k
  by_cases h : t' = t
  · cases kind <;> simp [forgetTree, contents, SnapshotStorage.tree, treeItem,
      StorageMutation.act, h]
  · simp [forgetTree, contents, SnapshotStorage.tree, StorageMutation.act, h, Ne.symm h,
      ExtTreeMap.getD_erase]

/-- Creating an empty entry writes nothing. -/
theorem writes_ensureTree (s : SnapshotStorage B) (t : TreeId) : Writes s (s.ensureTree t) [] := by
  refine ⟨by simp [ensureTree], ?_, rfl⟩
  funext k
  by_cases h : k.tree = t
  · simp [ensureTree, contents, SnapshotStorage.tree, h]
  · simp [ensureTree, contents, SnapshotStorage.tree, ExtTreeMap.getD_insert, Ne.symm h]

/-- A loop of writes writes. -/
theorem writes_foldl {α : Type} (f : SnapshotStorage B → α → SnapshotStorage B)
    (hf : ∀ s a, ∃ ms, Writes s (f s a) ms) (s : SnapshotStorage B) (l : List α) :
    ∃ ms, Writes s (l.foldl f s) ms := by
  induction l generalizing s with
  | nil => exact ⟨[], .refl s⟩
  | cons a l ih =>
    obtain ⟨ms, h⟩ := hf s a
    obtain ⟨ms', h'⟩ := ih (f s a)
    exact ⟨ms ++ ms', h.trans h'⟩

/-- The commit loop of `persist_items` writes, also when it ends in an error. -/
theorem writes_persistCommits (codec : Codec B) (t : TreeId) (s : SnapshotStorage B)
    (commits : List (Signed LooseCommit × B)) (stored : ℕ) :
    ∃ ms, Writes s (persistCommits codec t s commits stored).1 ms := by
  induction commits generalizing s stored with
  | nil => exact ⟨[], .refl s⟩
  | cons item rest ih =>
    obtain ⟨signed, blob⟩ := item
    rw [persistCommits]
    cases s.admitCommit codec t signed blob with
    | none => exact ⟨[], .refl s⟩
    | some payload =>
      obtain ⟨ms, h⟩ := ih (s.insertCommit t payload.head (signed, blob)) (stored + 1)
      exact ⟨_, (writes_insertCommit s t payload.head (signed, blob)).trans h⟩

/-- The fragment loop of `persist_items` writes, also when it ends in an error. -/
theorem writes_persistFragments (t : TreeId) (s : SnapshotStorage B)
    (fragments : List (Signed Fragment × B)) (stored : ℕ) :
    ∃ ms, Writes s (persistFragments t s fragments stored).1 ms := by
  induction fragments generalizing s stored with
  | nil => exact ⟨[], .refl s⟩
  | cons item rest ih =>
    obtain ⟨signed, blob⟩ := item
    rw [persistFragments]
    cases s.admitFragment t signed with
    | none => exact ⟨[], .refl s⟩
    | some payload =>
      obtain ⟨ms, h⟩ := ih (s.insertFragment t payload.head (signed, blob)) (stored + 1)
      exact ⟨_, (writes_insertFragment s t payload.head (signed, blob)).trans h⟩

/-- `persist_items` writes, whether it answers `Ok` or an error. -/
theorem writes_persistItems (codec : Codec B) (s : SnapshotStorage B) (t : TreeId)
    (commits : List (Signed LooseCommit × B)) (fragments : List (Signed Fragment × B)) :
    ∃ ms, Writes s (s.persistItems codec t commits fragments).1 ms := by
  unfold persistItems
  split
  · exact ⟨[], .refl s⟩
  split
  · exact ⟨[], .refl s⟩
  obtain ⟨ms, h⟩ := writes_persistCommits codec t (s.ensureTree t) commits 0
  have hc := (writes_ensureTree s t).trans h
  split
  next s' e heq => exact ⟨_, by rwa [heq] at hc⟩
  next s' stored heq =>
    rw [heq] at hc
    obtain ⟨ms', h'⟩ := writes_persistFragments t s' fragments stored
    exact ⟨_, hc.trans h'⟩

/-- `restore` writes. -/
theorem writes_restore (codec : Codec B) (s : SnapshotStorage B) (t : TreeId)
    (commits fragments : List (Item B)) :
    ∃ ms, Writes s (s.restore codec t commits fragments) ms := by
  unfold restore
  split
  · exact ⟨[], .refl s⟩
  obtain ⟨ms, h⟩ := writes_foldl (fun s (x : CommitId × Signed LooseCommit × B) =>
    s.insertCommit t x.1 x.2) (fun s x => ⟨_, writes_insertCommit s t x.1 x.2⟩) (s.ensureTree t)
    (s.acceptedCommits codec t commits)
  obtain ⟨ms', h'⟩ := writes_foldl (fun s (x : CommitId × Signed Fragment × B) =>
    s.insertFragment t x.1 x.2) (fun s x => ⟨_, writes_insertFragment s t x.1 x.2⟩) _
    (acceptedFragments codec fragments)
  exact ⟨_, ((writes_ensureTree s t).trans h).trans h'⟩

/-- `prune` writes. -/
theorem writes_prune (codec : Codec B) (s : SnapshotStorage B) (t : TreeId) :
    ∃ ms, Writes s (s.prune codec t).1 ms :=
  writes_foldl (fun s id => s.removeCommit t id) (fun s id => ⟨_, writes_removeCommit s t id⟩) s _

end SnapshotStorage

end Polyvisor
