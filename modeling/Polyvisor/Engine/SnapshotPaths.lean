import Polyvisor.Engine.Persistence
import Polyvisor.Engine.Reinstating

/-!
# The two snapshots of an engine

`Engine::snapshot` asks the open documents for their trees, `JournalState::snapshot` sorts the items
by the trees that they name. What the first leaves out, an engine built on it does not hold: the
items of a tree that no open document is bound to, which a device may get before it has opened the
document.

The engine stands here with its storage, its journal, its documents and its `us` document. The
journal of a state is the one with all that is pending written, under the control record of that
state.

## Main results

* `itemsOf_eq_treeItems`: storage and journal list a tree's items in the same order.
* `replay_opaques`: both put the same of the opaque trees.
* `complete_iff_bound`: the two snapshots restore the same iff every item that decodes is in a
  tree that something is bound to.
-/

open Std

namespace Polyvisor

variable {B V Us : Type}

/-! ## The storage's snapshot -/

namespace SnapshotStorage

/-- `items(..)`: the stored items of a tree and kind, in key order. -/
def itemsOf (s : SnapshotStorage B) (t : TreeId) : ItemKind → List (Item B)
  | .commit => (s.tree t).commits.values.map fun (signed, blob) => ⟨signed.bytes, blob⟩
  | .fragment => (s.tree t).fragments.values.map fun (signed, blob) => ⟨signed.bytes, blob⟩

/-- `tree_state`. -/
def treeState (s : SnapshotStorage B) (t : TreeId) (doc : Bytes) : TreeState B where
  doc := doc
  commits := s.itemsOf t .commit
  fragments := s.itemsOf t .fragment

/-- `snapshot`, of the documents with their trees and what they save. -/
def snapshot (sha : Sha256) (s : SnapshotStorage B) (apps : List (String × TreeId × Bytes))
    (us : Option (TreeId × Bytes)) (keyhive : Option TreeId) (vault : Option V)
    (nameKey : Option Bytes32) : Snapshot B V where
  apps := apps.map fun (app, tree, doc) =>
    { app := app
      state := s.treeState tree doc
      authority :=
        if (sharedDocument app).join.isSome then
          (s.treeState (sharedAuthorityTree sha app) []).commits
        else [] }
  us := us.map fun (tree, doc) => s.treeState tree doc
  keyhive := keyhive.map fun tree => s.treeState tree []
  vault := vault
  nameKey := nameKey
  opaques := (s.trees.keys.filter fun tree => Opaque.status s.lifecycle tree = some true).map
    fun tree => ⟨tree, s.itemsOf tree .commit⟩
  unbound := []

end SnapshotStorage

/-! ## The engine -/

/-- What the engine asks of the `us` document. -/
structure UsDocument (B Us : Type) extends Replay.UsDocs B Us where
  /-- `UsDoc::save`. -/
  save : Us → Bytes

/-- The engine, as far as its snapshots read it. -/
structure Live (B V Us : Type) where
  journalled : JournalledEngine B V
  /-- The open documents, with what each saves. -/
  documents : ExtTreeMap String Bytes := ∅
  us : Option Us := none
  /-- The state of the vault, restored or running. -/
  vault : Option V := none
  nameKey : Option Bytes32 := none

namespace Live

variable (sha : Sha256) (codec : Codec B) (docs : UsDocument B Us)

def storage (s : Live B V Us) : SnapshotStorage B :=
  s.journalled.persistence.storage

def registers (s : Live B V Us) : ExtTreeMap SlotHash RegisterValue :=
  s.storage.lifecycle.registers

/-- `Engine::snapshot`. -/
def snapshot (s : Live B V Us) : Snapshot B V :=
  s.storage.snapshot sha (s.documents.toList.map fun (app, doc) => (app, documentTree sha app, doc))
    (s.us.map fun us => (usTree sha, docs.save us))
    (if s.vault.isSome then some (keyhiveTree sha) else none) s.vault s.nameKey

/-- The journal once all that is pending is written. -/
def journal (s : Live B V Us) : JournalState B V :=
  s.journalled.journal.apply
    { control :=
        { partitions := s.documents.keys, vault := s.vault, nameKey := s.nameKey }
      mutations := s.storage.pending }

/-- An engine on either snapshot holds the same items under the same trees. -/
def Complete (s : Live B V Us) : Prop :=
  (Replay.Engine.new sha codec docs.toUsDocs (some (s.snapshot sha docs))).storage.contents =
    (Replay.Engine.new sha codec docs.toUsDocs (s.journal.snapshot sha)).storage.contents

/-- An open document, the group, or its keyhive reads the tree. -/
def Bound (s : Live B V Us) (t : TreeId) : Prop :=
  (∃ p ∈ s.documents, t = documentTree sha p ∨
    (sharedDocument p).join.isSome ∧ t = sharedAuthorityTree sha p) ∨
  t = usTree sha ∧ s.us.isSome ∨ t = keyhiveTree sha ∧ s.vault.isSome

/-- `restore` finds an item to reinstate in the tree. -/
def Decodes (s : Live B V Us) (t : TreeId) : Prop :=
  ({} : SnapshotStorage B).acceptedCommits codec t (s.storage.itemsOf t .commit) ≠ [] ∨
    SnapshotStorage.acceptedFragments codec (s.storage.itemsOf t .fragment) ≠ []

/-- The registers of a `us` document that takes up what the stored items of its tree carry. -/
def readRegisters (s : Live B V Us) (us : Us) : ExtTreeMap SlotHash RegisterValue :=
  let restored := ({} : SnapshotStorage B).restore codec (usTree sha)
    (s.storage.itemsOf (usTree sha) .commit) (s.storage.itemsOf (usTree sha) .fragment)
  docs.opaqueRegisters (docs.absorb us (restored.fragmentBlobs (usTree sha))
    (restored.commitBlobs (usTree sha)))

/-- The registers that come back with the saved `us` document. -/
def savedRegisters (s : Live B V Us) : ExtTreeMap SlotHash RegisterValue :=
  (s.us.map fun us => s.readRegisters sha codec docs (docs.load (docs.save us))).getD ∅

/-- The registers that come back from the tree of the `us` document alone. -/
def storedRegisters (s : Live B V Us) : ExtTreeMap SlotHash RegisterValue :=
  if s.storage.itemsOf (usTree sha) .commit = [] ∧
      s.storage.itemsOf (usTree sha) .fragment = [] then ∅
  else s.readRegisters sha codec docs (docs.load [])

/-- The `us` document and its tree say the same, and no tree is stored that only what the engine
has not read yet makes current. -/
structure InStep (s : Live B V Us) : Prop where
  same : s.savedRegisters sha codec docs = s.storedRegisters sha codec docs
  current : ∀ t, s.storage.itemsOf t .commit ≠ [] →
    Opaque.status { registers := s.savedRegisters sha codec docs } t = some true →
      Opaque.status s.storage.lifecycle t = some true

end Live

/-- The group's own two trees are two, in none of the namespaces that the first byte of a tree tells
apart. -/
structure RootsPlain (sha : Sha256) : Prop where
  apart : usTree sha ≠ keyhiveTree sha
  us : (usTree sha).firstByte ∉ [0, sharedTreeTag, sharedAuthorityTreeTag, 0x4F]
  keyhive : (keyhiveTree sha).firstByte ∉ [0, sharedTreeTag, sharedAuthorityTreeTag, 0x4F]

/-! ## The same lists -/

/-- Two lists in strictly ascending order of a key, with the same entries, are the same. -/
theorem eq_of_ascending {α κ : Type} [Ord κ] [TransOrd κ] [LawfulEqOrd κ] {key : α → κ}
    {l l' : List α} (h : l.Pairwise fun a b => compare (key a) (key b) = .lt)
    (h' : l'.Pairwise fun a b => compare (key a) (key b) = .lt) (hmem : ∀ a, a ∈ l ↔ a ∈ l') :
    l = l' := by
  have hirrefl : ∀ a : κ, compare a a ≠ .lt := fun a hlt => by
    have hself : compare a a = .eq := LawfulEqOrd.compare_eq_iff_eq.2 rfl
    exact nomatch hself.symm.trans hlt
  have hnodup : ∀ l : List α, l.Pairwise (fun a b => compare (key a) (key b) = .lt) → l.Nodup := by
    intro l hl
    refine hl.imp fun hlt => ?_
    rintro rfl
    exact hirrefl _ hlt
  have hperm : l.Perm l' := (List.perm_ext_iff_of_nodup (hnodup l h) (hnodup l' h')).2 hmem
  refine hperm.eq_of_pairwise (fun a b _ _ hlt hgt => ?_) h h'
  exact absurd (TransCmp.lt_trans hlt hgt) (hirrefl _)

namespace SnapshotStorage

/-- The stored items of a tree and kind, each with its id. -/
def keyedItems (s : SnapshotStorage B) (t : TreeId) : ItemKind → List (CommitId × Item B)
  | .commit => (s.tree t).commits.toList.map fun (id, signed, blob) => (id, ⟨signed.bytes, blob⟩)
  | .fragment =>
    (s.tree t).fragments.toList.map fun (id, signed, blob) => (id, ⟨signed.bytes, blob⟩)

theorem itemsOf_eq (s : SnapshotStorage B) (t : TreeId) (kind : ItemKind) :
    s.itemsOf t kind = (s.keyedItems t kind).map Prod.snd := by
  cases kind
  · rw [itemsOf, keyedItems, values_eq_map_snd, List.map_map, List.map_map]
    rfl
  · rw [itemsOf, keyedItems, values_eq_map_snd, List.map_map, List.map_map]
    rfl

theorem ascending_keyedItems (s : SnapshotStorage B) (t : TreeId) (kind : ItemKind) :
    (s.keyedItems t kind).Pairwise fun a b => compare a.1 b.1 = .lt := by
  cases kind
  · exact List.pairwise_map.2 ExtTreeMap.ordered_keys_toList
  · exact List.pairwise_map.2 ExtTreeMap.ordered_keys_toList

theorem mem_keyed {T : Type} {m : ExtTreeMap CommitId (Signed T × B)} {id : CommitId}
    {signed : Bytes} {blob : B} :
    (id, (⟨signed, blob⟩ : Item B)) ∈
        m.toList.map (fun (id, signed, blob) => (id, ⟨signed.bytes, blob⟩)) ↔
      ∃ item : Signed T × B, m[id]? = some item ∧ item.1.bytes = signed ∧ item.2 = blob := by
  rw [List.mem_map]
  constructor
  · rintro ⟨⟨id', item⟩, hmem, heq⟩
    simp only [Prod.mk.injEq, Item.mk.injEq] at heq
    obtain ⟨rfl, rfl, rfl⟩ := heq
    exact ⟨item, ExtTreeMap.mem_toList_iff_getElem?_eq_some.1 hmem, rfl, rfl⟩
  · rintro ⟨item, hitem, rfl, rfl⟩
    exact ⟨(id, item), ExtTreeMap.mem_toList_iff_getElem?_eq_some.2 hitem, rfl⟩

theorem mem_keyedItems {s : SnapshotStorage B} {t : TreeId} {kind : ItemKind}
    {a : CommitId × Item B} : a ∈ s.keyedItems t kind ↔
      s.contents ⟨t, a.1, kind⟩ = some ⟨t, a.1, a.2.signed, a.2.blob, kind⟩ := by
  obtain ⟨id, signed, blob⟩ := a
  cases kind
  · rw [keyedItems, mem_keyed]
    simp [contents, treeItem]
  · rw [keyedItems, mem_keyed]
    simp [contents, treeItem]

end SnapshotStorage

/-- The keys of one tree and kind are in the order of their ids. -/
theorem compare_itemKey (t : TreeId) (kind : ItemKind) (a b : CommitId) :
    compare (⟨t, a, kind⟩ : ItemKey) ⟨t, b, kind⟩ = compare a b := by
  have htree : compare t t = .eq := LawfulEqOrd.compare_eq_iff_eq.2 rfl
  have hkind : compare kind.index kind.index = .eq := LawfulEqOrd.compare_eq_iff_eq.2 rfl
  show (compare t t).then ((compare a b).then (compare kind.index kind.index)) = compare a b
  rw [htree, hkind]
  cases compare a b <;> rfl

namespace JournalState

/-- The journal's items of a tree and kind, each with its id. -/
def keyedItems (j : JournalState B V) (t : TreeId) (kind : ItemKind) : List (CommitId × Item B) :=
  (j.items.toList.filter fun (_, item) => item.tree = t ∧ item.kind = kind).map fun (key, item) =>
    (key.commit, ⟨item.signed, item.blob⟩)

theorem treeItems_eq (j : JournalState B V) (t : TreeId) (kind : ItemKind) :
    j.treeItems t kind = (j.keyedItems t kind).map Prod.snd := by
  rw [treeItems, keyedItems, SnapshotStorage.values_eq_map_snd, List.filter_map, List.map_map,
    List.map_map]
  rfl

theorem ascending_keyedItems {j : JournalState B V} (hkeyed : Replay.Keyed j.contents) (t : TreeId)
    (kind : ItemKind) : (j.keyedItems t kind).Pairwise fun a b => compare a.1 b.1 = .lt := by
  refine List.pairwise_map.2 (List.pairwise_filter.2 ?_)
  refine (ExtTreeMap.ordered_keys_toList (t := j.items)).imp_of_mem
    fun {a b} ha hb hlt hka hkb => ?_
  have hitem : ∀ entry ∈ j.items.toList, entry.2.tree = t → entry.2.kind = kind →
      entry.1 = ⟨t, entry.1.commit, kind⟩ := by
    rintro ⟨key, item⟩ hmem rfl rfl
    have hkey := hkeyed key item (ExtTreeMap.mem_toList_iff_getElem?_eq_some.1 hmem)
    rw [← hkey]
    rfl
  rw [hitem a ha (of_decide_eq_true hka).1 (of_decide_eq_true hka).2,
    hitem b hb (of_decide_eq_true hkb).1 (of_decide_eq_true hkb).2, compare_itemKey] at hlt
  exact hlt

theorem mem_keyedItems {j : JournalState B V} (hkeyed : Replay.Keyed j.contents) {t : TreeId}
    {kind : ItemKind} {a : CommitId × Item B} : a ∈ j.keyedItems t kind ↔
      j.contents ⟨t, a.1, kind⟩ = some ⟨t, a.1, a.2.signed, a.2.blob, kind⟩ := by
  obtain ⟨id, signed, blob⟩ := a
  simp only [keyedItems, List.mem_map, List.mem_filter]
  constructor
  · rintro ⟨⟨key, item⟩, ⟨hmem, hof⟩, heq⟩
    have hget : j.contents key = some item := ExtTreeMap.mem_toList_iff_getElem?_eq_some.1 hmem
    obtain ⟨rfl, rfl⟩ := of_decide_eq_true hof
    obtain rfl := hkeyed key item hget
    simp only [Prod.mk.injEq, Item.mk.injEq] at heq
    obtain ⟨rfl, rfl, rfl⟩ := heq
    exact hget
  · intro hget
    exact ⟨(_, _), ⟨ExtTreeMap.mem_toList_iff_getElem?_eq_some.2 hget, decide_eq_true ⟨rfl, rfl⟩⟩,
      rfl⟩

end JournalState

theorem keyed_contents (s : SnapshotStorage B) : Replay.Keyed s.contents := by
  rintro ⟨t, id, _ | _⟩ item hitem
  · obtain ⟨entry, -, rfl⟩ := Option.map_eq_some_iff.1 hitem
    rfl
  · obtain ⟨entry, -, rfl⟩ := Option.map_eq_some_iff.1 hitem
    rfl

/-- Storage and journal list the items of a tree in the same order. -/
theorem itemsOf_eq_treeItems {s : SnapshotStorage B} {j : JournalState B V}
    (h : j.contents = s.contents) (t : TreeId) (kind : ItemKind) :
    s.itemsOf t kind = j.treeItems t kind := by
  have hkeyed : Replay.Keyed j.contents := h ▸ keyed_contents s
  rw [s.itemsOf_eq, j.treeItems_eq]
  congr 1
  refine eq_of_ascending (s.ascending_keyedItems t kind)
    (JournalState.ascending_keyedItems hkeyed t kind) fun a => ?_
  rw [SnapshotStorage.mem_keyedItems, JournalState.mem_keyedItems hkeyed, h]

/-! ## The group's trees -/

variable {sha : Sha256} {codec : Codec B}

namespace RootsPlain

theorem ne_documentTree (h : RootsPlain sha) (p : String) :
    usTree sha ≠ documentTree sha p ∧ keyhiveTree sha ≠ documentTree sha p := by
  have hbyte := Replay.firstByte_documentTree sha p
  constructor
  · intro heq
    refine h.us ?_
    rw [heq]
    rcases hbyte with hbyte | hbyte <;> rw [hbyte] <;> decide
  · intro heq
    refine h.keyhive ?_
    rw [heq]
    rcases hbyte with hbyte | hbyte <;> rw [hbyte] <;> decide

theorem ne_sharedAuthorityTree (h : RootsPlain sha) (p : String) :
    usTree sha ≠ sharedAuthorityTree sha p ∧ keyhiveTree sha ≠ sharedAuthorityTree sha p := by
  have hbyte := Replay.firstByte_sharedAuthorityTree sha p
  constructor
  · intro heq
    refine h.us ?_
    rw [heq, hbyte]
    decide
  · intro heq
    refine h.keyhive ?_
    rw [heq, hbyte]
    decide

theorem not_isOpaqueTree (h : RootsPlain sha) : Opaque.isOpaqueTree (usTree sha) = false ∧
    Opaque.isOpaqueTree (keyhiveTree sha) = false := by
  constructor
  · refine Bool.eq_false_iff.2 fun hopq => h.us ?_
    rw [Replay.firstByte_of_isOpaqueTree hopq]
    decide
  · refine Bool.eq_false_iff.2 fun hopq => h.keyhive ?_
    rw [Replay.firstByte_of_isOpaqueTree hopq]
    decide

end RootsPlain

/-- The apps leave the group's tree alone. -/
theorem tree_foldl_restoreApp (hroots : RootsPlain sha) (apps : List (AppState B))
    (r : Replay.Restoring B) :
    (apps.foldl (Replay.Restoring.restoreApp sha codec) r).storage.tree (usTree sha) =
      r.storage.tree (usTree sha) := by
  induction apps generalizing r with
  | nil => rfl
  | cons app apps ih =>
    rw [List.foldl_cons, ih]
    unfold Replay.Restoring.restoreApp
    split
    · exact Replay.tree_restore_of_ne (hroots.ne_documentTree app.app).1 _ _
    · exact (Replay.tree_restore_of_ne (hroots.ne_sharedAuthorityTree app.app).1 _ _).trans
        (Replay.tree_restore_of_ne (hroots.ne_documentTree app.app).1 _ _)

/-- The registers that a snapshot's `us` state comes to. -/
theorem restoredRegisters_some (hroots : RootsPlain sha) (docs : Replay.UsDocs B Us)
    {snapshot : Snapshot B V} {state : TreeState B} (hus : snapshot.us = some state) :
    Replay.restoredRegisters sha codec docs snapshot =
      docs.opaqueRegisters (docs.absorb (docs.load state.doc)
        ((({} : SnapshotStorage B).restore codec (usTree sha) state.commits
          state.fragments).fragmentBlobs (usTree sha))
        ((({} : SnapshotStorage B).restore codec (usTree sha) state.commits
          state.fragments).commitBlobs (usTree sha))) := by
  have happs : (snapshot.apps.foldl (Replay.Restoring.restoreApp sha codec)
      ({} : Replay.Restoring B)).storage.tree (usTree sha) =
        ({} : SnapshotStorage B).tree (usTree sha) :=
    tree_foldl_restoreApp hroots snapshot.apps {}
  have hlifecycle : (snapshot.apps.foldl (Replay.Restoring.restoreApp sha codec)
      ({} : Replay.Restoring B)).storage.lifecycle = {} :=
    (Replay.moves_foldl (Replay.moves_restoreApp sha codec) snapshot.apps {}).lifecycle
  have htree : (Replay.Restoring.control sha codec snapshot).storage.tree (usTree sha) =
      (({} : SnapshotStorage B).restore codec (usTree sha) state.commits state.fragments).tree
        (usTree sha) := by
    rw [Replay.Restoring.control, hus]
    exact Replay.tree_restore_congr happs hlifecycle _ _
  rw [Replay.restoredRegisters, hus]
  show docs.opaqueRegisters (docs.absorb _ (SnapshotStorage.fragmentBlobs _ _)
    (SnapshotStorage.commitBlobs _ _)) = _
  rw [SnapshotStorage.fragmentBlobs, SnapshotStorage.commitBlobs, htree]
  rfl

/-! ## The two snapshots -/

namespace Live

variable (sha) in
/-- What `JournalState::snapshot` makes of the state's journal. -/
def rebuilt (s : Live B V Us) : Snapshot B V :=
  let j := s.journal
  let apps := s.documents.keys.map (j.appState sha)
  let known := appsTrees sha apps ++ [usTree sha, keyhiveTree sha]
  let rest := j.trees.filter fun t => t ∉ known
  { apps := apps
    us := j.nonemptyTree (usTree sha)
    keyhive := j.nonemptyTree (keyhiveTree sha)
    vault := s.vault
    nameKey := s.nameKey
    opaques := (rest.filter fun t => Opaque.isOpaqueTree t).map fun t =>
      ⟨t, (j.treeState t).commits⟩
    unbound := (rest.filter fun t => !Opaque.isOpaqueTree t).map fun t =>
      ⟨t, (j.treeState t).commits, (j.treeState t).fragments⟩ }

theorem journal_snapshot (s : Live B V Us) : s.journal.snapshot sha = some (s.rebuilt sha) := rfl

variable {s : Live B V Us} {docs : UsDocument B Us}

theorem apps_puts (hj : s.journal.contents = s.storage.contents) (lifecycle : LifecycleState) :
    (s.snapshot sha docs).apps.flatMap (Replay.appPuts sha codec lifecycle) =
      (s.rebuilt sha).apps.flatMap (Replay.appPuts sha codec lifecycle) := by
  show (List.map _ (List.map _ s.documents.toList)).flatMap _ =
    (List.map _ s.documents.keys).flatMap _
  rw [← ExtTreeMap.map_fst_toList_eq_keys, List.map_map, List.map_map, List.flatMap_map,
    List.flatMap_map]
  congr 1
  funext ⟨app, doc⟩
  simp only [Function.comp_apply, Replay.appPuts, SnapshotStorage.treeState,
    JournalState.appState, JournalState.treeState, itemsOf_eq_treeItems hj]

/-- What a tree with a fixed place puts, if it has items. -/
theorem nonempty_puts (hj : s.journal.contents = s.storage.contents) (t : TreeId)
    (lifecycle : LifecycleState) :
    Replay.statePuts codec t lifecycle (s.journal.nonemptyTree t) =
      Replay.reinstated codec lifecycle t (s.storage.itemsOf t .commit)
        (s.storage.itemsOf t .fragment) := by
  rw [JournalState.nonemptyTree, JournalState.treeState, itemsOf_eq_treeItems hj,
    itemsOf_eq_treeItems hj]
  simp only
  split_ifs with hempty
  · rw [List.isEmpty_iff.1 hempty.1, List.isEmpty_iff.1 hempty.2, Replay.reinstated_nil]
    rfl
  · rfl

theorem restoredRegisters_snapshot (hroots : RootsPlain sha) :
    Replay.restoredRegisters sha codec docs.toUsDocs (s.snapshot sha docs) =
      s.savedRegisters sha codec docs := by
  rcases hus : s.us with - | us
  · have hnone : (s.snapshot sha docs).us = none := by
      show Option.map _ (Option.map _ s.us) = none
      rw [hus]
      rfl
    rw [Replay.restoredRegisters, hnone, savedRegisters, hus]
    rfl
  · have hsome : (s.snapshot sha docs).us =
        some (s.storage.treeState (usTree sha) (docs.save us)) := by
      show Option.map _ (Option.map _ s.us) = _
      rw [hus]
      rfl
    rw [restoredRegisters_some hroots docs.toUsDocs hsome, savedRegisters, hus]
    rfl

theorem restoredRegisters_rebuilt (hroots : RootsPlain sha)
    (hj : s.journal.contents = s.storage.contents) :
    Replay.restoredRegisters sha codec docs.toUsDocs (s.rebuilt sha) =
      s.storedRegisters sha codec docs := by
  have hstate : (s.rebuilt sha).us = s.journal.nonemptyTree (usTree sha) := rfl
  rw [JournalState.nonemptyTree] at hstate
  rw [storedRegisters, itemsOf_eq_treeItems hj, itemsOf_eq_treeItems hj]
  split_ifs with hempty
  · simp only [JournalState.treeState, hempty.1, hempty.2, List.isEmpty_nil, and_self,
      if_true] at hstate
    rw [Replay.restoredRegisters, hstate]
    rfl
  · have hnot : ¬ ((s.journal.treeState (usTree sha)).commits.isEmpty = true ∧
        (s.journal.treeState (usTree sha)).fragments.isEmpty = true) := by
      rintro ⟨hcommits, hfragments⟩
      exact hempty ⟨List.isEmpty_iff.1 hcommits, List.isEmpty_iff.1 hfragments⟩
    simp only [if_neg hnot] at hstate
    rw [restoredRegisters_some hroots docs.toUsDocs hstate, readRegisters,
      itemsOf_eq_treeItems hj, itemsOf_eq_treeItems hj]
    rfl

/-! ## What the replays come to -/

theorem replay_congr {ms : List (StorageMutation B)} {c c' : Contents B} {k : ItemKey}
    (h : c k = c' k) : replay ms c k = replay ms c' k := by
  induction ms generalizing c c' with
  | nil => exact h
  | cons m ms ih =>
    refine ih ?_
    by_cases htouches : m.Touches k
    · exact (m.act_of_touches htouches c).trans (m.act_of_touches htouches c').symm
    · show m.act c k = m.act c' k
      rw [m.act_of_not_touches htouches, m.act_of_not_touches htouches, h]

/-- Where each tree's puts stay in the tree, a key sees those of its own tree. -/
theorem replay_flatMap {g : TreeId → List (StorageMutation B)}
    (hg : ∀ t, ∀ m ∈ g t, ∃ item, m = .put item ∧ item.tree = t) {ts : List TreeId} (hts : ts.Nodup)
    (c : Contents B) (k : ItemKey) :
    replay (ts.flatMap g) c k = if k.tree ∈ ts then replay (g k.tree) c k else c k := by
  induction ts generalizing c with
  | nil => rfl
  | cons t ts ih =>
    obtain ⟨hnot, hts⟩ := List.nodup_cons.1 hts
    rw [List.flatMap_cons, replay_append, ih hts]
    by_cases ht : k.tree = t
    · rw [if_neg (ht ▸ hnot), if_pos (List.mem_cons.2 (.inl ht)), ht]
    · have hsame : replay (g t) c k = c k := by
        refine replay_of_not_touches (fun m hm htouches => ?_) c
        obtain ⟨item, rfl, rfl⟩ := hg t m hm
        exact ht (congrArg ItemKey.tree (show k = item.key from htouches))
      by_cases hmem : k.tree ∈ ts
      · rw [if_pos hmem, if_pos (List.mem_cons_of_mem t hmem)]
        exact replay_congr hsame
      · rw [if_neg hmem, if_neg (by simp [ht, hmem]), hsame]

/-- What has been put once is not taken back by puts. -/
theorem isSome_replay {ms : List (StorageMutation B)} (hputs : ∀ m ∈ ms, ∃ item, m = .put item)
    {c : Contents B} {k : ItemKey} (h : (c k).isSome ∨ ∃ item, .put item ∈ ms ∧ item.key = k) :
    (replay ms c k).isSome := by
  induction ms generalizing c with
  | nil =>
    rcases h with hc | ⟨item, hmem, -⟩
    · exact hc
    · exact nomatch hmem
  | cons m ms ih =>
    obtain ⟨put, rfl⟩ := hputs m List.mem_cons_self
    refine ih (fun m hm => hputs m (List.mem_cons_of_mem _ hm)) ?_
    show ((StorageMutation.put put).act c k).isSome ∨ _
    by_cases htouches : (StorageMutation.put put).Touches k
    · rw [(StorageMutation.put put).act_of_touches htouches]
      exact .inl rfl
    · rw [(StorageMutation.put put).act_of_not_touches htouches]
      rcases h with hc | ⟨item, hmem, hkey⟩
      · exact .inl hc
      · rcases List.mem_cons.1 hmem with heq | hmem
        · obtain rfl := StorageMutation.put.inj heq
          exact absurd hkey.symm htouches
        · exact .inr ⟨item, hmem, hkey⟩

/-! ## The opaque trees -/

variable (codec) in
/-- What an opaque tree puts under the registers `r`. -/
def opaqueTreePuts (s : Live B V Us) (r : ExtTreeMap SlotHash RegisterValue) (t : TreeId) :
    List (StorageMutation B) :=
  Replay.opaquePuts codec { registers := r } ⟨t, s.storage.itemsOf t .commit⟩

variable {r : ExtTreeMap SlotHash RegisterValue}

theorem opaqueTreePuts_put (t : TreeId) :
    ∀ m ∈ opaqueTreePuts codec s r t, ∃ item, m = .put item ∧ item.tree = t := by
  intro m hm
  rw [opaqueTreePuts, Replay.opaquePuts] at hm
  split_ifs at hm
  · exact Replay.put_of_mem_reinstated hm
  · cases hm

theorem opaqueTreePuts_of_not_current {t : TreeId}
    (h : Opaque.status { registers := r } t ≠ some true) : opaqueTreePuts codec s r t = [] :=
  if_neg h

theorem opaqueTreePuts_of_empty {t : TreeId} (h : s.storage.itemsOf t .commit = []) :
    opaqueTreePuts codec s r t = [] := by
  rw [opaqueTreePuts, h, Replay.opaquePuts]
  split_ifs
  · exact Replay.reinstated_nil codec _ t
  · rfl

theorem mem_trees_of_itemsOf (hj : s.journal.contents = s.storage.contents) {t : TreeId}
    {kind : ItemKind} {i : Item B} (h : i ∈ s.storage.itemsOf t kind) : t ∈ s.journal.trees := by
  have hkeyed : Replay.Keyed s.journal.contents := hj ▸ keyed_contents s.storage
  rw [itemsOf_eq_treeItems hj] at h
  obtain ⟨item, hitem, htree, hkind, -⟩ := (Replay.mem_treeItems hkeyed).1 h
  exact (Replay.mem_trees hkeyed).2 ⟨item, hitem, htree⟩

theorem itemsOf_of_tree_eq_empty {t : TreeId} (h : s.storage.tree t = {}) (kind : ItemKind) :
    s.storage.itemsOf t kind = [] := by
  rw [SnapshotStorage.itemsOf_eq]
  rcases kind with _ | _
  · simp [SnapshotStorage.keyedItems, h]
  · simp [SnapshotStorage.keyedItems, h]

theorem mem_keys_of_itemsOf {t : TreeId} {kind : ItemKind} {i : Item B}
    (h : i ∈ s.storage.itemsOf t kind) : t ∈ s.storage.trees.keys := by
  rw [ExtTreeMap.mem_keys]
  by_contra hnot
  rw [itemsOf_of_tree_eq_empty (ExtTreeMap.getD_eq_fallback hnot)] at h
  exact nomatch h

/-- An opaque tree is bound to no document. -/
theorem not_mem_known (hroots : RootsPlain sha) {t : TreeId} (hopq : Opaque.isOpaqueTree t) :
    t ∉ Replay.known sha s.journal s.documents.keys := by
  intro hknown
  rcases Replay.mem_known.1 hknown with ⟨p, -, rfl | ⟨-, rfl⟩⟩ | rfl | rfl
  · exact Replay.not_isOpaqueTree_documentTree sha p hopq
  · exact Replay.not_isOpaqueTree_sharedAuthorityTree sha p hopq
  · rw [hroots.not_isOpaqueTree.1] at hopq
    exact Bool.noConfusion hopq
  · rw [hroots.not_isOpaqueTree.2] at hopq
    exact Bool.noConfusion hopq

/-- Both snapshots put the same of the opaque trees, in whatever order. -/
theorem replay_opaques (hroots : RootsPlain sha) (hj : s.journal.contents = s.storage.contents)
    (hcurrent : ∀ t, s.storage.itemsOf t .commit ≠ [] →
      Opaque.status { registers := r } t = some true →
        Opaque.status s.storage.lifecycle t = some true) (c : Contents B) :
    replay ((s.snapshot sha docs).opaques.flatMap
        (Replay.opaquePuts codec { registers := r })) c =
      replay ((s.rebuilt sha).opaques.flatMap
        (Replay.opaquePuts codec { registers := r })) c := by
  have hlive : (s.snapshot sha docs).opaques.flatMap
      (Replay.opaquePuts codec { registers := r }) =
        (s.storage.trees.keys.filter
          fun t => Opaque.status s.storage.lifecycle t = some true).flatMap
            (opaqueTreePuts codec s r) :=
    List.flatMap_map ..
  have hrebuilt : (s.rebuilt sha).opaques.flatMap
      (Replay.opaquePuts codec { registers := r }) =
        ((Replay.loose sha s.journal s.documents.keys).filter
          fun t => Opaque.isOpaqueTree t).flatMap (opaqueTreePuts codec s r) := by
    refine (List.flatMap_map ..).trans ?_
    congr 1
    funext t
    rw [opaqueTreePuts, itemsOf_eq_treeItems hj]
    rfl
  have hloose : ((Replay.loose sha s.journal s.documents.keys).filter
      fun t => Opaque.isOpaqueTree t).Nodup := ((List.nodup_dedup _).filter _).filter _
  rw [hlive, hrebuilt]
  funext k
  rw [replay_flatMap opaqueTreePuts_put (ExtTreeMap.nodup_keys.filter _),
    replay_flatMap opaqueTreePuts_put hloose]
  -- a tree that only one of the lists has puts nothing
  by_cases hstatus : Opaque.status { registers := r } k.tree = some true
  · by_cases hempty : s.storage.itemsOf k.tree .commit = []
    · rw [opaqueTreePuts_of_empty hempty, replay_nil, ite_self, ite_self]
    · have hopq : Opaque.isOpaqueTree k.tree := Opaque.isOpaqueTree_of_status hstatus
      obtain ⟨item, hitem⟩ := List.exists_mem_of_ne_nil _ hempty
      have hlisted : k.tree ∈ s.storage.trees.keys := mem_keys_of_itemsOf hitem
      rw [if_pos (List.mem_filter.2 ⟨hlisted, decide_eq_true (hcurrent _ hempty hstatus)⟩), if_pos]
      refine List.mem_filter.2 ⟨List.mem_filter.2 ⟨mem_trees_of_itemsOf hj hitem, ?_⟩, hopq⟩
      exact decide_eq_true (not_mem_known hroots hopq)
  · rw [opaqueTreePuts_of_not_current hstatus, replay_nil, ite_self, ite_self]

/-! ## When the snapshots agree -/

/-- What the engine's own snapshot puts is in bound trees and in opaque ones. -/
theorem bound_of_mem_puts {lifecycle : LifecycleState} {m : StorageMutation B}
    (hm : m ∈ Replay.controlPuts sha codec (s.snapshot sha docs) ++
      Replay.contentPuts sha codec lifecycle (s.snapshot sha docs)) :
    ∃ item, m = .put item ∧ (s.Bound sha item.tree ∨ Opaque.isOpaqueTree item.tree) := by
  have hstate : ∀ {t : TreeId} {lifecycle : LifecycleState} {state : Option (TreeState B)},
      (state.isSome → s.Bound sha t) → m ∈ Replay.statePuts codec t lifecycle state →
        ∃ item, m = .put item ∧ (s.Bound sha item.tree ∨ Opaque.isOpaqueTree item.tree) := by
    intro t lifecycle state hbound hm
    rcases state with - | state
    · cases hm
    · obtain ⟨item, rfl, rfl⟩ := Replay.put_of_mem_reinstated hm
      exact ⟨item, rfl, .inl (hbound rfl)⟩
  rcases List.mem_append.1 hm with hm | hm
  · rcases List.mem_append.1 hm with hm | hm
    · obtain ⟨app, happ, hm⟩ := List.mem_flatMap.1 hm
      obtain ⟨_, hopen, rfl⟩ := List.mem_map.1 happ
      obtain ⟨⟨p, doc⟩, hdoc, rfl⟩ := List.mem_map.1 hopen
      have hp : p ∈ s.documents := by
        rw [ExtTreeMap.mem_iff_isSome_getElem?,
          ExtTreeMap.mem_toList_iff_getElem?_eq_some.1 hdoc]
        rfl
      rcases List.mem_append.1 hm with hm | hm
      · obtain ⟨item, rfl, htree⟩ := Replay.put_of_mem_reinstated hm
        exact ⟨item, rfl, .inl (.inl ⟨p, hp, .inl htree⟩)⟩
      · by_cases hshared : (sharedDocument p).join.isSome
        · obtain ⟨item, rfl, htree⟩ := Replay.put_of_mem_reinstated hm
          exact ⟨item, rfl, .inl (.inl ⟨p, hp, .inr ⟨hshared, htree⟩⟩)⟩
        · simp only [if_neg hshared, Replay.reinstated_nil] at hm
          cases hm
    · refine hstate (fun hus => .inr (.inl ⟨rfl, ?_⟩)) hm
      simpa [snapshot, SnapshotStorage.snapshot] using hus
  · rcases List.mem_append.1 hm with hm | hm
    · rcases List.mem_append.1 hm with hm | hm
      · obtain ⟨state, hopaque, hm⟩ := List.mem_flatMap.1 hm
        obtain ⟨t, ht, rfl⟩ := List.mem_map.1 hopaque
        have hcurrent : Opaque.status s.storage.lifecycle t = some true :=
          of_decide_eq_true (List.mem_filter.1 ht).2
        rw [Replay.opaquePuts] at hm
        split_ifs at hm
        · obtain ⟨item, rfl, htree⟩ := Replay.put_of_mem_reinstated hm
          exact ⟨item, rfl, .inr (htree ▸ Opaque.isOpaqueTree_of_status hcurrent)⟩
        · cases hm
      · cases hm
    · refine hstate (fun hvault => .inr (.inr ⟨rfl, ?_⟩)) hm
      by_contra hnone
      simp [snapshot, SnapshotStorage.snapshot, hnone] at hvault


theorem put_of_mem_rebuilt {lifecycle : LifecycleState} {m : StorageMutation B}
    (hm : m ∈ Replay.controlPuts sha codec (s.rebuilt sha) ++
      Replay.contentPuts sha codec lifecycle (s.rebuilt sha)) : ∃ item, m = .put item := by
  have hput : ∀ {lifecycle : LifecycleState} {t : TreeId} {commits fragments : List (Item B)},
      m ∈ Replay.reinstated codec lifecycle t commits fragments → ∃ item, m = .put item := by
    intro lifecycle t commits fragments hm
    obtain ⟨item, hitem, -⟩ := Replay.put_of_mem_reinstated hm
    exact ⟨item, hitem⟩
  have hstate : ∀ {t : TreeId} {lifecycle : LifecycleState} {state : Option (TreeState B)},
      m ∈ Replay.statePuts codec t lifecycle state → ∃ item, m = .put item := by
    intro t lifecycle state hm
    rcases state with - | state
    · cases hm
    · exact hput hm
  rcases List.mem_append.1 hm with hm | hm
  · rcases List.mem_append.1 hm with hm | hm
    · obtain ⟨app, -, hm⟩ := List.mem_flatMap.1 hm
      exact (List.mem_append.1 hm).elim hput hput
    · exact hstate hm
  · rcases List.mem_append.1 hm with hm | hm
    · rcases List.mem_append.1 hm with hm | hm
      · obtain ⟨state, -, hm⟩ := List.mem_flatMap.1 hm
        rw [Replay.opaquePuts] at hm
        split_ifs at hm
        · exact hput hm
        · cases hm
      · obtain ⟨state, -, hm⟩ := List.mem_flatMap.1 hm
        exact hput hm
    · exact hstate hm

/-- What decodes of a plain tree that nothing is bound to is put by the journal's snapshot. -/
theorem mem_rebuilt_of_not_bound (hj : s.journal.contents = s.storage.contents) {t : TreeId}
    (hplain : Opaque.isOpaqueTree t = false) (hbound : ¬ s.Bound sha t)
    (lifecycle : LifecycleState) {m : StorageMutation B}
    (hm : ∀ lifecycle, m ∈ Replay.reinstated codec lifecycle t (s.storage.itemsOf t .commit)
      (s.storage.itemsOf t .fragment)) :
    m ∈ Replay.controlPuts sha codec (s.rebuilt sha) ++
      Replay.contentPuts sha codec lifecycle (s.rebuilt sha) := by
  have hlisted : t ∈ s.journal.trees := by
    by_contra hnot
    have hempty : ∀ kind, s.storage.itemsOf t kind = [] := fun kind =>
      List.eq_nil_iff_forall_not_mem.2 fun i hi => hnot (mem_trees_of_itemsOf hj hi)
    have hnil := hm {}
    rw [hempty, hempty, Replay.reinstated_nil] at hnil
    exact nomatch hnil
  by_cases hknown : t ∈ Replay.known sha s.journal s.documents.keys
  · rcases Replay.mem_known.1 hknown with ⟨p, hp, htree⟩ | rfl | rfl
    · exact absurd (.inl ⟨p, ExtTreeMap.mem_keys.1 hp, htree⟩) hbound
    · refine List.mem_append.2 (.inl (List.mem_append.2 (.inr ?_)))
      exact (nonempty_puts hj (usTree sha) {}).symm ▸ hm {}
    · refine List.mem_append.2 (.inr (List.mem_append.2 (.inr ?_)))
      exact (nonempty_puts hj (keyhiveTree sha) lifecycle).symm ▸ hm lifecycle
  · refine List.mem_append.2 (.inr (List.mem_append.2 (.inl (List.mem_append.2 (.inr ?_)))))
    have hloose : t ∈ Replay.loose sha s.journal s.documents.keys :=
      List.mem_filter.2 ⟨hlisted, decide_eq_true hknown⟩
    have hrest : t ∈ (Replay.loose sha s.journal s.documents.keys).filter
        fun t => !Opaque.isOpaqueTree t := List.mem_filter.2 ⟨hloose, by rw [hplain]; rfl⟩
    refine List.mem_flatMap.2 ⟨_, List.mem_map.2 ⟨t, hrest, rfl⟩, ?_⟩
    have hput := hm lifecycle
    rw [itemsOf_eq_treeItems hj, itemsOf_eq_treeItems hj] at hput
    exact hput

/-- Nothing else than the bound trees and the opaque ones puts anything. -/
theorem unbound_puts_eq_nil (hj : s.journal.contents = s.storage.contents)
    (hbound : ∀ t, Opaque.isOpaqueTree t = false → s.Decodes codec t → s.Bound sha t)
    (lifecycle : LifecycleState) :
    (s.rebuilt sha).unbound.flatMap (Replay.unboundPuts codec lifecycle) = [] := by
  refine List.flatMap_eq_nil_iff.2 fun state hstate => ?_
  obtain ⟨t, ht, rfl⟩ := List.mem_map.1 hstate
  obtain ⟨hloose, hplain⟩ := List.mem_filter.1 ht
  have hplain : Opaque.isOpaqueTree t = false := by simpa using hplain
  have hknown : t ∉ Replay.known sha s.journal s.documents.keys :=
    of_decide_eq_true (List.mem_filter.1 hloose).2
  have hdecodes : ¬ s.Decodes codec t := by
    intro hdecodes
    refine hknown (Replay.mem_known.2 ?_)
    rcases hbound t hplain hdecodes with ⟨p, hp, htree⟩ | ⟨hus, -⟩ | ⟨hkeyhive, -⟩
    · exact .inl ⟨p, ExtTreeMap.mem_keys.2 hp, htree⟩
    · exact .inr (.inl hus)
    · exact .inr (.inr hkeyhive)
  rw [Decodes, not_or, not_not, not_not] at hdecodes
  refine (Replay.reinstated_eq_nil hplain).2 ?_
  rw [itemsOf_eq_treeItems hj, itemsOf_eq_treeItems hj] at hdecodes
  exact hdecodes

/-- A tree of the group that nothing is bound to puts nothing. -/
theorem group_puts_eq_nil (hbound : ∀ t, Opaque.isOpaqueTree t = false → s.Decodes codec t →
      s.Bound sha t) {t : TreeId} (hplain : Opaque.isOpaqueTree t = false)
    (hnot : ¬ s.Bound sha t) (lifecycle : LifecycleState) :
    Replay.reinstated codec lifecycle t (s.storage.itemsOf t .commit)
      (s.storage.itemsOf t .fragment) = [] := by
  have hdecodes : ¬ s.Decodes codec t := fun hdecodes => hnot (hbound t hplain hdecodes)
  rw [Decodes, not_or, not_not, not_not] at hdecodes
  exact (Replay.reinstated_eq_nil hplain).2 hdecodes

theorem us_bound (hroots : RootsPlain sha) : s.Bound sha (usTree sha) ↔ s.us.isSome := by
  constructor
  · rintro (⟨p, -, htree | ⟨-, htree⟩⟩ | ⟨-, hus⟩ | ⟨hkeyhive, -⟩)
    · exact absurd htree (hroots.ne_documentTree p).1
    · exact absurd htree (hroots.ne_sharedAuthorityTree p).1
    · exact hus
    · exact absurd hkeyhive hroots.apart
  · exact fun hus => .inr (.inl ⟨rfl, hus⟩)

theorem keyhive_bound (hroots : RootsPlain sha) :
    s.Bound sha (keyhiveTree sha) ↔ s.vault.isSome := by
  constructor
  · rintro (⟨p, -, htree | ⟨-, htree⟩⟩ | ⟨hus, -⟩ | ⟨-, hvault⟩)
    · exact absurd htree (hroots.ne_documentTree p).2
    · exact absurd htree (hroots.ne_sharedAuthorityTree p).2
    · exact absurd hus.symm hroots.apart
    · exact hvault
  · exact fun hvault => .inr (.inr ⟨rfl, hvault⟩)

/-- The two snapshots restore the same exactly if all that decodes is in a tree that something is
bound to. -/
theorem complete_iff_bound (hroots : RootsPlain sha)
    (hj : s.journal.contents = s.storage.contents) (hstep : s.InStep sha codec docs) :
    s.Complete sha codec docs ↔
      ∀ t, Opaque.isOpaqueTree t = false → s.Decodes codec t → s.Bound sha t := by
  have hregisters : Replay.restoredRegisters sha codec docs.toUsDocs (s.rebuilt sha) =
      s.savedRegisters sha codec docs :=
    (restoredRegisters_rebuilt hroots hj).trans hstep.same.symm
  rw [Complete, journal_snapshot, Replay.contents_new, Replay.contents_new,
    restoredRegisters_snapshot hroots, hregisters]
  constructor
  · intro hsame t hplain hdecodes
    by_contra hbound
    have hne : Replay.reinstated codec {} t (s.storage.itemsOf t .commit)
        (s.storage.itemsOf t .fragment) ≠ [] := by
      rw [Ne, Replay.reinstated_eq_nil hplain, not_and_or]
      exact hdecodes
    obtain ⟨m, hm⟩ := List.exists_mem_of_ne_nil _ hne
    obtain ⟨item, rfl, rfl⟩ := Replay.put_of_mem_reinstated hm
    have hput : .put item ∈ Replay.controlPuts sha codec (s.rebuilt sha) ++
        Replay.contentPuts sha codec { registers := s.savedRegisters sha codec docs }
          (s.rebuilt sha) :=
      mem_rebuilt_of_not_bound hj hplain hbound _
        fun lifecycle => Replay.reinstated_congr hplain {} lifecycle _ _ ▸ hm
    have hsome := isSome_replay (c := fun _ => none) (fun m hm => put_of_mem_rebuilt hm)
      (.inr ⟨item, hput, rfl⟩)
    rw [← hsame, replay_of_not_touches] at hsome
    · exact Bool.noConfusion hsome
    · intro m hm htouches
      obtain ⟨other, rfl, hother⟩ := bound_of_mem_puts hm
      have htree : item.tree = other.tree := congrArg ItemKey.tree htouches
      rw [← htree, hplain] at hother
      rcases hother with hother | hother
      · exact hbound hother
      · exact Bool.noConfusion hother
  · intro hbound
    have hus : Replay.statePuts codec (usTree sha) {} (s.snapshot sha docs).us =
        Replay.statePuts codec (usTree sha) {} (s.rebuilt sha).us := by
      refine Eq.trans ?_ (nonempty_puts hj (usTree sha) {}).symm
      rcases hus : s.us with - | us
      · have hnot : ¬ s.Bound sha (usTree sha) := by
          rw [us_bound hroots, hus]
          exact Bool.noConfusion
        rw [group_puts_eq_nil hbound hroots.not_isOpaqueTree.1 hnot]
        simp [snapshot, SnapshotStorage.snapshot, hus, Replay.statePuts]
      · simp [snapshot, SnapshotStorage.snapshot, hus, Replay.statePuts,
          SnapshotStorage.treeState]
    have hkeyhive : ∀ lifecycle,
        Replay.statePuts codec (keyhiveTree sha) lifecycle (s.snapshot sha docs).keyhive =
          Replay.statePuts codec (keyhiveTree sha) lifecycle (s.rebuilt sha).keyhive := by
      intro lifecycle
      refine Eq.trans ?_ (nonempty_puts hj (keyhiveTree sha) lifecycle).symm
      by_cases hvault : s.vault.isSome
      · simp [snapshot, SnapshotStorage.snapshot, hvault, Replay.statePuts,
          SnapshotStorage.treeState]
      · have hnot : ¬ s.Bound sha (keyhiveTree sha) := by
          rw [keyhive_bound hroots]
          exact hvault
        rw [group_puts_eq_nil hbound hroots.not_isOpaqueTree.2 hnot]
        simp [snapshot, SnapshotStorage.snapshot, hvault, Replay.statePuts]
    have hlive : (s.snapshot sha docs).unbound = [] := rfl
    simp only [Replay.controlPuts, Replay.contentPuts, replay_append, hus, hkeyhive,
      apps_puts hj, unbound_puts_eq_nil hj hbound, hlive, List.flatMap_nil,
      replay_opaques hroots hj hstep.current]

end Live

end Polyvisor
