import Polyvisor.Engine.Retirement
import Polyvisor.Engine.Snapshot

/-!
# Replaying the journal into an engine

`Engine::new` of `engine/src/lib.rs` on what `JournalState::snapshot` made of a journal: which
items the storage holds then, and which trees `hydrate` hands to the driver. The `us` document is a
parameter. Of the engine's fields those stand here that the snapshot decides; the documents, which
hold nothing before `hydrate` opens their trees, are named by their partitions.

## Main results

* `contents_restore`: restoring a tree of a journal reinstates its items and touches no other tree.
* `mem_hydrate_new`: which trees `Engine::new` restores.
* `lists_iff`: which part of the snapshot lists an item.
* `replay_restores`: the snapshot of a journal has every item in exactly one part, the engine built
  on it holds each item where the journal did, apart from the trees of slots that name another
  tree or none, and each tree it restored is handed to the driver.
-/

open Std

namespace Polyvisor.Replay

variable {B V Us : Type}

/-! ## The engine -/

/-- What `Engine::new` asks of the `us` document. -/
structure UsDocs (B Us : Type) where
  /-- `UsDoc::load`. -/
  load : Bytes → Us
  /-- `UsDoc::absorb`, of the blobs of the tree's fragments and commits. -/
  absorb : Us → List (CommitId × B) → List (CommitId × B) → Us
  /-- `UsDoc::opaque_registers`. -/
  opaqueRegisters : Us → ExtTreeMap SlotHash RegisterValue

/-- The engine as `Engine::new` leaves it. -/
structure Engine (B V Us : Type) where
  storage : SnapshotStorage B
  /-- The partitions with a document. -/
  documents : List String
  us : Option Us
  pendingVault : Option V
  nameKey : Option Bytes32
  pendingHydration : Option (List TreeId)

/-- The storage and the list `hydrate` of `Engine::new`, while it restores. -/
structure Restoring (B : Type) where
  storage : SnapshotStorage B := {}
  hydrate : List TreeId := []

namespace Restoring

variable (sha : Sha256) (codec : Codec B)

/-- `storage.restore(tree, commits, fragments); hydrate.push(tree)`. -/
def restoreTree (r : Restoring B) (t : TreeId) (commits fragments : List (Item B)) :
    Restoring B where
  storage := r.storage.restore codec t commits fragments
  hydrate := r.hydrate ++ [t]

/-- One turn of the loop over `state.apps`. -/
def restoreApp (r : Restoring B) (app : AppState B) : Restoring B :=
  let r := r.restoreTree codec (documentTree sha app.app) app.state.commits app.state.fragments
  if app.authority.isEmpty then r
  else r.restoreTree codec (sharedAuthorityTree sha app.app) app.authority []

/-- A tree state under a fixed tree. -/
def restoreState (t : TreeId) (r : Restoring B) : Option (TreeState B) → Restoring B
  | none => r
  | some state => r.restoreTree codec t state.commits state.fragments

/-- `opaque.borrow_mut().registers = registers`. -/
def setRegisters (r : Restoring B) (registers : ExtTreeMap SlotHash RegisterValue) :
    Restoring B :=
  { r with storage := { r.storage with lifecycle := { r.storage.lifecycle with registers } } }

/-- One turn of the loop over `state.opaque`. -/
def restoreOpaque (r : Restoring B) (state : OpaqueState B) : Restoring B :=
  if Opaque.status r.storage.lifecycle state.tree = some true then
    r.restoreTree codec state.tree state.commits []
  else r

/-- One turn of the loop over `state.unbound`. -/
def restoreUnbound (r : Restoring B) (state : UnboundState B) : Restoring B :=
  r.restoreTree codec state.tree state.commits state.fragments

/-- The trees of the apps and of the `us` document, which are restored before any register is
known. -/
def control (snapshot : Snapshot B V) : Restoring B :=
  restoreState codec (usTree sha) (snapshot.apps.foldl (restoreApp sha codec) {}) snapshot.us

/-- The other trees, under these registers. -/
def content (r : Restoring B) (registers : ExtTreeMap SlotHash RegisterValue)
    (snapshot : Snapshot B V) : Restoring B :=
  let r := snapshot.opaques.foldl (restoreOpaque codec) (r.setRegisters registers)
  let r := snapshot.unbound.foldl (restoreUnbound codec) r
  restoreState codec (keyhiveTree sha) r snapshot.keyhive

end Restoring

namespace Engine

/-- The `us` document of `Engine::new`: what its tree carries, taken up. -/
def restoredUs (sha : Sha256) (docs : UsDocs B Us) (storage : SnapshotStorage B)
    (state : Option (TreeState B)) : Option Us :=
  state.map fun state => docs.absorb (docs.load state.doc)
    (storage.fragmentBlobs (usTree sha)) (storage.commitBlobs (usTree sha))

/-- `Engine::new`. -/
def new (sha : Sha256) (codec : Codec B) (docs : UsDocs B Us) :
    Option (Snapshot B V) → Engine B V Us
  | none =>
    { storage := {}
      documents := []
      us := none
      pendingVault := none
      nameKey := none
      pendingHydration := none }
  | some snapshot =>
    let r := Restoring.control sha codec snapshot
    let us := restoredUs sha docs r.storage snapshot.us
    let r := r.content sha codec ((us.map docs.opaqueRegisters).getD ∅) snapshot
    { storage := r.storage.markRestored
      documents := (snapshot.apps.map (·.app)).dedup
      us := us
      pendingVault := snapshot.vault
      nameKey := snapshot.nameKey
      pendingHydration := if r.hydrate.isEmpty then none else some r.hydrate }

/-- The calls of `hydrate_tree` that `hydrate` makes, as long as the driver answers. -/
def handed (e : Engine B V Us) : List (TreeId × List LooseCommit × List Fragment) :=
  (e.pendingHydration.getD []).map fun t => (t, e.storage.metadata t)

/-- An opaque tree that the restored register does not name: its slot has another tree, or none. -/
def NotCurrent (e : Engine B V Us) (t : TreeId) : Prop :=
  Opaque.isOpaqueTree t ∧ Opaque.status e.storage.lifecycle t ≠ some true

instance decidableNotCurrent (e : Engine B V Us) (t : TreeId) : Decidable (e.NotCurrent t) :=
  inferInstanceAs (Decidable (_ ∧ _))

end Engine

/-! ## The parts of a snapshot -/

/-- Where a snapshot may have an item. -/
inductive Part where
  | apps
  | authority
  | us
  | keyhive
  | opaques
  | unbound
  deriving DecidableEq

/-- What one part of a snapshot has of one tree. -/
structure Entry (B : Type) where
  part : Part
  tree : TreeId
  commits : List (Item B)
  fragments : List (Item B)

namespace Entry

/-- The entry's items of a kind. -/
def items (e : Entry B) : ItemKind → List (Item B)
  | .commit => e.commits
  | .fragment => e.fragments

/-- The entry is about the item's tree and has the item, under its kind. -/
def Lists (e : Entry B) (item : StoreItem B) : Prop :=
  e.tree = item.tree ∧ ⟨item.signed, item.blob⟩ ∈ e.items item.kind

end Entry

/-- All that a snapshot has, part by part. -/
def entries (sha : Sha256) (snapshot : Snapshot B V) : List (Entry B) :=
  snapshot.apps.map (fun app =>
      ⟨.apps, documentTree sha app.app, app.state.commits, app.state.fragments⟩) ++
    snapshot.apps.map
      (fun app => ⟨.authority, sharedAuthorityTree sha app.app, app.authority, []⟩) ++
    snapshot.us.toList.map (fun state => ⟨.us, usTree sha, state.commits, state.fragments⟩) ++
    snapshot.keyhive.toList.map
      (fun state => ⟨.keyhive, keyhiveTree sha, state.commits, state.fragments⟩) ++
    snapshot.opaques.map (fun state => ⟨.opaques, state.tree, state.commits, []⟩) ++
    snapshot.unbound.map fun state => ⟨.unbound, state.tree, state.commits, state.fragments⟩

/-! ## What is assumed -/

/-- `Signed::try_decode` keeps the wire bytes. -/
structure KeepsBytes (codec : Codec B) : Prop where
  commit : ∀ {bytes signed}, codec.decodeCommit bytes = some signed → signed.bytes = bytes
  fragment : ∀ {bytes signed}, codec.decodeFragment bytes = some signed → signed.bytes = bytes

/-- SHA-256 tells the names at hand apart, and neither of the group's own two trees falls into the
namespace of the opaque ones. -/
structure TreesApart (sha : Sha256) (partitions : List String) : Prop where
  us_keyhive : usTree sha ≠ keyhiveTree sha
  document_us : ∀ p ∈ partitions, documentTree sha p ≠ usTree sha
  document_keyhive : ∀ p ∈ partitions, documentTree sha p ≠ keyhiveTree sha
  authority_us : ∀ p ∈ partitions, sharedAuthorityTree sha p ≠ usTree sha
  authority_keyhive : ∀ p ∈ partitions, sharedAuthorityTree sha p ≠ keyhiveTree sha
  us_plain : Opaque.isOpaqueTree (usTree sha) = false
  keyhive_plain : Opaque.isOpaqueTree (keyhiveTree sha) = false

/-- `persist_items` admits the item under the registers of `lifecycle`, with whatever authorities
the shared trees had. -/
structure Admitted (codec : Codec B) (lifecycle : LifecycleState) (item : StoreItem B) : Prop where
  commit : item.kind = .commit → ∃ (s : SnapshotStorage B) (signed : Signed LooseCommit)
    (payload : LooseCommit), s.lifecycle = lifecycle ∧
      codec.decodeCommit item.signed = some signed ∧
      s.admitCommit codec item.tree signed item.blob = some payload ∧ payload.head = item.commit
  fragment : item.kind = .fragment → ¬ Opaque.isOpaqueTree item.tree ∧
    ∃ (s : SnapshotStorage B) (signed : Signed Fragment) (payload : Fragment),
      codec.decodeFragment item.signed = some signed ∧
      s.admitFragment item.tree signed = some payload ∧ payload.head = item.commit

/-! ## The journal's items -/

/-- Each key holds an item of that name. -/
def Keyed (c : Contents B) : Prop :=
  ∀ k item, c k = some item → item.key = k

theorem keyed_act {c : Contents B} (h : Keyed c) (m : StorageMutation B) : Keyed (m.act c) := by
  intro k item hitem
  by_cases htouches : m.Touches k
  · rw [m.act_of_touches htouches] at hitem
    rcases m with put | key | t
    · obtain rfl : put = item := Option.some.inj hitem
      exact Eq.symm htouches
    · exact nomatch hitem
    · exact nomatch hitem
  · exact h k item (m.act_of_not_touches htouches c ▸ hitem)

theorem keyed_replay (ms : List (StorageMutation B)) {c : Contents B} (h : Keyed c) :
    Keyed (replay ms c) := by
  induction ms generalizing c with
  | nil => exact h
  | cons m ms ih => exact ih (keyed_act h m)

/-- A journal files each item under its own name. -/
theorem keyed_journal (deltas : List (EngineDelta B V)) :
    Keyed (deltas.foldl JournalState.apply ({} : JournalState B V)).contents := by
  rw [JournalState.contents_foldl_apply]
  refine keyed_replay _ fun k item hitem => ?_
  simp [JournalState.contents] at hitem

/-- Storing items of `c` leaves what `c` has under the keys of the items, and the rest alone. -/
theorem replay_puts {c : Contents B} {ms : List (StorageMutation B)}
    (hputs : ∀ m ∈ ms, ∃ item, m = .put item ∧ c item.key = some item) (c' : Contents B)
    (k : ItemKey) :
    replay ms c' k = c k ∧ (∃ item, .put item ∈ ms ∧ item.key = k) ∨
      replay ms c' k = c' k ∧ ¬ ∃ item, .put item ∈ ms ∧ item.key = k := by
  induction ms generalizing c' with
  | nil => exact .inr ⟨rfl, by simp⟩
  | cons m ms ih =>
    obtain ⟨item, rfl, hitem⟩ := hputs _ List.mem_cons_self
    rcases ih (fun m hm => hputs m (List.mem_cons_of_mem _ hm))
        ((StorageMutation.put item).act c') with ⟨hread, later⟩ | ⟨hread, hlater⟩
    · obtain ⟨other, hother, hkey⟩ := later
      exact .inl ⟨hread, other, List.mem_cons_of_mem _ hother, hkey⟩
    · rw [replay_cons, hread]
      by_cases hk : k = item.key
      · refine .inl ⟨?_, item, List.mem_cons_self, hk.symm⟩
        rw [hk, hitem]
        exact if_pos rfl
      · refine .inr ⟨if_neg hk, ?_⟩
        rintro ⟨other, hother, hkey⟩
        rcases List.mem_cons.1 hother with heq | hother
        · rw [StorageMutation.put.inj heq] at hkey
          exact hk hkey.symm
        · exact hlater ⟨other, hother, hkey⟩

section Journal

variable {j : JournalState B V} {t : TreeId} {kind : ItemKind}

/-- A tree state lists the journal's items of the tree. -/
theorem mem_treeItems (hkeyed : Keyed j.contents) {i : Item B} :
    i ∈ j.treeItems t kind ↔ ∃ item, j.contents item.key = some item ∧ item.tree = t ∧
      item.kind = kind ∧ i = ⟨item.signed, item.blob⟩ := by
  simp only [JournalState.treeItems, List.mem_map, List.mem_filter, decide_eq_true_eq]
  constructor
  · rintro ⟨item, ⟨hvalue, htree, hkind⟩, rfl⟩
    obtain ⟨k, hk⟩ := SnapshotStorage.mem_values.1 hvalue
    obtain rfl := hkeyed k item hk
    exact ⟨item, hk, htree, hkind, rfl⟩
  · rintro ⟨item, hitem, htree, hkind, rfl⟩
    exact ⟨item, ⟨SnapshotStorage.mem_values.2 ⟨item.key, hitem⟩, htree, hkind⟩, rfl⟩

theorem mem_trees (hkeyed : Keyed j.contents) :
    t ∈ j.trees ↔ ∃ item, j.contents item.key = some item ∧ item.tree = t := by
  simp only [JournalState.trees, List.mem_dedup, List.mem_map]
  constructor
  · rintro ⟨item, hvalue, htree⟩
    obtain ⟨k, hk⟩ := SnapshotStorage.mem_values.1 hvalue
    obtain rfl := hkeyed k item hk
    exact ⟨item, hk, htree⟩
  · rintro ⟨item, hitem, htree⟩
    exact ⟨item, SnapshotStorage.mem_values.2 ⟨item.key, hitem⟩, htree⟩

/-- A fixed tree has a state exactly when the journal has an item of it. -/
theorem nonemptyTree_of_item (hkeyed : Keyed j.contents) {item : StoreItem B}
    (hitem : j.contents item.key = some item) :
    j.nonemptyTree item.tree = some (j.treeState item.tree) := by
  have hmem : (⟨item.signed, item.blob⟩ : Item B) ∈ j.treeItems item.tree item.kind :=
    (mem_treeItems hkeyed).2 ⟨item, hitem, rfl, rfl, rfl⟩
  rw [JournalState.nonemptyTree, if_neg]
  rintro ⟨hcommits, hfragments⟩
  rcases hkind : item.kind with _ | _
  · rw [hkind, show j.treeItems item.tree .commit = [] from List.isEmpty_iff.1 hcommits] at hmem
    exact absurd hmem List.not_mem_nil
  · rw [hkind, show j.treeItems item.tree .fragment = [] from List.isEmpty_iff.1 hfragments] at hmem
    exact absurd hmem List.not_mem_nil

theorem eq_treeState_of_nonemptyTree {state : TreeState B} (h : j.nonemptyTree t = some state) :
    state = j.treeState t := by
  rw [JournalState.nonemptyTree] at h
  split at h
  · exact nomatch h
  · exact (Option.some.inj h).symm

end Journal

/-! ## One tree -/

section Restore

variable {codec : Codec B} {lifecycle : LifecycleState} {j : JournalState B V} {t : TreeId}
  {s : SnapshotStorage B}

/-- What `restore` records of the items it accepts. -/
def puts (codec : Codec B) (s : SnapshotStorage B) (t : TreeId)
    (commits fragments : List (Item B)) : List (StorageMutation B) :=
  (s.acceptedCommits codec t commits).map
      (fun entry => .put ⟨t, entry.1, entry.2.1.bytes, entry.2.2, .commit⟩) ++
    (SnapshotStorage.acceptedFragments codec fragments).map
      fun entry => .put ⟨t, entry.1, entry.2.1.bytes, entry.2.2, .fragment⟩

theorem writes_foldl_of {α : Type} {f : SnapshotStorage B → α → SnapshotStorage B}
    {m : α → StorageMutation B} (hf : ∀ s a, SnapshotStorage.Writes s (f s a) [m a])
    (s : SnapshotStorage B) (l : List α) : SnapshotStorage.Writes s (l.foldl f s) (l.map m) := by
  induction l generalizing s with
  | nil => exact .refl s
  | cons a l ih => exact (hf s a).trans (ih (f s a))

/-- `restore` of an eligible tree writes the items it accepts. -/
theorem writes_restore {commits fragments : List (Item B)}
    (hcurrent : Opaque.isOpaqueTree t → Opaque.status s.lifecycle t = some true ∧ fragments = []) :
    SnapshotStorage.Writes s (s.restore codec t commits fragments)
      (puts codec s t commits fragments) := by
  have hopen : ¬ (Opaque.isOpaqueTree t ∧
      (Opaque.status s.lifecycle t ≠ some true ∨ !fragments.isEmpty)) := by
    rintro ⟨hopq, hstatus | hfragments⟩
    · exact hstatus (hcurrent hopq).1
    · simp [(hcurrent hopq).2] at hfragments
  rw [SnapshotStorage.restore, if_neg hopen]
  have hcommits := writes_foldl_of (B := B)
    (fun s (entry : CommitId × Signed LooseCommit × B) =>
      SnapshotStorage.writes_insertCommit s t entry.1 entry.2)
    (s.ensureTree t) (s.acceptedCommits codec t commits)
  have hfragments := writes_foldl_of (B := B)
    (fun s (entry : CommitId × Signed Fragment × B) =>
      SnapshotStorage.writes_insertFragment s t entry.1 entry.2)
    ((s.acceptedCommits codec t commits).foldl
      (fun s entry => s.insertCommit t entry.1 entry.2) (s.ensureTree t))
    (SnapshotStorage.acceptedFragments codec fragments)
  exact ((SnapshotStorage.writes_ensureTree s t).trans hcommits).trans hfragments

/-- A stored commit is accepted again, under its own id. -/
theorem mem_acceptedCommits (hbytes : KeepsBytes codec) {item : StoreItem B}
    (hadmitted : Admitted codec lifecycle item) (hkind : item.kind = .commit)
    (hlifecycle : Opaque.isOpaqueTree item.tree → s.lifecycle = lifecycle)
    {entry : CommitId × Signed LooseCommit × B} :
    entry ∈ s.acceptedCommits codec item.tree [⟨item.signed, item.blob⟩] ↔
      entry.1 = item.commit ∧ codec.decodeCommit item.signed = some entry.2.1 ∧
        entry.2.1.bytes = item.signed ∧ entry.2.2 = item.blob := by
  obtain ⟨before, signed, payload, hbefore, hdecode, hadmit, hhead⟩ := hadmitted.commit hkind
  obtain ⟨-, hpayload, -, -, -, hraw⟩ := SnapshotStorage.admitCommit_eq_some.1 hadmit
  have hguard : Opaque.isOpaqueTree item.tree →
      Opaque.mode s.lifecycle item.tree = some .callerEncrypted →
        SnapshotStorage.validRawCommit codec item.tree payload item.blob := by
    intro hopq hmode
    rw [hlifecycle hopq] at hmode
    exact hraw hopq (hbefore ▸ hmode)
  have haccepted : s.acceptedCommits codec item.tree [⟨item.signed, item.blob⟩] =
      [(item.commit, signed, item.blob)] := by
    simp only [SnapshotStorage.acceptedCommits, List.filterMap_cons, List.filterMap_nil, hdecode,
      Option.bind_eq_bind, Option.bind_some, hpayload, guard, if_pos hguard, hhead]
    rfl
  rw [haccepted, List.mem_singleton, hdecode]
  constructor
  · rintro rfl
    exact ⟨rfl, rfl, hbytes.commit hdecode, rfl⟩
  · rintro ⟨hid, hsigned, -, hblob⟩
    rw [Prod.ext_iff, Prod.ext_iff]
    exact ⟨hid, (Option.some.inj hsigned).symm, hblob⟩

/-- A stored fragment is accepted again, under its own head. -/
theorem mem_acceptedFragments (hbytes : KeepsBytes codec) {item : StoreItem B}
    (hadmitted : Admitted codec lifecycle item) (hkind : item.kind = .fragment)
    {entry : CommitId × Signed Fragment × B} :
    entry ∈ SnapshotStorage.acceptedFragments codec [⟨item.signed, item.blob⟩] ↔
      entry.1 = item.commit ∧ codec.decodeFragment item.signed = some entry.2.1 ∧
        entry.2.1.bytes = item.signed ∧ entry.2.2 = item.blob := by
  obtain ⟨-, before, signed, payload, hdecode, hadmit, hhead⟩ := hadmitted.fragment hkind
  have hpayload := SnapshotStorage.payload_of_admitFragment hadmit
  have haccepted : SnapshotStorage.acceptedFragments codec [⟨item.signed, item.blob⟩] =
      [(item.commit, signed, item.blob)] := by
    simp only [SnapshotStorage.acceptedFragments, List.filterMap_cons, List.filterMap_nil, hdecode,
      Option.bind_eq_bind, Option.bind_some, hpayload, hhead]
    rfl
  rw [haccepted, List.mem_singleton, hdecode]
  constructor
  · rintro rfl
    exact ⟨rfl, rfl, hbytes.fragment hdecode, rfl⟩
  · rintro ⟨hid, hsigned, -, hblob⟩
    rw [Prod.ext_iff, Prod.ext_iff]
    exact ⟨hid, (Option.some.inj hsigned).symm, hblob⟩

theorem mem_filterMap_iff_singleton {α β : Type} {f : α → Option β} {l : List α} {b : β} :
    b ∈ l.filterMap f ↔ ∃ a ∈ l, b ∈ [a].filterMap f := by
  simp [List.mem_filterMap]

/-- What restoring a tree of the journal writes: its items, as they were. -/
theorem mem_puts (hbytes : KeepsBytes codec) (hkeyed : Keyed j.contents)
    (hadmitted : ∀ item, j.contents item.key = some item → Admitted codec lifecycle item)
    (hlifecycle : Opaque.isOpaqueTree t → s.lifecycle = lifecycle) {m : StorageMutation B} :
    m ∈ puts codec s t (j.treeItems t .commit) (j.treeItems t .fragment) ↔
      ∃ item, m = .put item ∧ j.contents item.key = some item ∧ item.tree = t := by
  simp only [puts, List.mem_append, List.mem_map]
  constructor
  · rintro (⟨entry, hentry, rfl⟩ | ⟨entry, hentry, rfl⟩)
    · obtain ⟨i, hi, hentry⟩ := mem_filterMap_iff_singleton.1 hentry
      obtain ⟨item, hitem, rfl, hkind, rfl⟩ := (mem_treeItems hkeyed).1 hi
      obtain ⟨hid, -, hsigned, hblob⟩ :=
        (mem_acceptedCommits hbytes (hadmitted item hitem) hkind hlifecycle).1 hentry
      exact ⟨item, by rw [hid, hsigned, hblob, ← hkind], hitem, rfl⟩
    · obtain ⟨i, hi, hentry⟩ := mem_filterMap_iff_singleton.1 hentry
      obtain ⟨item, hitem, rfl, hkind, rfl⟩ := (mem_treeItems hkeyed).1 hi
      obtain ⟨hid, -, hsigned, hblob⟩ :=
        (mem_acceptedFragments hbytes (hadmitted item hitem) hkind).1 hentry
      exact ⟨item, by rw [hid, hsigned, hblob, ← hkind], hitem, rfl⟩
  · rintro ⟨item, rfl, hitem, rfl⟩
    have hlisted : ∀ kind, item.kind = kind →
        (⟨item.signed, item.blob⟩ : Item B) ∈ j.treeItems item.tree kind := fun kind hkind =>
      (mem_treeItems hkeyed).2 ⟨item, hitem, rfl, hkind, rfl⟩
    rcases hkind : item.kind with _ | _
    · obtain ⟨_, signed, _, _, hdecode, _⟩ := (hadmitted item hitem).commit hkind
      have hentry := (mem_acceptedCommits hbytes (hadmitted item hitem) hkind hlifecycle).2
        (⟨rfl, hdecode, hbytes.commit hdecode, rfl⟩ :
          (item.commit, signed, item.blob).1 = item.commit ∧ _)
      refine .inl ⟨_, mem_filterMap_iff_singleton.2 ⟨_, hlisted _ hkind, hentry⟩, ?_⟩
      rw [hbytes.commit hdecode, ← hkind]
    · obtain ⟨_, _, signed, _, hdecode, _⟩ := (hadmitted item hitem).fragment hkind
      have hentry := (mem_acceptedFragments hbytes (hadmitted item hitem) hkind).2
        (⟨rfl, hdecode, hbytes.fragment hdecode, rfl⟩ :
          (item.commit, signed, item.blob).1 = item.commit ∧ _)
      refine .inr ⟨_, mem_filterMap_iff_singleton.2 ⟨_, hlisted _ hkind, hentry⟩, ?_⟩
      rw [hbytes.fragment hdecode, ← hkind]

/-- An opaque tree has no fragments, nor has the authority tree of a shared document. -/
theorem treeItems_fragment_eq_nil (hkeyed : Keyed j.contents)
    (hadmitted : ∀ item, j.contents item.key = some item → Admitted codec lifecycle item)
    (ht : Opaque.isOpaqueTree t ∨ isSharedNamespace t) : j.treeItems t .fragment = [] := by
  refine List.eq_nil_iff_forall_not_mem.2 fun i hi => ?_
  obtain ⟨item, hitem, rfl, hkind, -⟩ := (mem_treeItems hkeyed).1 hi
  obtain ⟨hplain, _, _, _, _, hadmit, _⟩ := (hadmitted item hitem).fragment hkind
  rcases ht with hopq | hshared
  · exact hplain hopq
  · have := (SnapshotStorage.admitFragment_eq_some.1 hadmit).1
    simp [hshared] at this

/-- Restoring a tree of the journal gives the tree what the journal has of it, and changes no other
tree. -/
theorem contents_restore (hbytes : KeepsBytes codec) (hkeyed : Keyed j.contents)
    (hadmitted : ∀ item, j.contents item.key = some item → Admitted codec lifecycle item)
    (hlifecycle : Opaque.isOpaqueTree t → s.lifecycle = lifecycle)
    (hcurrent : Opaque.isOpaqueTree t → Opaque.status s.lifecycle t = some true)
    (hsound : ∀ k item, s.contents k = some item → j.contents k = some item) (k : ItemKey) :
    (s.restore codec t (j.treeItems t .commit) (j.treeItems t .fragment)).contents k =
      if k.tree = t then j.contents k else s.contents k := by
  have hwrites : SnapshotStorage.Writes s
      (s.restore codec t (j.treeItems t .commit) (j.treeItems t .fragment)) _ :=
    writes_restore fun hopq =>
      ⟨hcurrent hopq, treeItems_fragment_eq_nil hkeyed hadmitted (.inl hopq)⟩
  have hputs : ∀ m ∈ puts codec s t (j.treeItems t .commit) (j.treeItems t .fragment),
      ∃ item, m = .put item ∧ j.contents item.key = some item := by
    intro m hm
    obtain ⟨item, hput, hitem, -⟩ := (mem_puts hbytes hkeyed hadmitted hlifecycle).1 hm
    exact ⟨item, hput, hitem⟩
  rw [hwrites.contents]
  rcases replay_puts hputs s.contents k with ⟨hread, item, hmem, rfl⟩ | ⟨hread, hnone⟩
  · obtain ⟨item', heq, -, htree⟩ := (mem_puts hbytes hkeyed hadmitted hlifecycle).1 hmem
    obtain rfl := StorageMutation.put.inj heq
    rw [hread, if_pos (show item.key.tree = t from htree)]
  · rw [hread]
    split
    next htree =>
      -- nothing was stored under the key, so the journal has nothing under it
      rcases hitem : j.contents k with _ | item
      · rcases hstored : s.contents k with _ | item
        · rfl
        · exact absurd ((hsound k item hstored).symm.trans hitem) (by simp)
      · obtain rfl := hkeyed k item hitem
        exact absurd ⟨item, (mem_puts hbytes hkeyed hadmitted hlifecycle).2
          ⟨item, rfl, hitem, htree⟩, rfl⟩ hnone
    next => rfl

/-- Restoring creates no tree but the one it is called for. -/
theorem mem_trees_restore {commits fragments : List (Item B)} {t' : TreeId}
    (h : t' ∈ (s.restore codec t commits fragments).trees) : t' ∈ s.trees ∨ t' = t := by
  have hwrite : ∀ (s' : SnapshotStorage B) (tree : Tree B),
      (t' ∈ s'.trees → t' ∈ s.trees ∨ t' = t) →
        t' ∈ s'.trees.insert t tree → t' ∈ s.trees ∨ t' = t := by
    intro s' tree hs' hmem
    rcases ExtTreeMap.mem_insert.1 hmem with heq | hmem
    · exact .inr (LawfulEqOrd.compare_eq_iff_eq.1 heq).symm
    · exact hs' hmem
  revert h
  apply SnapshotStorage.restore_induction
    (motive := fun s' => t' ∈ s'.trees → t' ∈ s.trees ∨ t' = t)
  · exact .inl
  · exact hwrite s _ .inl
  · exact fun s' entry hs' _ _ => hwrite s' _ hs'
  · exact fun s' entry hs' _ _ => hwrite s' _ hs'

end Restore

/-! ## The whole snapshot -/

namespace Restoring

/-- The storage has what the contents have of the trees restored so far, and nothing else. -/
structure Restores (c : Contents B) (r : Restoring B) : Prop where
  contents : ∀ k, r.storage.contents k = if k.tree ∈ r.hydrate then c k else none
  trees : ∀ t ∈ r.storage.trees, t ∈ r.hydrate

theorem restores_empty (c : Contents B) : Restores c {} where
  contents := by
    rintro ⟨t, id, _ | _⟩ <;>
      simp [SnapshotStorage.contents, SnapshotStorage.tree, SnapshotStorage.treeItem]
  trees t ht := by simp at ht

/-- Between `r` and `r'` these trees were restored, under the registers of `r`. -/
structure Reaches (c : Contents B) (r r' : Restoring B) (ts : List TreeId) : Prop where
  restores : Restores c r → Restores c r'
  hydrate : r'.hydrate = r.hydrate ++ ts
  lifecycle : r'.storage.lifecycle = r.storage.lifecycle

variable {c : Contents B} {r r' r'' : Restoring B}

theorem Reaches.refl (r : Restoring B) : Reaches c r r [] :=
  ⟨id, by simp, rfl⟩

theorem Reaches.trans {ts ts' : List TreeId} (h : Reaches c r r' ts) (h' : Reaches c r' r'' ts') :
    Reaches c r r'' (ts ++ ts') :=
  ⟨h'.restores ∘ h.restores, by rw [h'.hydrate, h.hydrate, List.append_assoc],
    h'.lifecycle.trans h.lifecycle⟩

/-- A loop restores what its turns restore. -/
theorem reaches_foldl {α : Type} {f : Restoring B → α → Restoring B} {ts : α → List TreeId}
    {l : List α} (hf : ∀ a ∈ l, ∀ r' : Restoring B,
      r'.storage.lifecycle = r.storage.lifecycle → Reaches c r' (f r' a) (ts a)) :
    Reaches c r (l.foldl f r) (l.flatMap ts) := by
  induction l generalizing r with
  | nil => exact .refl r
  | cons a l ih =>
    have hfirst := hf a List.mem_cons_self r rfl
    exact hfirst.trans (ih fun a' ha' r' hr' =>
      hf a' (List.mem_cons_of_mem a ha') r' (hr'.trans hfirst.lifecycle))

end Restoring

section Journal

open Restoring

variable {sha : Sha256} {codec : Codec B} {lifecycle : LifecycleState} {j : JournalState B V}
  {t : TreeId} {r : Restoring B}

/-- The journal's items are filed by name, and `persist_items` admits each. -/
structure Stored (codec : Codec B) (lifecycle : LifecycleState) (j : JournalState B V) : Prop where
  bytes : KeepsBytes codec
  keyed : Keyed j.contents
  admitted : ∀ item, j.contents item.key = some item → Admitted codec lifecycle item

theorem reaches_restoreTree (hj : Stored codec lifecycle j)
    (hlifecycle : Opaque.isOpaqueTree t → r.storage.lifecycle = lifecycle)
    (hcurrent : Opaque.isOpaqueTree t → Opaque.status r.storage.lifecycle t = some true) :
    Reaches j.contents r
      (r.restoreTree codec t (j.treeItems t .commit) (j.treeItems t .fragment)) [t] where
  restores h := by
    have hsound : ∀ k item, r.storage.contents k = some item → j.contents k = some item := by
      intro k item hitem
      rw [h.contents] at hitem
      exact (Option.ite_none_right_eq_some.1 hitem).2
    constructor
    · intro k
      show (r.storage.restore codec t _ _).contents k = if k.tree ∈ r.hydrate ++ [t] then _ else _
      rw [contents_restore hj.bytes hj.keyed hj.admitted hlifecycle hcurrent hsound, h.contents]
      by_cases ht : k.tree = t <;> simp [ht]
    · intro t' ht'
      rcases mem_trees_restore ht' with hold | rfl
      · exact List.mem_append_left _ (h.trees t' hold)
      · exact List.mem_append_right _ (List.mem_singleton_self _)
  hydrate := rfl
  lifecycle := SnapshotStorage.lifecycle_restore codec _ t _ _

theorem firstByte_of_isOpaqueTree (h : Opaque.isOpaqueTree t) : t.firstByte = 0x4F := by
  have htag : t.extractLsb' 224 32 = Opaque.prefixTag := by simpa [Opaque.isOpaqueTree] using h
  have hbyte : t.firstByte = (t.extractLsb' 224 32).extractLsb' 24 8 := by
    ext i hi
    have hlow : 24 + i < 32 := by omega
    simp [Bytes32.firstByte, hlow, ← Nat.add_assoc]
  rw [hbyte, htag]
  decide

theorem firstByte_documentTree (sha : Sha256) (p : String) :
    (documentTree sha p).firstByte = 0 ∨ (documentTree sha p).firstByte = 2 := by
  rw [documentTree, Bytes32.firstByte_setFirstByte]
  split
  · exact .inr rfl
  · exact .inl rfl

theorem firstByte_sharedAuthorityTree (sha : Sha256) (p : String) :
    (sharedAuthorityTree sha p).firstByte = 3 :=
  Bytes32.firstByte_setFirstByte _ _

theorem not_isOpaqueTree_documentTree (sha : Sha256) (p : String) :
    ¬ Opaque.isOpaqueTree (documentTree sha p) := by
  intro h
  have hbyte := firstByte_of_isOpaqueTree h
  rcases firstByte_documentTree sha p with h0 | h2
  · rw [h0] at hbyte
    exact absurd hbyte (by decide)
  · rw [h2] at hbyte
    exact absurd hbyte (by decide)

theorem not_isOpaqueTree_sharedAuthorityTree (sha : Sha256) (p : String) :
    ¬ Opaque.isOpaqueTree (sharedAuthorityTree sha p) := by
  intro h
  have hbyte := firstByte_of_isOpaqueTree h
  rw [firstByte_sharedAuthorityTree] at hbyte
  exact absurd hbyte (by decide)

theorem documentTree_ne_sharedAuthorityTree (sha : Sha256) (p q : String) :
    documentTree sha p ≠ sharedAuthorityTree sha q := by
  intro h
  have hbyte := firstByte_documentTree sha p
  rw [h, firstByte_sharedAuthorityTree] at hbyte
  exact absurd hbyte (by decide)

/-- The trees an app of the snapshot restores. -/
def appTrees (sha : Sha256) (j : JournalState B V) (p : String) : List TreeId :=
  documentTree sha p ::
    if (j.appState sha p).authority.isEmpty then [] else [sharedAuthorityTree sha p]

theorem reaches_restoreApp (hj : Stored codec lifecycle j) (p : String) :
    Reaches j.contents r (r.restoreApp sha codec (j.appState sha p)) (appTrees sha j p) := by
  have hcontent := reaches_restoreTree (r := r) (t := documentTree sha p) hj
    (fun h => absurd h (not_isOpaqueTree_documentTree sha p))
    fun h => absurd h (not_isOpaqueTree_documentTree sha p)
  by_cases hempty : (j.appState sha p).authority.isEmpty
  · simp only [restoreApp, appTrees, if_pos hempty]
    exact hcontent
  · -- an authority that is not empty is what the journal has of the authority tree
    have hauthority : (j.appState sha p).authority =
        j.treeItems (sharedAuthorityTree sha p) .commit := by
      rw [JournalState.appState]
      split
      · rfl
      next hprivate => exact absurd (by simp [JournalState.appState, hprivate]) hempty
    have hnil : j.treeItems (sharedAuthorityTree sha p) .fragment = [] :=
      treeItems_fragment_eq_nil hj.keyed hj.admitted
        (.inr (by simp [isSharedNamespace, firstByte_sharedAuthorityTree, sharedAuthorityTreeTag]))
    have hrest := reaches_restoreTree (t := sharedAuthorityTree sha p)
      (r := r.restoreTree codec (documentTree sha p)
        (j.treeItems (documentTree sha p) .commit) (j.treeItems (documentTree sha p) .fragment)) hj
      (fun h => absurd h (not_isOpaqueTree_sharedAuthorityTree sha p))
      fun h => absurd h (not_isOpaqueTree_sharedAuthorityTree sha p)
    simp only [restoreApp, appTrees, if_neg hempty]
    rw [hauthority]
    rw [hnil] at hrest
    exact hcontent.trans hrest

theorem reaches_restoreState (hj : Stored codec lifecycle j)
    (hplain : Opaque.isOpaqueTree t = false) :
    Reaches j.contents r (r.restoreState codec t (j.nonemptyTree t))
      (if (j.nonemptyTree t).isSome then [t] else []) := by
  rcases hstate : j.nonemptyTree t with _ | state
  · exact .refl r
  · rw [eq_treeState_of_nonemptyTree hstate]
    exact reaches_restoreTree hj (by simp [hplain]) (by simp [hplain])

theorem reaches_restoreOpaque (hj : Stored codec lifecycle j) (ht : Opaque.isOpaqueTree t)
    (hlifecycle : r.storage.lifecycle = lifecycle) :
    Reaches j.contents r (r.restoreOpaque codec ⟨t, (j.treeState t).commits⟩)
      (if Opaque.status lifecycle t = some true then [t] else []) := by
  rw [restoreOpaque, hlifecycle]
  by_cases hcurrent : Opaque.status lifecycle t = some true
  · have hrest := reaches_restoreTree (r := r) hj (fun _ => hlifecycle)
      fun _ => hlifecycle ▸ hcurrent
    rw [treeItems_fragment_eq_nil hj.keyed hj.admitted (.inl ht)] at hrest
    rw [if_pos hcurrent, if_pos hcurrent]
    exact hrest
  · simpa only [if_neg hcurrent] using Reaches.refl r

/-! ## The engine it makes -/

/-- The trees that `snapshot` files under a document or the group. -/
def known (sha : Sha256) (j : JournalState B V) (partitions : List String) : List TreeId :=
  appsTrees sha (partitions.map (j.appState sha)) ++ [usTree sha, keyhiveTree sha]

theorem mem_known {partitions : List String} : t ∈ known sha j partitions ↔
    (∃ p ∈ partitions, t = documentTree sha p ∨
      (sharedDocument p).join.isSome ∧ t = sharedAuthorityTree sha p) ∨
    t = usTree sha ∨ t = keyhiveTree sha := by
  simp only [known, appsTrees, List.mem_append, List.mem_flatMap, List.mem_map, List.mem_cons,
    List.not_mem_nil, or_false]
  refine or_congr_left ⟨?_, ?_⟩
  · rintro ⟨_, ⟨p, hp, rfl⟩, rfl | hauthority⟩
    · exact ⟨p, hp, .inl rfl⟩
    · obtain ⟨hshared, hmem⟩ := List.mem_ite_nil_right.1 hauthority
      exact ⟨p, hp, .inr ⟨hshared, List.mem_singleton.1 hmem⟩⟩
  · rintro ⟨p, hp, rfl | ⟨hshared, rfl⟩⟩
    · exact ⟨_, ⟨p, hp, rfl⟩, .inl rfl⟩
    · exact ⟨_, ⟨p, hp, rfl⟩, .inr (by simp [JournalState.appState, hshared])⟩

/-- The trees of the journal that no document and no group tree is. -/
def loose (sha : Sha256) (j : JournalState B V) (partitions : List String) : List TreeId :=
  j.trees.filter fun t => t ∉ known sha j partitions

/-- What `snapshot` makes of a journal with a record. -/
theorem snapshot_eq_some {snapshot : Snapshot B V} (h : j.snapshot sha = some snapshot) :
    ∃ control, j.control = some control ∧
      snapshot.apps = control.partitions.map (j.appState sha) ∧
      snapshot.us = j.nonemptyTree (usTree sha) ∧
      snapshot.keyhive = j.nonemptyTree (keyhiveTree sha) ∧
      snapshot.opaques = ((loose sha j control.partitions).filter
        fun t => Opaque.isOpaqueTree t).map (fun t => ⟨t, (j.treeState t).commits⟩) ∧
      snapshot.unbound = ((loose sha j control.partitions).filter
        fun t => !Opaque.isOpaqueTree t).map
          fun t => ⟨t, (j.treeState t).commits, (j.treeState t).fragments⟩ := by
  rw [JournalState.snapshot, Option.map_eq_some_iff] at h
  obtain ⟨control, hcontrol, rfl⟩ := h
  exact ⟨control, hcontrol, rfl, rfl, rfl, rfl, rfl⟩

end Journal

namespace Restoring

/-- Restoring trees moves no register. -/
theorem lifecycle_content (sha : Sha256) (codec : Codec B) (r : Restoring B)
    (registers : ExtTreeMap SlotHash RegisterValue) (snapshot : Snapshot B V) :
    (r.content sha codec registers snapshot).storage.lifecycle =
      (r.setRegisters registers).storage.lifecycle := by
  have hfold : ∀ {α : Type} (f : Restoring B → α → Restoring B),
      (∀ r a, (f r a).storage.lifecycle = r.storage.lifecycle) → ∀ (l : List α) (r : Restoring B),
      (l.foldl f r).storage.lifecycle = r.storage.lifecycle := by
    intro α f hf l
    induction l with
    | nil => exact fun r => rfl
    | cons a l ih => exact fun r => (ih (f r a)).trans (hf r a)
  have hstate : ∀ (t : TreeId) (r : Restoring B) (state : Option (TreeState B)),
      (r.restoreState codec t state).storage.lifecycle = r.storage.lifecycle := by
    rintro t r (_ | state)
    · rfl
    · exact SnapshotStorage.lifecycle_restore codec _ _ _ _
  rw [content, hstate, hfold (restoreUnbound codec), hfold (restoreOpaque codec)]
  · intro r state
    unfold restoreOpaque
    split
    · exact SnapshotStorage.lifecycle_restore codec _ _ _ _
    · rfl
  · exact fun r state => SnapshotStorage.lifecycle_restore codec _ _ _ _

section Halves

variable {sha : Sha256} {codec : Codec B} {lifecycle : LifecycleState} {j : JournalState B V}
  {snapshot : Snapshot B V} {partitions : List String}

/-- The half of `Engine::new` before the registers. -/
theorem reaches_control (hj : Stored codec lifecycle j)
    (hplain : Opaque.isOpaqueTree (usTree sha) = false)
    (happs : snapshot.apps = partitions.map (j.appState sha))
    (hus : snapshot.us = j.nonemptyTree (usTree sha)) :
    Reaches j.contents {} (control sha codec snapshot) (partitions.flatMap (appTrees sha j) ++
      if (j.nonemptyTree (usTree sha)).isSome then [usTree sha] else []) := by
  rw [control, happs, hus, List.foldl_map]
  exact (reaches_foldl fun p _ r _ => reaches_restoreApp hj p).trans
    (reaches_restoreState hj hplain)

/-- The half of `Engine::new` behind the registers. -/
theorem reaches_content (hj : Stored codec lifecycle j)
    (hplain : Opaque.isOpaqueTree (keyhiveTree sha) = false)
    (hkeyhive : snapshot.keyhive = j.nonemptyTree (keyhiveTree sha))
    (hopaques : snapshot.opaques = ((loose sha j partitions).filter
      fun t => Opaque.isOpaqueTree t).map (fun t => ⟨t, (j.treeState t).commits⟩))
    (hunbound : snapshot.unbound = ((loose sha j partitions).filter
      fun t => !Opaque.isOpaqueTree t).map
        fun t => ⟨t, (j.treeState t).commits, (j.treeState t).fragments⟩)
    {r : Restoring B} {registers : ExtTreeMap SlotHash RegisterValue}
    (hlifecycle : (r.setRegisters registers).storage.lifecycle = lifecycle) :
    Reaches j.contents (r.setRegisters registers) (r.content sha codec registers snapshot)
      (((loose sha j partitions).filter fun t => Opaque.isOpaqueTree t).flatMap
        (fun t => if Opaque.status lifecycle t = some true then [t] else []) ++
      ((loose sha j partitions).filter fun t => !Opaque.isOpaqueTree t) ++
      if (j.nonemptyTree (keyhiveTree sha)).isSome then [keyhiveTree sha] else []) := by
  rw [content, hkeyhive, hopaques, hunbound, List.foldl_map, List.foldl_map]
  have hunboundTrees : ∀ r : Restoring B, Reaches j.contents r
      (((loose sha j partitions).filter fun t => !Opaque.isOpaqueTree t).foldl
        (fun r t => r.restoreUnbound codec
          ⟨t, (j.treeState t).commits, (j.treeState t).fragments⟩) r)
      ((loose sha j partitions).filter fun t => !Opaque.isOpaqueTree t) := by
    intro r
    have hloop : Reaches j.contents r _
        (((loose sha j partitions).filter fun t => !Opaque.isOpaqueTree t).flatMap fun t => [t]) :=
      reaches_foldl fun t ht r' _ => by
        have hnot : Opaque.isOpaqueTree t = false := by simpa using (List.mem_filter.1 ht).2
        exact reaches_restoreTree hj (by simp [hnot]) (by simp [hnot])
    rwa [List.flatMap_singleton'] at hloop
  refine ((reaches_foldl fun t ht r' hr' => ?_).trans (hunboundTrees _)).trans
    (reaches_restoreState hj hplain)
  exact reaches_restoreOpaque hj (by simpa using (List.mem_filter.1 ht).2) (hr'.trans hlifecycle)

end Halves

end Restoring

namespace Engine

section New

variable {sha : Sha256} {codec : Codec B} {docs : UsDocs B Us} {j : JournalState B V}
  {control : EngineControl V} {t : TreeId}

/-- The trees `Engine::new` restores, in its order. -/
def restoredTrees (sha : Sha256) (j : JournalState B V) (partitions : List String)
    (lifecycle : LifecycleState) : List TreeId :=
  partitions.flatMap (appTrees sha j) ++
    (if (j.nonemptyTree (usTree sha)).isSome then [usTree sha] else []) ++
    (((loose sha j partitions).filter fun t => Opaque.isOpaqueTree t).flatMap
        (fun t => if Opaque.status lifecycle t = some true then [t] else []) ++
      ((loose sha j partitions).filter fun t => !Opaque.isOpaqueTree t) ++
      if (j.nonemptyTree (keyhiveTree sha)).isSome then [keyhiveTree sha] else [])

/-- What `Engine::new` has restored when it returns: these trees, as the journal has them. -/
theorem new_spec (hcontrol : j.control = some control)
    (hplain : Opaque.isOpaqueTree (usTree sha) = false)
    (hplain' : Opaque.isOpaqueTree (keyhiveTree sha) = false)
    (hj : Stored codec (new sha codec docs (j.snapshot sha)).storage.lifecycle j) :
    let e := new sha codec docs (j.snapshot sha)
    let trees := restoredTrees sha j control.partitions e.storage.lifecycle
    e.pendingHydration.getD [] = trees ∧ (∀ t ∈ e.storage.trees, t ∈ trees) ∧
      ∀ k, e.storage.contents k = if k.tree ∈ trees then j.contents k else none := by
  intro e trees
  rcases hsnapshot : j.snapshot sha with _ | snapshot
  · simp [JournalState.snapshot, hcontrol] at hsnapshot
  obtain ⟨control', hcontrol', happs, hus, hkeyhive, hopaques, hunbound⟩ :=
    snapshot_eq_some hsnapshot
  obtain rfl : control = control' := Option.some.inj (hcontrol.symm.trans hcontrol')
  let first := Restoring.control sha codec snapshot
  let registers := ((restoredUs sha docs first.storage snapshot.us).map docs.opaqueRegisters).getD ∅
  let last := first.content sha codec registers snapshot
  have he : e.storage = last.storage.markRestored ∧ e.pendingHydration.getD [] = last.hydrate := by
    show (new sha codec docs (j.snapshot sha)).storage = _ ∧
      (new sha codec docs (j.snapshot sha)).pendingHydration.getD [] = _
    rw [hsnapshot]
    refine ⟨rfl, ?_⟩
    show (if last.hydrate.isEmpty then none else some last.hydrate).getD [] = last.hydrate
    split
    next hempty => exact (List.isEmpty_iff.1 hempty).symm
    next => rfl
  have hlifecycle : (first.setRegisters registers).storage.lifecycle = e.storage.lifecycle := by
    rw [he.1]
    exact (Restoring.lifecycle_content sha codec first registers snapshot).symm
  have hfirst := Restoring.reaches_control hj hplain happs hus
  have hlast := Restoring.reaches_content hj hplain' hkeyhive hopaques hunbound hlifecycle
  have hhydrate : last.hydrate = trees := by
    rw [hlast.hydrate, show (first.setRegisters registers).hydrate = first.hydrate from rfl,
      hfirst.hydrate]
    rfl
  have hrestores : Restoring.Restores j.contents last := by
    have hcontrol := hfirst.restores (Restoring.restores_empty _)
    exact hlast.restores ⟨hcontrol.contents, hcontrol.trees⟩
  rw [he.2, he.1, hhydrate]
  exact ⟨rfl, hhydrate ▸ hrestores.trees, hhydrate ▸ hrestores.contents⟩

/-- Which trees are restored: the documents', the group's two and the unbound ones, with the opaque
trees that the registers name. -/
theorem mem_restoredTrees (hkeyed : Keyed j.contents) {lifecycle : LifecycleState}
    {partitions : List String} {item : StoreItem B} (hitem : j.contents item.key = some item)
    (hadmitted : Admitted codec lifecycle item)
    (hplain : Opaque.isOpaqueTree (usTree sha) = false)
    (hplain' : Opaque.isOpaqueTree (keyhiveTree sha) = false) :
    item.tree ∈ restoredTrees sha j partitions lifecycle ↔
      (Opaque.isOpaqueTree item.tree → Opaque.status lifecycle item.tree = some true) := by
  have hstate := nonemptyTree_of_item hkeyed hitem
  constructor
  · intro hmem hopq
    simp only [restoredTrees, List.mem_append, List.mem_flatMap, List.mem_filter, appTrees,
      List.mem_cons] at hmem
    rcases hmem with (⟨p, -, hdocument | hauthority⟩ | hus) |
      ((⟨t, -, hopaque⟩ | ⟨-, hunbound⟩) | hkeyhive)
    · exact absurd (hdocument ▸ hopq) (not_isOpaqueTree_documentTree sha p)
    · obtain ⟨-, hauthority⟩ := List.mem_ite_nil_left.1 hauthority
      rw [List.mem_singleton] at hauthority
      exact absurd (hauthority ▸ hopq) (not_isOpaqueTree_sharedAuthorityTree sha p)
    · obtain ⟨-, hus⟩ := List.mem_ite_nil_right.1 hus
      rw [List.mem_singleton] at hus
      rw [hus, hplain] at hopq
      contradiction
    · obtain ⟨hcurrent, hmem⟩ := List.mem_ite_nil_right.1 hopaque
      rw [List.mem_singleton.1 hmem]
      exact hcurrent
    · simp [hopq] at hunbound
    · obtain ⟨-, hkeyhive⟩ := List.mem_ite_nil_right.1 hkeyhive
      rw [List.mem_singleton] at hkeyhive
      rw [hkeyhive, hplain'] at hopq
      contradiction
  · intro hcurrent
    by_cases hknown : item.tree ∈ known sha j partitions
    · rcases mem_known.1 hknown with ⟨p, hp, hdocument | ⟨hshared, hauthority⟩⟩ | hus | hkeyhive
      · simp only [restoredTrees, List.mem_append, List.mem_flatMap]
        exact .inl (.inl ⟨p, hp, hdocument ▸ List.mem_cons_self⟩)
      · -- the authority tree of a shared document holds commits only, so it is not empty
        have hkind : item.kind = .commit := by
          rcases hkind : item.kind with _ | _
          · rfl
          · obtain ⟨-, _, _, _, -, hadmit, -⟩ := hadmitted.fragment hkind
            have hclosed := (SnapshotStorage.admitFragment_eq_some.1 hadmit).1
            simp [isSharedNamespace, hauthority, firstByte_sharedAuthorityTree,
              sharedAuthorityTreeTag] at hclosed
        have hmem : (⟨item.signed, item.blob⟩ : Item B) ∈ (j.appState sha p).authority := by
          rw [JournalState.appState]
          simp only [if_pos hshared]
          exact (mem_treeItems hkeyed).2 ⟨item, hitem, hauthority, hkind, rfl⟩
        have hne : ¬ (j.appState sha p).authority.isEmpty := fun hempty => by
          rw [List.isEmpty_iff.1 hempty] at hmem
          exact absurd hmem List.not_mem_nil
        simp only [restoredTrees, List.mem_append, List.mem_flatMap]
        refine .inl (.inl ⟨p, hp, ?_⟩)
        rw [appTrees, if_neg hne, hauthority]
        exact List.mem_cons_of_mem _ (List.mem_singleton_self _)
      · simp only [restoredTrees, List.mem_append]
        refine .inl (.inr ?_)
        rw [← hus, hstate]
        exact List.mem_singleton_self _
      · simp only [restoredTrees, List.mem_append]
        refine .inr (.inr ?_)
        rw [← hkeyhive, hstate]
        exact List.mem_singleton_self _
    · have hloose : item.tree ∈ loose sha j partitions :=
        List.mem_filter.2 ⟨(mem_trees hkeyed).2 ⟨item, hitem, rfl⟩, by simpa using hknown⟩
      simp only [restoredTrees, List.mem_append, List.mem_flatMap, List.mem_filter]
      by_cases hopq : Opaque.isOpaqueTree item.tree
      · refine .inr (.inl (.inl ⟨item.tree, ⟨hloose, by simpa using hopq⟩, ?_⟩))
        rw [if_pos (hcurrent hopq)]
        exact List.mem_singleton_self _
      · exact .inr (.inl (.inr ⟨hloose, by simpa using hopq⟩))

end New

end Engine

/-! ## The parts, and the whole -/

section Parts

variable {sha : Sha256} {codec : Codec B} {lifecycle : LifecycleState} {j : JournalState B V}
  {snapshot : Snapshot B V} {partitions : List String} {item : StoreItem B}

/-- The part of a snapshot that a tree belongs to. -/
def partOf (sha : Sha256) (partitions : List String) (t : TreeId) : Part :=
  if ∃ p ∈ partitions, t = documentTree sha p then .apps
  else if ∃ p ∈ partitions, (sharedDocument p).join.isSome ∧ t = sharedAuthorityTree sha p then
    .authority
  else if t = usTree sha then .us
  else if t = keyhiveTree sha then .keyhive
  else if Opaque.isOpaqueTree t then .opaques
  else .unbound

theorem partOf_of_not_known {t : TreeId} (h : t ∉ known sha j partitions) :
    partOf sha partitions t = if Opaque.isOpaqueTree t then .opaques else .unbound := by
  have hnot := mt mem_known.2 h
  rw [partOf, if_neg, if_neg, if_neg, if_neg]
  · exact fun hkeyhive => hnot (.inr (.inr hkeyhive))
  · exact fun hus => hnot (.inr (.inl hus))
  · exact fun ⟨p, hp, hauthority⟩ => hnot (.inl ⟨p, hp, .inr hauthority⟩)
  · exact fun ⟨p, hp, hdocument⟩ => hnot (.inl ⟨p, hp, .inl hdocument⟩)

/-- An item is listed in the part of its tree, and in no other. -/
theorem lists_iff (hapart : TreesApart sha partitions) (hj : Stored codec lifecycle j)
    (hitem : j.contents item.key = some item)
    (happs : snapshot.apps = partitions.map (j.appState sha))
    (hus : snapshot.us = j.nonemptyTree (usTree sha))
    (hkeyhive : snapshot.keyhive = j.nonemptyTree (keyhiveTree sha))
    (hopaques : snapshot.opaques = ((loose sha j partitions).filter
      fun t => Opaque.isOpaqueTree t).map (fun t => ⟨t, (j.treeState t).commits⟩))
    (hunbound : snapshot.unbound = ((loose sha j partitions).filter
      fun t => !Opaque.isOpaqueTree t).map
        fun t => ⟨t, (j.treeState t).commits, (j.treeState t).fragments⟩) {part : Part} :
    (∃ entry ∈ entries sha snapshot, entry.part = part ∧ entry.Lists item) ↔
      part = partOf sha partitions item.tree := by
  have hlisted : (⟨item.signed, item.blob⟩ : Item B) ∈ j.treeItems item.tree item.kind :=
    (mem_treeItems hj.keyed).2 ⟨item, hitem, rfl, rfl, rfl⟩
  have hstate := nonemptyTree_of_item hj.keyed hitem
  -- where fragments have no place, the item is a commit
  have hcommit : Opaque.isOpaqueTree item.tree ∨ isSharedNamespace item.tree →
      item.kind = .commit := by
    intro hnone
    rcases hkind : item.kind with _ | _
    · rfl
    · rw [hkind, treeItems_fragment_eq_nil hj.keyed hj.admitted hnone] at hlisted
      exact absurd hlisted List.not_mem_nil
  have hall : ∀ (part : Part) (state : TreeState B), state = j.treeState item.tree →
      (⟨part, item.tree, state.commits, state.fragments⟩ : Entry B).Lists item := by
    rintro part _ rfl
    refine ⟨rfl, ?_⟩
    rcases hkind : item.kind with _ | _ <;> rw [hkind] at hlisted <;> exact hlisted
  have hloose : ∀ t, t ∈ loose sha j partitions ↔ t ∈ j.trees ∧ t ∉ known sha j partitions := by
    simp [loose]
  simp only [entries, List.mem_append, List.mem_map, Option.mem_toList, happs, hus, hkeyhive,
    hopaques, hunbound]
  constructor
  · rintro ⟨entry, ((((⟨_, ⟨p, hp, rfl⟩, rfl⟩ | ⟨_, ⟨p, hp, rfl⟩, rfl⟩) | ⟨state, -, rfl⟩) |
      ⟨state, -, rfl⟩) | ⟨_, ⟨t, ht, rfl⟩, rfl⟩) | ⟨_, ⟨t, ht, rfl⟩, rfl⟩, rfl, htree, hmem⟩
    · rw [partOf, if_pos ⟨p, hp, htree.symm⟩]
    · have hshared : (sharedDocument p).join.isSome := by
        by_contra hprivate
        rcases hkind : item.kind with _ | _ <;>
          simp [hkind, Entry.items, JournalState.appState, hprivate] at hmem
      rw [partOf, if_neg, if_pos ⟨p, hp, hshared, htree.symm⟩]
      rintro ⟨q, -, hq⟩
      exact documentTree_ne_sharedAuthorityTree sha q p (hq.symm.trans htree.symm)
    · have htree : item.tree = usTree sha := htree.symm
      rw [partOf, if_neg, if_neg, if_pos htree]
      · rintro ⟨p, hp, -, hq⟩
        exact hapart.authority_us p hp (hq.symm.trans htree)
      · rintro ⟨p, hp, hq⟩
        exact hapart.document_us p hp (hq.symm.trans htree)
    · have htree : item.tree = keyhiveTree sha := htree.symm
      rw [partOf, if_neg, if_neg, if_neg, if_pos htree]
      · exact fun hq => hapart.us_keyhive (hq.symm.trans htree)
      · rintro ⟨p, hp, -, hq⟩
        exact hapart.authority_keyhive p hp (hq.symm.trans htree)
      · rintro ⟨p, hp, hq⟩
        exact hapart.document_keyhive p hp (hq.symm.trans htree)
    · obtain ⟨ht, hopq⟩ := List.mem_filter.1 ht
      obtain rfl : t = item.tree := htree
      rw [partOf_of_not_known ((hloose _).1 ht).2, if_pos (by simpa using hopq)]
    · obtain ⟨ht, hopq⟩ := List.mem_filter.1 ht
      obtain rfl : t = item.tree := htree
      rw [partOf_of_not_known ((hloose _).1 ht).2, if_neg (by simpa using hopq)]
  · rintro rfl
    by_cases hknown : item.tree ∈ known sha j partitions
    · rw [partOf]
      split_ifs with hdocument hauthority hisUs hisKeyhive hopq
      · obtain ⟨p, hp, heq⟩ := hdocument
        refine ⟨_, .inl (.inl (.inl (.inl (.inl ⟨_, ⟨p, hp, rfl⟩, rfl⟩)))), rfl, ?_⟩
        show (⟨.apps, documentTree sha p, (j.treeState (documentTree sha p)).commits,
          (j.treeState (documentTree sha p)).fragments⟩ : Entry B).Lists item
        rw [← heq]
        exact hall .apps _ rfl
      · obtain ⟨p, hp, hshared, heq⟩ := hauthority
        refine ⟨_, .inl (.inl (.inl (.inl (.inr ⟨_, ⟨p, hp, rfl⟩, rfl⟩)))), rfl, heq.symm, ?_⟩
        have hkind := hcommit (.inr (by
          simp [isSharedNamespace, heq, firstByte_sharedAuthorityTree, sharedAuthorityTreeTag]))
        simp only [hkind, Entry.items, JournalState.appState, if_pos hshared]
        rw [← heq]
        rw [hkind] at hlisted
        exact hlisted
      · refine ⟨_, .inl (.inl (.inl (.inr ⟨j.treeState item.tree, ?_, rfl⟩))), rfl, ?_⟩
        · rw [← hisUs]
          exact hstate
        · rw [← hisUs]
          exact hall .us _ rfl
      · refine ⟨_, .inl (.inl (.inr ⟨j.treeState item.tree, ?_, rfl⟩)), rfl, ?_⟩
        · rw [← hisKeyhive]
          exact hstate
        · rw [← hisKeyhive]
          exact hall .keyhive _ rfl
      all_goals
        rcases mem_known.1 hknown with ⟨p, hp, heq | heq⟩ | heq | heq
        · exact absurd ⟨p, hp, heq⟩ hdocument
        · exact absurd ⟨p, hp, heq⟩ hauthority
        · exact absurd heq hisUs
        · exact absurd heq hisKeyhive
    · have ht := (hloose _).2 ⟨(mem_trees hj.keyed).2 ⟨item, hitem, rfl⟩, hknown⟩
      rw [partOf_of_not_known hknown]
      split_ifs with hopq
      · refine ⟨_, .inl (.inr ⟨_, ⟨item.tree, List.mem_filter.2 ⟨ht, by simpa using hopq⟩, rfl⟩,
          rfl⟩), rfl, rfl, ?_⟩
        rw [hcommit (.inl hopq)] at hlisted ⊢
        exact hlisted
      · exact ⟨_, .inr ⟨_, ⟨item.tree, List.mem_filter.2 ⟨ht, by simpa using hopq⟩, rfl⟩, rfl⟩, rfl,
          hall .unbound _ rfl⟩

end Parts

/-- A journal without a record has no item. -/
theorem eq_empty_of_control_eq_none {deltas : List (EngineDelta B V)}
    (h : (deltas.foldl JournalState.apply ({} : JournalState B V)).control = none) :
    deltas = [] := by
  rcases List.eq_nil_or_concat' deltas with rfl | ⟨before, last, rfl⟩
  · rfl
  · rw [List.foldl_append] at h
    exact nomatch h

/-- Replaying a journal restores exactly the stored trees. The snapshot has each item in one part;
the engine built on it holds what the journal holds, key by key, but for the opaque trees that the
restored register does not name; and `hydrate` hands each tree it restored to the driver. -/
theorem replay_restores (sha : Sha256) {codec : Codec B} (docs : UsDocs B Us)
    (deltas : List (EngineDelta B V)) {j : JournalState B V} {e : Engine B V Us}
    (hj : j = deltas.foldl JournalState.apply {})
    (he : e = Engine.new sha codec docs (j.snapshot sha)) (hbytes : KeepsBytes codec)
    (hapart : TreesApart sha ((j.control.map (·.partitions)).getD []))
    (hadmitted : ∀ item, j.contents item.key = some item →
      Admitted codec e.storage.lifecycle item) :
    (∀ item, j.contents item.key = some item →
        ∃! part, ∃ entry ∈ ((j.snapshot sha).map (entries sha)).getD [],
          entry.part = part ∧ entry.Lists item) ∧
      (∀ k, e.storage.contents k = if e.NotCurrent k.tree then none else j.contents k) ∧
      ∀ t ∈ e.storage.trees, (t, e.storage.metadata t) ∈ e.handed := by
  have hkeyed : Keyed j.contents := hj ▸ keyed_journal deltas
  rcases hcontrol : j.control with _ | control
  · have hnil : deltas = [] := eq_empty_of_control_eq_none (hj ▸ hcontrol)
    subst hnil hj
    have hempty : ∀ k, ({} : JournalState B V).contents k = none := fun k => by
      simp [JournalState.contents]
    subst he
    refine ⟨fun item hitem => ?_, fun k => ?_, fun t ht => ?_⟩
    · exact absurd ((hempty _).symm.trans hitem) (by simp)
    · obtain ⟨t, id, _ | _⟩ := k <;>
        simp [Engine.new, JournalState.snapshot, SnapshotStorage.contents, SnapshotStorage.tree,
          SnapshotStorage.treeItem, hempty]
    · simp [Engine.new, JournalState.snapshot] at ht
  have hapart' : TreesApart sha control.partitions := by simpa [hcontrol] using hapart
  have hstored : Stored codec e.storage.lifecycle j := ⟨hbytes, hkeyed, hadmitted⟩
  subst he
  obtain ⟨hpending, htrees, hcontents⟩ :=
    Engine.new_spec hcontrol hapart'.us_plain hapart'.keyhive_plain hstored
  refine ⟨fun item hitem => ?_, fun k => ?_, fun t ht => ?_⟩
  · rcases hsnapshot : j.snapshot sha with _ | snapshot
    · simp [JournalState.snapshot, hcontrol] at hsnapshot
    obtain ⟨control', hcontrol', happs, hus, hkeyhive, hopaques, hunbound⟩ :=
      snapshot_eq_some hsnapshot
    obtain rfl : control = control' := Option.some.inj (hcontrol.symm.trans hcontrol')
    have hiff : ∀ part, (∃ entry ∈ entries sha snapshot, entry.part = part ∧ entry.Lists item) ↔
        part = partOf sha control.partitions item.tree := fun part =>
      lists_iff hapart' hstored hitem happs hus hkeyhive hopaques hunbound
    exact ⟨_, (hiff _).2 rfl, fun part hpart => (hiff part).1 hpart⟩
  · rw [hcontents]
    rcases hitem : j.contents k with _ | item
    · simp
    obtain rfl := hkeyed k item hitem
    have hmem : item.key.tree ∈ Engine.restoredTrees sha j control.partitions _ ↔
        (Opaque.isOpaqueTree item.key.tree → _) :=
      Engine.mem_restoredTrees hkeyed hitem (hadmitted item hitem) hapart'.us_plain
        hapart'.keyhive_plain
    by_cases hrestored : item.key.tree ∈ Engine.restoredTrees sha j control.partitions
        (Engine.new sha codec docs (j.snapshot sha)).storage.lifecycle
    · rw [if_pos hrestored, if_neg fun hnot => hnot.2 (hmem.1 hrestored hnot.1)]
    · rw [if_neg hrestored, if_pos]
      exact Classical.not_imp.1 (mt hmem.2 hrestored)
  · rw [Engine.handed, hpending]
    exact List.mem_map_of_mem (htrees t ht)

/-! ## A journal with one item of each sort -/

/-- A digest that counts bytes. -/
def countingSha : Sha256 := fun bytes => BitVec.ofNat 256 bytes.length

/-- An envelope is its own name: `[1]` and `[3]` are commits, `[2]` is a fragment. -/
def sampleCodec : Codec Bytes where
  blobMeta blob := ⟨0, blob.length⟩
  ciphertextRefs _ := none
  sharedCref _ _ := 0
  hashRefs _ := 0
  itemId _ _ _ := 9
  decodeCommit bytes :=
    if bytes = [1] then some ⟨7, bytes, some ⟨20, 1, [], ⟨0, 0⟩⟩⟩
    else if bytes = [3] then some ⟨7, bytes, some ⟨Opaque.treeId 1 1, 9, [], ⟨0, 0⟩⟩⟩
    else none
  decodeFragment bytes :=
    if bytes = [2] then some ⟨7, bytes, some ⟨42, 2, [], [], ⟨0, 0⟩⟩⟩ else none
  minimize _ commits := commits

/-- A change of the partition `p`, a fragment of a tree nobody has opened, and a commit of a slot
that the group does not have. -/
def sampleItems : List (StoreItem Bytes) :=
  [⟨20, 1, [1], [], .commit⟩, ⟨42, 2, [2], [], .fragment⟩, ⟨Opaque.treeId 1 1, 9, [3], [], .commit⟩]

def sampleDelta : EngineDelta Bytes Unit where
  control := { partitions := ["p"], vault := none, nameKey := none }
  mutations := sampleItems.map .put

def sampleJournal : JournalState Bytes Unit := [sampleDelta].foldl JournalState.apply {}

def sampleEngine : Engine Bytes Unit Unit :=
  Engine.new countingSha sampleCodec ⟨fun _ => (), fun _ _ _ => (), fun _ => ∅⟩
    (sampleJournal.snapshot countingSha)

theorem mem_sampleItems {item : StoreItem Bytes}
    (h : sampleJournal.contents item.key = some item) : item ∈ sampleItems := by
  have hcontents : sampleJournal.contents = replay (sampleItems.map .put) fun _ => none := by
    rw [sampleJournal, JournalState.contents_foldl_apply, List.flatMap_singleton]
    congr 1
  have hfound : ∀ item ∈ sampleItems,
      (sampleItems.find? fun other => other.key = item.key) = some item := by
    decide
  have hputs : ∀ m ∈ sampleItems.map StorageMutation.put, ∃ item, m = .put item ∧
      (fun k => sampleItems.find? fun other => other.key = k) item.key = some item := by
    intro m hm
    obtain ⟨item, hitem, rfl⟩ := List.mem_map.1 hm
    exact ⟨item, rfl, hfound item hitem⟩
  rw [hcontents] at h
  rcases replay_puts (c := fun k => sampleItems.find? fun other => other.key = k) hputs
    (fun _ => none) item.key with ⟨hread, -⟩ | ⟨hread, -⟩
  · exact List.mem_of_find?_eq_some (hread.symm.trans h)
  · exact nomatch hread.symm.trans h

theorem keepsBytes_sampleCodec : KeepsBytes sampleCodec := by
  constructor
  · intro bytes signed h
    simp only [sampleCodec] at h
    split_ifs at h <;> exact Option.some.inj h ▸ rfl
  · intro bytes signed h
    simp only [sampleCodec] at h
    split_ifs at h
    exact Option.some.inj h ▸ rfl

theorem treesApart_countingSha : TreesApart countingSha ["p"] := by
  constructor <;> decide +kernel

/-- Each item of the journal passes the check of `persist_items`. -/
theorem admitted_sampleJournal {item : StoreItem Bytes}
    (hitem : sampleJournal.contents item.key = some item) :
    Admitted sampleCodec sampleEngine.storage.lifecycle item := by
  have hmem := mem_sampleItems hitem
  simp only [sampleItems, List.mem_cons, List.not_mem_nil, or_false] at hmem
  rcases hmem with rfl | rfl | rfl
  · refine ⟨fun _ => ⟨{ lifecycle := sampleEngine.storage.lifecycle },
      ⟨7, [1], some ⟨20, 1, [], ⟨0, 0⟩⟩⟩, ⟨20, 1, [], ⟨0, 0⟩⟩, rfl, rfl, ?_, rfl⟩,
      fun h => (nomatch h)⟩
    exact SnapshotStorage.admitCommit_eq_some.2
      ⟨rfl, rfl, rfl, rfl, by decide, fun h => absurd h (by decide)⟩
  · exact ⟨fun h => (nomatch h), fun _ => ⟨by decide, {}, _, _, rfl, rfl, rfl⟩⟩
  · refine ⟨fun _ => ⟨{ lifecycle := sampleEngine.storage.lifecycle },
      ⟨7, [3], some ⟨Opaque.treeId 1 1, 9, [], ⟨0, 0⟩⟩⟩, ⟨Opaque.treeId 1 1, 9, [], ⟨0, 0⟩⟩,
      rfl, rfl, ?_, rfl⟩, fun h => (nomatch h)⟩
    exact SnapshotStorage.admitCommit_eq_some.2
      ⟨rfl, rfl, rfl, rfl, by decide, fun _ _ => by decide +kernel⟩

theorem replay_restores_sampleJournal :
    (∀ item, sampleJournal.contents item.key = some item →
        ∃! part, ∃ entry ∈ ((sampleJournal.snapshot countingSha).map (entries countingSha)).getD [],
          entry.part = part ∧ entry.Lists item) ∧
      (∀ k, sampleEngine.storage.contents k =
        if sampleEngine.NotCurrent k.tree then none else sampleJournal.contents k) ∧
      ∀ t ∈ sampleEngine.storage.trees,
        (t, sampleEngine.storage.metadata t) ∈ sampleEngine.handed :=
  replay_restores countingSha _ [sampleDelta] rfl rfl keepsBytes_sampleCodec
    treesApart_countingSha fun _ => admitted_sampleJournal

/-- The commit of a slot that the restored registers have no entry for is admitted and stored, no
register says that its tree is not current, and the engine does not hold it. -/
theorem unregistered_slot_is_dropped :
    ∃ item : StoreItem Bytes, sampleJournal.contents item.key = some item ∧
      Admitted sampleCodec sampleEngine.storage.lifecycle item ∧
      Opaque.status sampleEngine.storage.lifecycle item.tree ≠ some false ∧
      sampleEngine.storage.contents item.key = none := by
  let item : StoreItem Bytes := ⟨Opaque.treeId 1 1, 9, [3], [], .commit⟩
  have hitem : sampleJournal.contents item.key = some item := by
    decide +kernel
  refine ⟨item, hitem, admitted_sampleJournal hitem, ?_, ?_⟩
  · decide +kernel
  · decide +kernel

end Polyvisor.Replay
