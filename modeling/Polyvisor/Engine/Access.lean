import Polyvisor.Engine.Admission
import Polyvisor.Engine.Snapshot
import Polyvisor.Lib.Transition

/-!
# Who may read and write a tree

Three places of the engine decide it, each by the tree's id and by what it finds recorded: the
storage policy of `engine/src/policy.rs`, asked before a remote peer's request; the author check
`persist_items` makes of every item it is handed (`SnapshotStorage.sharedAuthorized`); and
`valid_ingest_item` of `engine/src/lib.rs`, asked of everything a store hands back.

The module defines the policy, the import path and the device they share, and the machine that
interleaves requests, imports and changes of role. One turn of `ingest_items` is one step: the
items of a tree are judged and restored with no await in between, while a role may change
between the turns of two trees.

## Main results

* `enters_step`: what a step can put into a tree, and by which check.
* `roles_run`: in every state a run reaches, records exist for trees of the reserved namespace
  only, and every recorded editor is a recorded reader.
-/

namespace Polyvisor

open Std

variable {B : Type}

/-! ## The policy -/

/-- `StorageAction`. -/
inductive StorageAction where
  | read
  | write
  | delete
  deriving DecidableEq, Repr

/-- `Provenance`: this device's own call, or one on a remote peer's behalf. -/
inductive Provenance where
  | own
  | remote (peer : Bytes32)
  deriving DecidableEq, Repr

/-- `Verdict`. -/
inductive Verdict where
  | allow
  | deny
  deriving DecidableEq, Repr

/-- `GroupPolicy`, with the registers, the ready peers and the records it shares with the
engine. Only trees of the reserved namespace ever get a record. -/
structure GroupPolicy where
  members : Finset Bytes32
  lifecycle : LifecycleState
  shared : SharedAuthorities
  reserved : ∀ t ∈ shared, isSharedNamespace t

/-- `authorize`. -/
def GroupPolicy.authorize (policy : GroupPolicy) (provenance : Provenance) (t : TreeId)
    (action : StorageAction) : Verdict :=
  let retired := Opaque.isOpaqueTree t && Opaque.status policy.lifecycle t != some true
  let peerNotReady := match provenance with
    | .own => false
    | .remote peer => Opaque.isOpaqueTree t && !policy.lifecycle.readyPeers.contains peer
  if (retired || peerNotReady) && action != .delete then .deny
  else
    match provenance with
    | .own => .allow
    | .remote peer =>
      let allowed : Bool := match policy.shared[t]? with
        -- a known shared tree is governed by its record alone, also for a group member
        | some authority => action != .delete && decide (peer ∈ authority.readers)
        | none => !isSharedNamespace t && decide (peer ∈ policy.members)
      if allowed then .allow else .deny

/-! ## The records -/

/-- `keyhive_core::access::Access`, weakest first. -/
inductive Access where
  | relay
  | read
  | edit
  | admin
  deriving DecidableEq, Repr

/-- The place of an access in the derived order of the source. -/
def Access.level : Access → ℕ
  | .relay => 0
  | .read => 1
  | .edit => 2
  | .admin => 3

/-- The loop of `refresh_shared_authority` over `document_members`. -/
def TreeAuthority.ofMembers (members : List (Bytes32 × Access)) : TreeAuthority where
  readers := ((members.filter fun m => Access.read.level ≤ m.2.level).map (·.1)).toFinset
  editors := ((members.filter fun m => Access.edit.level ≤ m.2.level).map (·.1)).toFinset

theorem TreeAuthority.mem_readers_ofMembers {members : List (Bytes32 × Access)} {key : Bytes32} :
    key ∈ (ofMembers members).readers ↔ ∃ access, (key, access) ∈ members ∧
      Access.read.level ≤ access.level := by
  simp [ofMembers]

theorem TreeAuthority.mem_editors_ofMembers {members : List (Bytes32 × Access)} {key : Bytes32} :
    key ∈ (ofMembers members).editors ↔ ∃ access, (key, access) ∈ members ∧
      Access.edit.level ≤ access.level := by
  simp [ofMembers]

/-- Who may edit may read. -/
theorem TreeAuthority.editors_subset_ofMembers (members : List (Bytes32 × Access)) :
    (ofMembers members).editors ⊆ (ofMembers members).readers := by
  intro key h
  obtain ⟨access, hmem, hlevel⟩ := mem_editors_ofMembers.1 h
  have hle : Access.read.level ≤ Access.edit.level := by decide
  exact mem_readers_ofMembers.2 ⟨access, hmem, hle.trans hlevel⟩

/-! ## The import path -/

/-- What the import path takes from other crates beyond what the storage does. -/
structure IntakeCodec (B : Type) extends Codec B where
  /-- `sha2::Sha256`. -/
  sha : Sha256
  /-- Whether `Signed::try_verify` accepts an envelope's signature. -/
  verifies : Bytes → Bool
  /-- `vault::valid_document_authority_scope`. -/
  authorityScope : B → Bytes32 → Bool

/-- The fields of `Engine` that decide what may enter a tree. -/
structure Gate (B : Type) where
  /-- The item storage, with the registers and the records it shares with the policy. -/
  storage : SnapshotStorage B := {}
  /-- The group's keys. -/
  members : Finset Bytes32 := ∅
  /-- The open documents: the changes each has applied. -/
  documents : List (String × Finset CommitId) := []
  /-- The changes the user-system document has applied. -/
  usApplied : Finset CommitId := ∅

namespace Gate

/-- `item_authors`. -/
def itemAuthors (g : Gate B) (t : TreeId) : Finset Bytes32 :=
  match g.storage.shared[t]? with
  | some authority => authority.editors
  | none => if isSharedNamespace t then ∅ else g.members

/-- `shared_document_for_tree`. -/
def sharedDocumentForTree (codec : IntakeCodec B) (g : Gate B) (t : TreeId) :
    Option Bytes32 :=
  g.documents.findSome? fun (partition, _) =>
    if documentTree codec.sha partition = t ∨ sharedAuthorityTree codec.sha partition = t then
      (sharedDocument partition).join
    else none

/-- `verify`: the payload of an envelope that decodes, verifies and has one of these authors. -/
def verify {T : Type} (codec : IntakeCodec B) (decode : Bytes → Option (Signed T))
    (bytes : Bytes) (authors : Finset Bytes32) : Option T := do
  let signed ← decode bytes
  guard (codec.verifies signed.bytes)
  let payload ← signed.payload
  guard (signed.issuer ∈ authors)
  return payload

/-- `valid_item`. -/
def validItem (codec : IntakeCodec B) (authors : Finset Bytes32) (item : StoreItem B) : Bool :=
  match item.kind with
  | .commit =>
    (verify codec codec.decodeCommit item.signed authors).any fun payload =>
      payload.sedimentreeId = item.tree ∧ payload.head = item.commit ∧
        payload.blobMeta = codec.blobMeta item.blob
  | .fragment =>
    !Opaque.isOpaqueTree item.tree &&
      (verify codec codec.decodeFragment item.signed authors).any fun payload =>
        payload.sedimentreeId = item.tree ∧ payload.head = item.commit ∧
          payload.blobMeta = codec.blobMeta item.blob

/-- `valid_shared_ciphertexts_from_parents`, for the one item it is called with: `commit` is
the payload the item's own envelope carries. -/
def validSharedCiphertext (codec : IntakeCodec B) (item : StoreItem B) (commit : LooseCommit) :
    Bool :=
  match codec.ciphertextRefs item.blob with
  | none => false
  | some refs =>
    -- the parents are looked up under the id the item is filed by
    commit.head == item.commit && refs.contentRef == codec.sharedCref item.tree item.commit &&
      refs.predRefs == codec.hashRefs (commit.parents.map (codec.sharedCref item.tree))

/-- `valid_ingest_item`. -/
def validIngestItem (codec : IntakeCodec B) (g : Gate B) (item : StoreItem B) : Bool :=
  if item.kind = .fragment ∧ isSharedNamespace item.tree then false
  else if !validItem codec (g.itemAuthors item.tree) item then false
  else if item.tree.firstByte = sharedAuthorityTreeTag then
    (g.sharedDocumentForTree codec item.tree).any fun document =>
      codec.authorityScope item.blob document
  else if item.tree.firstByte = sharedTreeTag then
    match codec.decodeCommit item.signed with
    | none => false
    | some signed =>
      codec.verifies signed.bytes && signed.payload.any fun commit =>
        validSharedCiphertext codec item commit
  else true

/-- `item_publishable`. -/
def itemPublishable (g : Gate B) (item : StoreItem B) : Bool :=
  !Opaque.isOpaqueTree item.tree || Opaque.status g.storage.lifecycle item.tree == some true

/-- `read`: whether the tree's document has applied the commit. -/
def read (codec : IntakeCodec B) (g : Gate B) (t : TreeId) (commit : CommitId) : Bool :=
  if t = usTree codec.sha then decide (commit ∈ g.usApplied)
  else
    (g.documents.find? fun (partition, _) => documentTree codec.sha partition = t).any
      fun (_, applied) => commit ∈ applied

/-- `accept`: whether an item a store handed back may be installed, and is news. -/
def accept (codec : IntakeCodec B) (g : Gate B) (item : StoreItem B) : Bool :=
  if !g.validIngestItem codec item || !g.itemPublishable item then false
  else if Opaque.isOpaqueTree item.tree ∧
      Opaque.mode g.storage.lifecycle item.tree = some .callerEncrypted ∧
      (verify codec codec.decodeCommit item.signed (g.itemAuthors item.tree)).all
        fun payload => codec.itemId item.tree payload.parents item.blob ≠ item.commit then
    false
  else
    match item.kind with
    | .commit => !g.storage.holds item.tree item.commit &&
        (item.tree.firstByte = sharedTreeTag || !g.read codec item.tree item.commit)
    | .fragment => !g.storage.holdsFragment item.tree item.commit

/-- The accepted items of one kind, as `restore` takes them. -/
def landing (codec : IntakeCodec B) (g : Gate B) (items : List (StoreItem B)) (kind : ItemKind) :
    List (Item B) :=
  ((items.filter fun item => g.accept codec item).filter fun item => item.kind = kind).map
    fun item => ⟨item.signed, item.blob⟩

/-- One turn of the loop of `ingest_items`: the items of one tree. -/
def ingestTree (codec : IntakeCodec B) (g : Gate B) (t : TreeId) (items : List (StoreItem B)) :
    Gate B :=
  let items := items.filter fun item => item.tree = t
  let commits := g.landing codec items .commit
  let fragments := g.landing codec items .fragment
  if commits.isEmpty ∧ fragments.isEmpty then g
  else
    let storage := g.storage.restore codec.toCodec t commits fragments
    if Opaque.isOpaqueTree t ∧ Opaque.status storage.lifecycle t ≠ some true then
      { g with storage := storage.forgetTree t }
    else { g with storage }

/-- `refresh_shared_authority`, once the vault has reported the members. -/
def refreshSharedAuthority (codec : IntakeCodec B) (g : Gate B) (partition : String)
    (members : List (Bytes32 × Access)) : Gate B :=
  match (sharedDocument partition).join with
  | none => g
  | some _ =>
    let authority := TreeAuthority.ofMembers members
    let shared := (g.storage.shared.insert (documentTree codec.sha partition) authority).insert
      (sharedAuthorityTree codec.sha partition) authority
    { g with storage := { g.storage with shared } }

/-! ## The machine -/

/-- What can happen next. -/
inductive Label (B : Type) where
  /-- The driver hands a batch to `persist_items`. -/
  | persist (t : TreeId) (commits : List (Signed LooseCommit × B))
      (fragments : List (Signed Fragment × B))
  /-- `ingest_items` takes its turn for one tree. -/
  | ingest (t : TreeId) (items : List (StoreItem B))
  /-- A record is refreshed from what the vault reports. -/
  | refresh (partition : String) (members : List (Bytes32 × Access))
  /-- The group document moved. -/
  | group (members : Finset Bytes32) (applied : Finset CommitId)
  /-- The registers or the ready peers moved. -/
  | lifecycle (next : LifecycleState)
  /-- Documents were opened, or applied something. -/
  | documents (next : List (String × Finset CommitId))
  /-- `prune` ran on a tree. -/
  | prune (t : TreeId)
  /-- A tree was forgotten. -/
  | forget (t : TreeId)
  /-- The adoption of a group retires a tree of an abandoned document, and its record with it. -/
  | retire (t : TreeId)

/-- One step. -/
def step (codec : IntakeCodec B) (g : Gate B) : Label B → Gate B
  | .persist t commits fragments =>
    { g with storage := (g.storage.persistItems codec.toCodec t commits fragments).1 }
  | .ingest t items => g.ingestTree codec t items
  | .refresh partition members => g.refreshSharedAuthority codec partition members
  | .group members applied => { g with members, usApplied := applied }
  | .lifecycle next => { g with storage := { g.storage with lifecycle := next } }
  | .documents next => { g with documents := next }
  | .prune t => { g with storage := (g.storage.prune codec.toCodec t).1 }
  | .forget t => { g with storage := g.storage.forgetTree t }
  | .retire t =>
    let storage := g.storage.forgetTree t
    { g with storage := { storage with shared := storage.shared.erase t } }

/-! ## The checks of the import path, read together -/

variable {codec : IntakeCodec B} {g : Gate B} {l : Label B} {t : TreeId} {i : CommitId}

theorem verify_eq_some {T : Type} {decode : Bytes → Option (Signed T)} {bytes : Bytes}
    {authors : Finset Bytes32} {payload : T} :
    verify codec decode bytes authors = some payload ↔ ∃ signed, decode bytes = some signed ∧
      codec.verifies signed.bytes ∧ signed.payload = some payload ∧ signed.issuer ∈ authors := by
  simp only [verify, Option.bind_eq_bind, Option.bind_eq_some_iff, Option.guard_eq_some']
  constructor
  · rintro ⟨signed, hsigned, _, hverifies, payload', hpayload, _, hissuer, heq⟩
    cases heq
    exact ⟨signed, hsigned, hverifies, hpayload, hissuer⟩
  · rintro ⟨signed, hsigned, hverifies, hpayload, hissuer⟩
    exact ⟨signed, hsigned, (), hverifies, payload, hpayload, (), hissuer, rfl⟩

/-- What `valid_item` checks of a commit. -/
theorem validItem_commit {authors : Finset Bytes32} {item : StoreItem B}
    (hkind : item.kind = .commit) : validItem codec authors item ↔
      ∃ signed payload, codec.decodeCommit item.signed = some signed ∧
        codec.verifies signed.bytes ∧ signed.payload = some payload ∧ signed.issuer ∈ authors ∧
        payload.sedimentreeId = item.tree ∧ payload.head = item.commit ∧
        payload.blobMeta = codec.blobMeta item.blob := by
  simp only [validItem, hkind, Option.any_eq_true, verify_eq_some, decide_eq_true_eq]
  constructor
  · rintro ⟨payload, ⟨signed, hdecoded, hverifies, hpayload, hissuer⟩, hnames⟩
    exact ⟨signed, payload, hdecoded, hverifies, hpayload, hissuer, hnames⟩
  · rintro ⟨signed, payload, hdecoded, hverifies, hpayload, hissuer, hnames⟩
    exact ⟨payload, ⟨signed, hdecoded, hverifies, hpayload, hissuer⟩, hnames⟩

/-- What `valid_item` checks of a fragment. -/
theorem validItem_fragment {authors : Finset Bytes32} {item : StoreItem B}
    (hkind : item.kind = .fragment) : validItem codec authors item ↔
      ¬ Opaque.isOpaqueTree item.tree ∧
      ∃ signed payload, codec.decodeFragment item.signed = some signed ∧
        codec.verifies signed.bytes ∧ signed.payload = some payload ∧ signed.issuer ∈ authors ∧
        payload.sedimentreeId = item.tree ∧ payload.head = item.commit ∧
        payload.blobMeta = codec.blobMeta item.blob := by
  simp only [validItem, hkind, Bool.and_eq_true, Bool.not_eq_true', Bool.not_eq_true,
    Option.any_eq_true, verify_eq_some, decide_eq_true_eq]
  constructor
  · rintro ⟨hclosed, payload, ⟨signed, hdecoded, hverifies, hpayload, hissuer⟩, hnames⟩
    exact ⟨hclosed, signed, payload, hdecoded, hverifies, hpayload, hissuer, hnames⟩
  · rintro ⟨hclosed, signed, payload, hdecoded, hverifies, hpayload, hissuer, hnames⟩
    exact ⟨hclosed, payload, ⟨signed, hdecoded, hverifies, hpayload, hissuer⟩, hnames⟩

theorem validIngestItem_of_accept {item : StoreItem B} (h : g.accept codec item) :
    g.validIngestItem codec item := by
  by_contra hnot
  simp [accept, hnot] at h

theorem validItem_of_accept {item : StoreItem B} (h : g.accept codec item) :
    validItem codec (g.itemAuthors item.tree) item := by
  by_contra hnot
  simpa [validIngestItem, hnot] using validIngestItem_of_accept h

/-- The reserved namespace takes no fragment from a store. -/
theorem kind_of_accept {item : StoreItem B} (h : g.accept codec item)
    (ht : isSharedNamespace item.tree) : item.kind = .commit := by
  cases hkind : item.kind with
  | commit => rfl
  | fragment => simpa [validIngestItem, hkind, ht] using validIngestItem_of_accept h

/-! ## What a step can put into a tree -/

theorem mem_landing {items : List (StoreItem B)} {kind : ItemKind} {item : Item B} :
    item ∈ g.landing codec items kind ↔ ∃ entry ∈ items, entry.kind = kind ∧
      g.accept codec entry ∧ (⟨entry.signed, entry.blob⟩ : Item B) = item := by
  simp [landing, and_assoc]

theorem mem_acceptedCommits {s : SnapshotStorage B} {codec : Codec B} {items : List (Item B)}
    {entry : CommitId × Signed LooseCommit × B} (h : entry ∈ s.acceptedCommits codec t items) :
    ∃ item ∈ items, codec.decodeCommit item.signed = some entry.2.1 ∧ entry.2.2 = item.blob ∧
      ∃ payload, entry.2.1.payload = some payload ∧ payload.head = entry.1 := by
  simp only [SnapshotStorage.acceptedCommits, List.mem_filterMap, Option.bind_eq_bind,
    Option.bind_eq_some_iff] at h
  obtain ⟨item, hmem, signed, hsigned, payload, hpayload, _, _, heq⟩ := h
  cases heq
  exact ⟨item, hmem, hsigned, rfl, payload, hpayload, rfl⟩

theorem mem_acceptedFragments {codec : Codec B} {items : List (Item B)}
    {entry : CommitId × Signed Fragment × B}
    (h : entry ∈ SnapshotStorage.acceptedFragments codec items) :
    ∃ item ∈ items, codec.decodeFragment item.signed = some entry.2.1 ∧ entry.2.2 = item.blob ∧
      ∃ payload, entry.2.1.payload = some payload ∧ payload.head = entry.1 := by
  simp only [SnapshotStorage.acceptedFragments, List.mem_filterMap, Option.bind_eq_bind,
    Option.bind_eq_some_iff] at h
  obtain ⟨item, hmem, signed, hsigned, payload, hpayload, heq⟩ := h
  cases heq
  exact ⟨item, hmem, hsigned, rfl, payload, hpayload, rfl⟩

/-- What entitles a commit to be in a tree after a step. -/
inductive CommitEnters (codec : IntakeCodec B) (g : Gate B) (t : TreeId) (i : CommitId)
    (item : Signed LooseCommit × B) : Label B → Prop where
  | persist {commits fragments payload} (mem : item ∈ commits)
      (admitted : g.storage.admitCommit codec.toCodec t item.1 item.2 = some payload)
      (head : payload.head = i) : CommitEnters codec g t i item (.persist t commits fragments)
  | ingest {items entry payload} (mem : entry ∈ items) (tree : entry.tree = t)
      (kind : entry.kind = .commit) (accepted : g.accept codec entry)
      (decoded : codec.decodeCommit entry.signed = some item.1) (blob : entry.blob = item.2)
      (payload_eq : item.1.payload = some payload) (head : payload.head = i) :
      CommitEnters codec g t i item (.ingest t items)

/-- What entitles a fragment to be in a tree after a step. -/
inductive FragmentEnters (codec : IntakeCodec B) (g : Gate B) (t : TreeId) (i : CommitId)
    (item : Signed Fragment × B) : Label B → Prop where
  | persist {commits fragments payload} (mem : item ∈ fragments)
      (admitted : g.storage.admitFragment t item.1 = some payload)
      (head : payload.head = i) : FragmentEnters codec g t i item (.persist t commits fragments)
  | ingest {items entry payload} (mem : entry ∈ items) (tree : entry.tree = t)
      (kind : entry.kind = .fragment) (accepted : g.accept codec entry)
      (decoded : codec.decodeFragment entry.signed = some item.1) (blob : entry.blob = item.2)
      (payload_eq : item.1.payload = some payload) (head : payload.head = i) :
      FragmentEnters codec g t i item (.ingest t items)

/-- Every item of the storage was there before the step or is entitled by it. -/
def Enters (codec : IntakeCodec B) (g : Gate B) (l : Label B) (s : SnapshotStorage B) : Prop :=
  ∀ t i, (∀ item, (s.tree t).commits[i]? = some item →
      (g.storage.tree t).commits[i]? = some item ∨ CommitEnters codec g t i item l) ∧
    ∀ item, (s.tree t).fragments[i]? = some item →
      (g.storage.tree t).fragments[i]? = some item ∨ FragmentEnters codec g t i item l

theorem enters_refl : Enters codec g l g.storage :=
  fun _ _ => ⟨fun _ h => .inl h, fun _ h => .inl h⟩

variable {s : SnapshotStorage B}

theorem Enters.of_tree_eq {s' : SnapshotStorage B} (h : Enters codec g l s)
    (heq : ∀ t, s'.tree t = s.tree t) : Enters codec g l s' := by
  intro t i
  rw [heq t]
  exact h t i

theorem Enters.insertCommit {item : Signed LooseCommit × B} (h : Enters codec g l s)
    (henters : CommitEnters codec g t i item l) : Enters codec g l (s.insertCommit t i item) := by
  intro t' i'
  by_cases ht : t' = t
  · subst ht
    refine ⟨fun item' hi' => ?_, fun item' hi' => ?_⟩
    · rw [SnapshotStorage.commits_insertCommit, ExtTreeMap.getElem?_insert] at hi'
      split at hi'
      next heq =>
        cases hi'
        rw [LawfulEqOrd.eq_of_compare heq] at henters
        exact .inr henters
      next => exact (h t' i').1 item' hi'
    · rw [SnapshotStorage.fragments_insertCommit] at hi'
      exact (h t' i').2 item' hi'
  · rw [SnapshotStorage.insertCommit, SnapshotStorage.tree_write_of_ne _ _ _ ht]
    exact h t' i'

theorem Enters.insertFragment {item : Signed Fragment × B} (h : Enters codec g l s)
    (henters : FragmentEnters codec g t i item l) :
    Enters codec g l (s.insertFragment t i item) := by
  intro t' i'
  by_cases ht : t' = t
  · subst ht
    refine ⟨fun item' hi' => ?_, fun item' hi' => ?_⟩
    · rw [SnapshotStorage.commits_insertFragment] at hi'
      exact (h t' i').1 item' hi'
    · rw [SnapshotStorage.fragments_insertFragment, ExtTreeMap.getElem?_insert] at hi'
      split at hi'
      next heq =>
        cases hi'
        rw [LawfulEqOrd.eq_of_compare heq] at henters
        exact .inr henters
      next => exact (h t' i').2 item' hi'
  · rw [SnapshotStorage.insertFragment, SnapshotStorage.tree_write_of_ne _ _ _ ht]
    exact h t' i'

theorem Enters.forgetTree (h : Enters codec g l s) (t : TreeId) :
    Enters codec g l (s.forgetTree t) := by
  intro t' i
  by_cases ht : t' = t
  · subst ht
    simp [SnapshotStorage.tree_forgetTree_self]
  · rw [SnapshotStorage.tree_forgetTree_of_ne _ ht]
    exact h t' i

/-- What a step can put into a tree, and by which check. -/
theorem enters_step (codec : IntakeCodec B) (g : Gate B) (l : Label B) :
    Enters codec g l (g.step codec l).storage := by
  cases l with
  | persist t commits fragments =>
    apply SnapshotStorage.persistItems_induction
    · exact enters_refl
    · exact enters_refl.of_tree_eq (SnapshotStorage.tree_ensureTree _ t)
    · intro s' item payload h _ hmem hadmitted
      exact h.insertCommit (.persist hmem hadmitted rfl)
    · intro s' item payload h _ hmem hadmitted
      exact h.insertFragment (.persist hmem hadmitted rfl)
  | ingest t items =>
    simp only [step, ingestTree]
    split
    · exact enters_refl
    have hrestored : Enters codec g (.ingest t items) (g.storage.restore codec.toCodec t
        (g.landing codec (items.filter fun item => item.tree = t) .commit)
        (g.landing codec (items.filter fun item => item.tree = t) .fragment)) := by
      apply SnapshotStorage.restore_induction
      · exact enters_refl
      · exact enters_refl.of_tree_eq (SnapshotStorage.tree_ensureTree _ t)
      · intro s' entry h _ hmem
        obtain ⟨item, hitem, hdecoded, hblob, payload, hpayload, hhead⟩ := mem_acceptedCommits hmem
        obtain ⟨stored, hstored, hkind, haccepted, rfl⟩ := mem_landing.1 hitem
        obtain ⟨hstored, htree⟩ := List.mem_filter.1 hstored
        exact h.insertCommit (.ingest hstored (by simpa using htree) hkind haccepted hdecoded
          hblob.symm hpayload hhead)
      · intro s' entry h _ hmem
        obtain ⟨item, hitem, hdecoded, hblob, payload, hpayload, hhead⟩ :=
          mem_acceptedFragments hmem
        obtain ⟨stored, hstored, hkind, haccepted, rfl⟩ := mem_landing.1 hitem
        obtain ⟨hstored, htree⟩ := List.mem_filter.1 hstored
        exact h.insertFragment (.ingest hstored (by simpa using htree) hkind haccepted hdecoded
          hblob.symm hpayload hhead)
    split
    · exact hrestored.forgetTree t
    · exact hrestored
  | refresh partition members =>
    rw [step, refreshSharedAuthority]
    split
    · exact enters_refl
    · exact enters_refl.of_tree_eq fun _ => rfl
  | group members applied => exact enters_refl
  | lifecycle next => exact enters_refl.of_tree_eq fun _ => rfl
  | documents next => exact enters_refl
  | prune t =>
    intro t' i
    by_cases ht : t' = t
    · subst ht
      refine ⟨fun item hi => ?_, fun item hi => ?_⟩
      · rw [step, SnapshotStorage.getElem?_commits_prune] at hi
        split at hi
        · cases hi
        · exact .inl hi
      · rw [step, SnapshotStorage.fragments_prune] at hi
        exact .inl hi
    · rw [step, SnapshotStorage.tree_prune_of_ne _ _ ht]
      exact enters_refl t' i
  | forget t => exact enters_refl.forgetTree t
  | retire t => exact (enters_refl.forgetTree t).of_tree_eq fun _ => rfl

/-! ## The records of a run -/

/-- Records exist for trees of the reserved namespace only, and who may edit may read. -/
structure Roles (shared : SharedAuthorities) : Prop where
  reserved : ∀ t ∈ shared, isSharedNamespace t
  editors : ∀ (t : TreeId) (authority : TreeAuthority), shared[t]? = some authority →
    authority.editors ⊆ authority.readers

theorem roles_empty : Roles ∅ where
  reserved t h := by simp at h
  editors t authority h := by simp at h

theorem Roles.insert {shared : SharedAuthorities} (h : Roles shared)
    (ht : isSharedNamespace t) (members : List (Bytes32 × Access)) :
    Roles (shared.insert t (TreeAuthority.ofMembers members)) where
  reserved t' ht' := by
    rcases ExtTreeMap.mem_insert.1 ht' with heq | ht'
    · rwa [← LawfulEqOrd.eq_of_compare heq]
    · exact h.reserved t' ht'
  editors t' authority hauthority := by
    rw [ExtTreeMap.getElem?_insert] at hauthority
    split at hauthority
    · cases hauthority
      exact TreeAuthority.editors_subset_ofMembers members
    · exact h.editors t' authority hauthority

theorem Roles.erase {shared : SharedAuthorities} (h : Roles shared) (t : TreeId) :
    Roles (shared.erase t) where
  reserved t' ht' := h.reserved t' (ExtTreeMap.mem_erase.1 ht').2
  editors t' authority hauthority := by
    rw [ExtTreeMap.getElem?_erase] at hauthority
    split at hauthority
    · cases hauthority
    · exact h.editors t' authority hauthority

/-- The content tree of a shareable document lies in the reserved namespace. -/
theorem isSharedNamespace_documentTree {sha : Sha256} {partition : String} {document : Bytes32}
    (h : (sharedDocument partition).join = some document) :
    isSharedNamespace (documentTree sha partition) := by
  have hprefix : (stripDocumentPrefix partition).isSome := by
    unfold sharedDocument at h
    cases hstrip : stripDocumentPrefix partition with
    | none => simp [hstrip] at h
    | some hex => rfl
  simp [documentTree, isSharedNamespace, hprefix]

theorem isSharedNamespace_sharedAuthorityTree (sha : Sha256) (partition : String) :
    isSharedNamespace (sharedAuthorityTree sha partition) := by
  simp [sharedAuthorityTree, isSharedNamespace]

@[simp]
theorem shared_persistItems (codec : Codec B) (s : SnapshotStorage B) (t : TreeId)
    (commits : List (Signed LooseCommit × B)) (fragments : List (Signed Fragment × B)) :
    (s.persistItems codec t commits fragments).1.shared = s.shared :=
  SnapshotStorage.persistItems_induction (motive := fun s' => s'.shared = s.shared) rfl rfl
    (fun _ _ _ h _ _ _ => h) fun _ _ _ h _ _ _ => h

@[simp]
theorem shared_restore (codec : Codec B) (s : SnapshotStorage B) (t : TreeId)
    (commits fragments : List (Item B)) :
    (s.restore codec t commits fragments).shared = s.shared :=
  SnapshotStorage.restore_induction (motive := fun s' => s'.shared = s.shared) rfl rfl
    (fun _ _ h _ _ => h) fun _ _ h _ _ => h

@[simp]
theorem shared_prune (codec : Codec B) (s : SnapshotStorage B) (t : TreeId) :
    (s.prune codec t).1.shared = s.shared := by
  have hfold (ids : List CommitId) (s : SnapshotStorage B) :
      (ids.foldl (fun s id => s.removeCommit t id) s).shared = s.shared := by
    induction ids generalizing s with
    | nil => rfl
    | cons id ids ih => exact ih _
  exact hfold _ s

theorem roles_step (codec : IntakeCodec B) (g : Gate B) (l : Label B)
    (h : Roles g.storage.shared) : Roles (g.step codec l).storage.shared := by
  cases l with
  | persist t commits fragments => rwa [step, shared_persistItems]
  | ingest t items =>
    have hshared : (g.ingestTree codec t items).storage.shared = g.storage.shared := by
      simp only [ingestTree]
      split
      · rfl
      split
      · exact shared_restore ..
      · exact shared_restore ..
    rwa [step, hshared]
  | refresh partition members =>
    rw [step, refreshSharedAuthority]
    split
    · exact h
    next hdocument =>
      exact (h.insert (isSharedNamespace_documentTree hdocument) members).insert
        (isSharedNamespace_sharedAuthorityTree codec.sha partition) members
  | group members applied => exact h
  | lifecycle next => exact h
  | documents next => exact h
  | prune t => rwa [step, shared_prune]
  | forget t => exact h
  | retire t => exact h.erase t

theorem roles_run (codec : IntakeCodec B) (ls : List (Label B)) :
    Roles (Transition.run (step codec) {} ls).storage.shared :=
  Transition.run_preserves (roles_step codec) roles_empty ls

end Gate

end Polyvisor
