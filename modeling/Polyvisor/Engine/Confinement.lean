import Polyvisor.Engine.Access

/-!
# Access is confined

What the policy, the author check of the storage and the check of the import path allow together.

## Main results

* `access_confined`: a remote request is allowed only to those the tree's record, the ready
  members or the group name; and in every run, a shared content tree takes a commit from a
  recorded editor only, and never a fragment.
* `Gate.admitsLive_iff_validIngestItem`: exactly which items of a shared tree the two paths in
  decide alike.
* `Gate.stored_bound`: in every run whose batches are vetted, whatever is stored under a tree is
  bound to it.
-/

namespace Polyvisor

open Std

variable {B : Type}

/-! ## Namespaces -/

/-- The tag of opaque trees is none of the reserved namespace. -/
theorem not_isSharedNamespace_of_isOpaqueTree {t : TreeId} (h : Opaque.isOpaqueTree t) :
    ¬ isSharedNamespace t := by
  have htag : t.extractLsb' 224 32 = Opaque.prefixTag := by simpa [Opaque.isOpaqueTree] using h
  have hbyte : t.firstByte = 0x4F#8 := by
    have hsub : t.firstByte = (t.extractLsb' 224 32).extractLsb' 24 8 := by
      ext i hi
      rw [Bytes32.firstByte, BitVec.getElem_extractLsb', BitVec.getElem_extractLsb',
        BitVec.getLsbD_extractLsb']
      have hlow : 24 + i < 32 := by omega
      simp [hlow, ← Nat.add_assoc]
    rw [hsub, htag]
    decide
  simp [isSharedNamespace, hbyte, sharedTreeTag, sharedAuthorityTreeTag]

/-! ## The policy -/

namespace GroupPolicy

variable {policy : GroupPolicy} {peer : Bytes32} {t : TreeId} {action : StorageAction}

/-- An opaque tree answers a remote peer only while it is current and the peer is ready. -/
theorem opaque_of_authorize (h : policy.authorize (.remote peer) t action = .allow)
    (hopq : Opaque.isOpaqueTree t) (haction : action ≠ .delete) :
    Opaque.status policy.lifecycle t = some true ∧ peer ∈ policy.lifecycle.readyPeers := by
  by_contra hnot
  have hguard : ((Opaque.isOpaqueTree t && Opaque.status policy.lifecycle t != some true ||
      (Opaque.isOpaqueTree t && !policy.lifecycle.readyPeers.contains peer)) &&
        action != .delete) = true := by
    by_cases hstatus : Opaque.status policy.lifecycle t = some true
    · have hready : policy.lifecycle.readyPeers.contains peer = false :=
        Bool.eq_false_iff.2 fun hmem => hnot ⟨hstatus, ExtTreeMap.mem_iff_contains.2 hmem⟩
      simp [hopq, haction, hready]
    · simp [hopq, haction, hstatus]
  rw [authorize] at h
  simp only [hguard] at h
  cases h

/-- What a record, or the lack of one, says of a remote peer. -/
theorem record_of_authorize (h : policy.authorize (.remote peer) t action = .allow) :
    match policy.shared[t]? with
    | some authority => action ≠ .delete ∧ peer ∈ authority.readers
    | none => ¬ isSharedNamespace t ∧ peer ∈ policy.members := by
  unfold authorize at h
  simp only at h
  split at h
  · cases h
  cases hrecord : policy.shared[t]? with
  | none =>
    rw [hrecord] at h
    simpa using h
  | some authority =>
    rw [hrecord] at h
    simpa using h

end GroupPolicy

/-! ## Shared content trees -/

namespace Gate

variable {codec : IntakeCodec B} {g : Gate B} {l : Label B} {t : TreeId} {i : CommitId}

/-- The live path asks a content tree's record for the issuer of an item. -/
theorem editor_of_sharedAuthorized {T : Type} {s : SnapshotStorage B} {signed : Signed T}
    (ht : t.firstByte = sharedTreeTag) (h : s.sharedAuthorized t signed) :
    ∃ authority, s.shared[t]? = some authority ∧ signed.issuer ∈ authority.editors := by
  have hne : sharedTreeTag ≠ sharedAuthorityTreeTag := by decide
  unfold SnapshotStorage.sharedAuthorized at h
  cases hrecord : s.shared[t]? with
  | none => simp [hrecord, isSharedNamespace, ht] at h
  | some authority => exact ⟨authority, rfl, by simpa [hrecord, ht, hne] using h⟩

/-- The import path asks the same. -/
theorem editor_of_itemAuthors {issuer : Bytes32} (ht : t.firstByte = sharedTreeTag)
    (h : issuer ∈ g.itemAuthors t) :
    ∃ authority, g.storage.shared[t]? = some authority ∧ issuer ∈ authority.editors := by
  unfold itemAuthors at h
  cases hrecord : g.storage.shared[t]? with
  | none => simp [hrecord, isSharedNamespace, ht] at h
  | some authority => exact ⟨authority, rfl, by simpa [hrecord] using h⟩

/-- A commit enters a shared content tree only under the signature of a recorded editor. -/
theorem CommitEnters.editor {item : Signed LooseCommit × B} (h : CommitEnters codec g t i item l)
    (ht : t.firstByte = sharedTreeTag) :
    ∃ authority, g.storage.shared[t]? = some authority ∧ item.1.issuer ∈ authority.editors := by
  cases h with
  | persist mem admitted head =>
    exact editor_of_sharedAuthorized ht (SnapshotStorage.admitCommit_eq_some.1 admitted).1
  | ingest mem tree kind accepted decoded blob payload_eq head =>
    subst tree
    obtain ⟨signed, _, hdecoded, _, _, hissuer, _⟩ :=
      (validItem_commit kind).1 (validItem_of_accept accepted)
    rw [decoded, Option.some_inj] at hdecoded
    rw [hdecoded]
    exact editor_of_itemAuthors ht hissuer

/-- No fragment enters a tree of the reserved namespace. -/
theorem FragmentEnters.not_isSharedNamespace {item : Signed Fragment × B}
    (h : FragmentEnters codec g t i item l) : ¬ isSharedNamespace t := by
  cases h with
  | persist mem admitted head => simpa using (SnapshotStorage.admitFragment_eq_some.1 admitted).1
  | ingest mem tree kind accepted decoded blob payload_eq head =>
    subst tree
    intro hshared
    rw [kind_of_accept accepted hshared] at kind
    cases kind

/-- In every run, a tree of the reserved namespace holds no fragment. -/
theorem fragments_run (codec : IntakeCodec B) (ls : List (Label B)) (ht : isSharedNamespace t) :
    ((Transition.run (step codec) {} ls).storage.tree t).fragments = ∅ := by
  have hstep (g : Gate B) (l : Label B) (hg : (g.storage.tree t).fragments = ∅) :
      ((g.step codec l).storage.tree t).fragments = ∅ := by
    ext i item
    rw [ExtTreeMap.getElem?_empty]
    refine ⟨fun hitem => ?_, fun hitem => by cases hitem⟩
    rcases (enters_step codec g l t i).2 item hitem with hstored | henters
    · rwa [hg, ExtTreeMap.getElem?_empty] at hstored
    · exact (henters.not_isSharedNamespace ht).elim
  apply Transition.run_preserves hstep
  simp [SnapshotStorage.tree]

end Gate

/-- A remote peer's request on a tree with a record is allowed only to its readers and never to
delete; on a tree of the reserved namespace without one it is refused; a read or a write of an
opaque tree is allowed only of a current one, to a ready member; and any other tree answers
members only. The state of every run is one this says something of, and in every run a shared
content tree takes a commit only from an editor of that moment, and never a fragment. -/
theorem access_confined (codec : IntakeCodec B) :
    (∀ (policy : GroupPolicy) (peer : Bytes32) (t : TreeId) (action : StorageAction),
      policy.authorize (.remote peer) t action = .allow →
        (∀ authority, policy.shared[t]? = some authority →
          peer ∈ authority.readers ∧ action ≠ .delete) ∧
        (isSharedNamespace t → t ∈ policy.shared) ∧
        (Opaque.isOpaqueTree t → action ≠ .delete → Opaque.status policy.lifecycle t = some true ∧
          peer ∈ policy.lifecycle.readyPeers ∧ peer ∈ policy.members) ∧
        (t ∉ policy.shared → peer ∈ policy.members)) ∧
    ∀ ls : List (Gate.Label B), let g := Transition.run (Gate.step codec) {} ls
      (∃ policy : GroupPolicy, policy.members = g.members ∧
        policy.lifecycle = g.storage.lifecycle ∧ policy.shared = g.storage.shared) ∧
      ∀ (l : Gate.Label B) (t : TreeId), t.firstByte = sharedTreeTag →
        (∀ (i : CommitId) (item : Signed LooseCommit × B),
          ((g.step codec l).storage.tree t).commits[i]? = some item →
            (g.storage.tree t).commits[i]? = some item ∨
            ∃ authority, g.storage.shared[t]? = some authority ∧
              item.1.issuer ∈ authority.editors) ∧
        ((g.step codec l).storage.tree t).fragments = ∅ := by
  refine ⟨fun policy peer t action hallow => ?_, fun ls => ⟨?_, fun l t ht => ⟨?_, ?_⟩⟩⟩
  · have hrecord := GroupPolicy.record_of_authorize hallow
    have hmember (hnone : policy.shared[t]? = none) :
        ¬ isSharedNamespace t ∧ peer ∈ policy.members := by simpa [hnone] using hrecord
    refine ⟨fun authority hauthority => ?_, fun hshared => ?_, fun hopq haction => ?_, fun ht => ?_⟩
    · rw [hauthority] at hrecord
      exact hrecord.symm
    · by_contra hnot
      exact (hmember (ExtTreeMap.getElem?_eq_none hnot)).1 hshared
    · obtain ⟨hstatus, hready⟩ := GroupPolicy.opaque_of_authorize hallow hopq haction
      -- an opaque tree has no record, so the group decides
      have hnone : t ∉ policy.shared := fun hmem =>
        not_isSharedNamespace_of_isOpaqueTree hopq (policy.reserved t hmem)
      exact ⟨hstatus, hready, (hmember (ExtTreeMap.getElem?_eq_none hnone)).2⟩
    · exact (hmember (ExtTreeMap.getElem?_eq_none ht)).2
  · exact ⟨⟨_, _, _, (Gate.roles_run codec ls).reserved⟩, rfl, rfl, rfl⟩
  · intro i item hitem
    rcases (Gate.enters_step codec _ l t i).1 item hitem with hstored | henters
    · exact .inl hstored
    · exact .inr (henters.editor ht)
  · have hfragments := Gate.fragments_run (t := t) codec (ls ++ [l])
      (by simp [isSharedNamespace, ht])
    rwa [Transition.run_append] at hfragments

/-! ## Two rules for one item -/

namespace Gate

variable {codec : IntakeCodec B} {g : Gate B} {item : StoreItem B}

/-- Whether `persist_items` stores the item when a peer sends it, alone, in its decoded form. -/
def admitsLive (codec : IntakeCodec B) (g : Gate B) (item : StoreItem B) : Bool :=
  match item.kind with
  | .commit => (codec.decodeCommit item.signed).any fun signed =>
      (g.storage.persistItems codec.toCodec item.tree [(signed, item.blob)] []).2.isOk
  | .fragment => (codec.decodeFragment item.signed).any fun signed =>
      (g.storage.persistItems codec.toCodec item.tree [] [(signed, item.blob)]).2.isOk

/-- The envelope decodes, its signature verifies, and the item is filed under the head its payload
names. -/
structure CorrectlySigned (codec : IntakeCodec B) (item : StoreItem B) : Prop where
  commit : item.kind = .commit → ∃ signed, codec.decodeCommit item.signed = some signed ∧
    codec.verifies signed.bytes ∧ ∀ payload ∈ signed.payload, payload.head = item.commit
  fragment : item.kind = .fragment → ∃ signed, codec.decodeFragment item.signed = some signed ∧
    codec.verifies signed.bytes ∧ ∀ payload ∈ signed.payload, payload.head = item.commit

/-- Whether the record of a tree has the key among its readers. -/
def recordedReader (g : Gate B) (t : TreeId) (key : Bytes32) : Bool :=
  g.storage.shared[t]?.any fun authority => key ∈ authority.readers

/-- Whether the record of a tree has the key among its editors. -/
def recordedEditor (g : Gate B) (t : TreeId) (key : Bytes32) : Bool :=
  g.storage.shared[t]?.any fun authority => key ∈ authority.editors

/-- Whether the blob is keyhive material of the open document the tree belongs to. -/
def inScope (codec : IntakeCodec B) (g : Gate B) (item : StoreItem B) : Bool :=
  (g.sharedDocumentForTree codec item.tree).any fun document =>
    codec.authorityScope item.blob document

/-- Whether the payload names the tree and the blob it comes with. -/
def namesItem (codec : IntakeCodec B) (item : StoreItem B) (payload : LooseCommit) : Prop :=
  payload.sedimentreeId = item.tree ∧ payload.blobMeta = codec.blobMeta item.blob

theorem admitsLive_commit (hkind : item.kind = .commit) (ht : isSharedNamespace item.tree)
    {signed : Signed LooseCommit} (hdecoded : codec.decodeCommit item.signed = some signed) :
    g.admitsLive codec item ↔ g.storage.sharedAuthorized item.tree signed ∧
      ∃ payload, signed.payload = some payload ∧ namesItem codec item payload ∧
        (item.tree.firstByte = sharedTreeTag →
          SnapshotStorage.scopedCiphertext codec.toCodec item.tree payload item.blob) := by
  have hopq : ¬ Opaque.isOpaqueTree item.tree := fun h =>
    not_isSharedNamespace_of_isOpaqueTree h ht
  have hiff : g.admitsLive codec item ↔ ∃ payload,
      g.storage.admitCommit codec.toCodec item.tree signed item.blob = some payload := by
    have hensure : (g.storage.ensureTree item.tree).admitCommit codec.toCodec item.tree signed
        item.blob = g.storage.admitCommit codec.toCodec item.tree signed item.blob := rfl
    simp only [admitsLive, hkind, hdecoded, Option.any_some, SnapshotStorage.persistItems, hopq,
      SnapshotStorage.persistCommits, hensure]
    cases g.storage.admitCommit codec.toCodec item.tree signed item.blob with
    | none => simp [Except.isOk, Except.toBool]
    | some payload => simp [SnapshotStorage.persistFragments, Except.isOk, Except.toBool]
  rw [hiff]
  simp only [SnapshotStorage.admitCommit_eq_some, hopq, namesItem]
  grind

theorem mem_itemAuthors {t : TreeId} {key : Bytes32} (ht : isSharedNamespace t) :
    key ∈ g.itemAuthors t ↔ g.recordedEditor t key := by
  unfold itemAuthors recordedEditor
  cases g.storage.shared[t]? <;> simp [ht]

theorem sharedAuthorized_iff {T : Type} {t : TreeId} {signed : Signed T}
    (ht : isSharedNamespace t) : g.storage.sharedAuthorized t signed ↔
      if t.firstByte = sharedAuthorityTreeTag then g.recordedReader t signed.issuer
      else g.recordedEditor t signed.issuer := by
  unfold SnapshotStorage.sharedAuthorized recordedReader recordedEditor
  cases g.storage.shared[t]? <;> by_cases h : t.firstByte = sharedAuthorityTreeTag <;> simp [ht, h]

/-- Under the head the payload names, the two ciphertext checks are one. -/
theorem validSharedCiphertext_eq (codec : IntakeCodec B) {payload : LooseCommit}
    (hhead : payload.head = item.commit) :
    validSharedCiphertext codec item payload =
      SnapshotStorage.scopedCiphertext codec.toCodec item.tree payload item.blob := by
  unfold validSharedCiphertext SnapshotStorage.scopedCiphertext
  cases codec.ciphertextRefs item.blob <;> simp [hhead]

theorem validIngestItem_commit (hkind : item.kind = .commit) (ht : isSharedNamespace item.tree)
    {signed : Signed LooseCommit} (hdecoded : codec.decodeCommit item.signed = some signed)
    (hverifies : codec.verifies signed.bytes)
    (hhead : ∀ payload ∈ signed.payload, payload.head = item.commit) :
    g.validIngestItem codec item ↔ g.recordedEditor item.tree signed.issuer ∧
      ∃ payload, signed.payload = some payload ∧ namesItem codec item payload ∧
        (item.tree.firstByte = sharedTreeTag →
          SnapshotStorage.scopedCiphertext codec.toCodec item.tree payload item.blob) ∧
        (item.tree.firstByte = sharedAuthorityTreeTag → g.inScope codec item) := by
  have hne : sharedTreeTag ≠ sharedAuthorityTreeTag := by decide
  have hvalid : validItem codec (g.itemAuthors item.tree) item ↔
      g.recordedEditor item.tree signed.issuer ∧
        ∃ payload, signed.payload = some payload ∧ namesItem codec item payload := by
    rw [validItem_commit hkind]
    constructor
    · rintro ⟨_, payload, hsigned, _, hpayload, hissuer, htree, _, hmeta⟩
      cases hdecoded.symm.trans hsigned
      exact ⟨(mem_itemAuthors ht).1 hissuer, payload, hpayload, htree, hmeta⟩
    · rintro ⟨hissuer, payload, hpayload, htree, hmeta⟩
      exact ⟨signed, payload, hdecoded, hverifies, hpayload, (mem_itemAuthors ht).2 hissuer, htree,
        hhead payload hpayload, hmeta⟩
  have hkind' : item.kind ≠ .fragment := by simp [hkind]
  by_cases hitem : validItem codec (g.itemAuthors item.tree) item
  · obtain ⟨heditor, payload, hpayload, hnames⟩ := hvalid.1 hitem
    have hcipher := validSharedCiphertext_eq codec (hhead payload hpayload)
    -- which of the two trees it is decides which further check is made
    by_cases hauthority : item.tree.firstByte = sharedAuthorityTreeTag
    · simp [validIngestItem, hkind', hitem, hauthority, heditor, hpayload, hnames, hne.symm,
        inScope]
    · have hcontent : item.tree.firstByte = sharedTreeTag := by
        simpa [isSharedNamespace, hauthority] using ht
      simp [validIngestItem, hkind', hitem, hcontent, hne, hdecoded, hverifies, heditor, hpayload,
        hnames, hcipher]
  · constructor
    · intro h
      simp [validIngestItem, hitem] at h
    · rintro ⟨heditor, payload, hpayload, hnames, -⟩
      exact (hitem (hvalid.2 ⟨heditor, payload, hpayload, hnames⟩)).elim

/-- The live path and the import path agree on an authority item when its issuer is a reader of the
document iff the issuer is an editor of it and the blob is material of the open document. An item
whose payload names another tree or another blob both refuse. -/
def RulesAgree (codec : IntakeCodec B) (g : Gate B) (item : StoreItem B) : Prop :=
  ∀ signed payload, codec.decodeCommit item.signed = some signed → signed.payload = some payload →
    namesItem codec item payload →
    (g.recordedReader item.tree signed.issuer ↔
      g.recordedEditor item.tree signed.issuer ∧ g.inScope codec item)

theorem rulesAgree_iff {signed : Signed LooseCommit}
    (hdecoded : codec.decodeCommit item.signed = some signed) : RulesAgree codec g item ↔
      ∀ payload, signed.payload = some payload → namesItem codec item payload →
        (g.recordedReader item.tree signed.issuer ↔
          g.recordedEditor item.tree signed.issuer ∧ g.inScope codec item) := by
  refine ⟨fun h payload => h signed payload hdecoded, fun h signed' payload hdecoded' => ?_⟩
  cases hdecoded.symm.trans hdecoded'
  exact h payload

/-- For every correctly signed item of a shared tree, `persist_items` and `valid_ingest_item` decide
alike iff it is an item of a content tree, or a fragment, or their rules agree on it. -/
theorem admitsLive_iff_validIngestItem (codec : IntakeCodec B) (g : Gate B) (item : StoreItem B)
    (ht : isSharedNamespace item.tree) (hitem : CorrectlySigned codec item) :
    (g.admitsLive codec item ↔ g.validIngestItem codec item) ↔
      (item.tree.firstByte = sharedAuthorityTreeTag → item.kind = .commit →
        RulesAgree codec g item) := by
  have hne : sharedTreeTag ≠ sharedAuthorityTreeTag := by decide
  cases hkind : item.kind with
  | fragment =>
    have hlive : ¬ g.admitsLive codec item := by
      obtain ⟨signed, hdecoded, _⟩ := hitem.fragment hkind
      have hopq : ¬ Opaque.isOpaqueTree item.tree := fun h =>
        not_isSharedNamespace_of_isOpaqueTree h ht
      have hrefused : (g.storage.ensureTree item.tree).admitFragment item.tree signed = none := by
        simp [SnapshotStorage.admitFragment, ht]
      simp [admitsLive, hkind, hdecoded, SnapshotStorage.persistItems, hopq,
        SnapshotStorage.persistCommits, SnapshotStorage.persistFragments, hrefused, Except.isOk,
        Except.toBool]
    have hdrive : ¬ g.validIngestItem codec item := by simp [validIngestItem, hkind, ht]
    simp [hlive, hdrive]
  | commit =>
    obtain ⟨signed, hdecoded, hverifies, hhead⟩ := hitem.commit hkind
    rw [admitsLive_commit hkind ht hdecoded, sharedAuthorized_iff ht,
      validIngestItem_commit hkind ht hdecoded hverifies hhead]
    by_cases hauthority : item.tree.firstByte = sharedAuthorityTreeTag
    · rw [rulesAgree_iff hdecoded]
      cases hpayload : signed.payload with
      | none => simp
      | some payload =>
        by_cases hnames : namesItem codec item payload
        · simp [hauthority, hne.symm, hnames]
        · simp [hnames]
    · simp [hauthority]

/-! ## Everything stored is bound to its tree -/

/-- What a signed payload commits to. -/
structure Claims where
  tree : TreeId
  head : CommitId
  blobMeta : BlobMeta

/-- What a signed commit commits to. -/
def commitClaims (payload : LooseCommit) : Claims :=
  ⟨payload.sedimentreeId, payload.head, payload.blobMeta⟩

/-- What a signed fragment commits to. -/
def fragmentClaims (payload : Fragment) : Claims :=
  ⟨payload.sedimentreeId, payload.head, payload.blobMeta⟩

/-- Who may write a tree: the recorded editors of a content tree, the recorded readers of an
authority tree, and the members everywhere else. -/
def mayWrite (g : Gate B) (t : TreeId) (key : Bytes32) : Bool :=
  if isSharedNamespace t then
    if t.firstByte = sharedAuthorityTreeTag then g.recordedReader t key else g.recordedEditor t key
  else decide (key ∈ g.members)

/-- The item's signature verifies, its payload names the tree, the id and the blob it is stored
with, and its author may write the tree. -/
structure Bound {T : Type} (codec : IntakeCodec B) (claims : T → Claims) (g : Gate B) (t : TreeId)
    (i : CommitId) (item : Signed T × B) : Prop where
  verifies : codec.verifies item.1.bytes
  claims_eq : item.1.payload.map claims = some ⟨t, i, codec.blobMeta item.2⟩
  author : g.mayWrite t item.1.issuer

/-- The driver verified the signatures of the batch it hands over. -/
def Verified (codec : IntakeCodec B) (l : Label B) : Prop :=
  ∀ t commits fragments, l = .persist t commits fragments →
    (∀ item ∈ commits, codec.verifies item.1.bytes) ∧
      ∀ item ∈ fragments, codec.verifies item.1.bytes

/-- What must hold of a batch from a peer besides: a fragment names the tree and the blob it is
sent with, and what is sent for a tree outside the reserved namespace was signed by a member. -/
structure Vetted (codec : IntakeCodec B) (g : Gate B) (l : Label B) : Prop where
  verified : Verified codec l
  fits : ∀ t commits fragments, l = .persist t commits fragments → ¬ isSharedNamespace t →
    ∀ item ∈ fragments, ∀ payload ∈ item.1.payload,
      payload.sedimentreeId = t ∧ payload.blobMeta = codec.blobMeta item.2
  authors : ∀ t commits fragments, l = .persist t commits fragments → ¬ isSharedNamespace t →
    (∀ item ∈ commits, item.1.issuer ∈ g.members) ∧ ∀ item ∈ fragments, item.1.issuer ∈ g.members

variable {l : Label B} {t : TreeId} {i : CommitId}

theorem mayWrite_of_sharedAuthorized {T : Type} {signed : Signed T} (ht : isSharedNamespace t)
    (h : g.storage.sharedAuthorized t signed) : g.mayWrite t signed.issuer := by
  rw [mayWrite, if_pos ht]
  have h := (sharedAuthorized_iff ht).1 h
  split at h <;> simp_all

/-- Whom the import path takes an item of, the live path may take it of too. -/
theorem mayWrite_of_itemAuthors {key : Bytes32} (hroles : Roles g.storage.shared)
    (h : key ∈ g.itemAuthors t) : g.mayWrite t key := by
  unfold itemAuthors at h
  unfold mayWrite recordedReader recordedEditor
  cases hrecord : g.storage.shared[t]? with
  | none =>
    rw [hrecord] at h
    by_cases ht : isSharedNamespace t
    · simp [ht] at h
    · simpa [ht] using h
  | some authority =>
    rw [hrecord] at h
    have ht : isSharedNamespace t := hroles.reserved t
      (ExtTreeMap.isSome_getElem?_iff_mem.1 (by rw [hrecord]; rfl))
    -- an authority tree is written by readers, and every editor is one
    have hreader : key ∈ authority.readers := hroles.editors t authority hrecord h
    simp only [ht, if_true, Option.any_some]
    split <;> simpa

theorem CommitEnters.bound {item : Signed LooseCommit × B} (h : CommitEnters codec g t i item l)
    (hroles : Roles g.storage.shared) (hvetted : Vetted codec g l) :
    Bound codec commitClaims g t i item := by
  cases h with
  | @persist commits fragments payload mem admitted head =>
    obtain ⟨hauthor, hpayload, htree, hmeta, _⟩ := SnapshotStorage.admitCommit_eq_some.1 admitted
    refine ⟨(hvetted.verified _ _ _ rfl).1 item mem, ?_, ?_⟩
    · simp [hpayload, commitClaims, htree, head, hmeta]
    · by_cases ht : isSharedNamespace t
      · exact mayWrite_of_sharedAuthorized ht hauthor
      · simpa [mayWrite, ht] using (hvetted.authors _ _ _ rfl ht).1 item mem
  | @ingest items entry payload mem tree kind accepted decoded blob payload_eq head =>
    subst tree
    obtain ⟨signed, payload', hdecoded, hverifies, hpayload, hissuer, htree, hhead, hmeta⟩ :=
      (validItem_commit kind).1 (validItem_of_accept accepted)
    cases decoded.symm.trans hdecoded
    cases payload_eq.symm.trans hpayload
    refine ⟨hverifies, ?_, mayWrite_of_itemAuthors hroles hissuer⟩
    simp [payload_eq, commitClaims, htree, head, hmeta, blob]

theorem FragmentEnters.bound {item : Signed Fragment × B} (h : FragmentEnters codec g t i item l)
    (hroles : Roles g.storage.shared) (hvetted : Vetted codec g l) :
    Bound codec fragmentClaims g t i item := by
  have ht := h.not_isSharedNamespace
  cases h with
  | @persist commits fragments payload mem admitted head =>
    obtain ⟨_, hauthor, hpayload⟩ := SnapshotStorage.admitFragment_eq_some.1 admitted
    obtain ⟨htree, hmeta⟩ := hvetted.fits _ _ _ rfl ht item mem payload hpayload
    refine ⟨(hvetted.verified _ _ _ rfl).2 item mem, ?_, ?_⟩
    · simp [hpayload, fragmentClaims, htree, head, hmeta]
    · simpa [mayWrite, ht] using (hvetted.authors _ _ _ rfl ht).2 item mem
  | @ingest items entry payload mem tree kind accepted decoded blob payload_eq head =>
    subst tree
    obtain ⟨_, signed, payload', hdecoded, hverifies, hpayload, hissuer, htree, hhead, hmeta⟩ :=
      (validItem_fragment kind).1 (validItem_of_accept accepted)
    cases decoded.symm.trans hdecoded
    cases payload_eq.symm.trans hpayload
    refine ⟨hverifies, ?_, mayWrite_of_itemAuthors hroles hissuer⟩
    simp [payload_eq, fragmentClaims, htree, head, hmeta, blob]

/-- The item entered by one of the steps taken, and was bound to its tree at that step. -/
def BoundSince {T : Type} (codec : IntakeCodec B) (claims : T → Claims)
    (entered : Gate B → Label B → Prop) (ls : List (Label B)) (t : TreeId) (i : CommitId)
    (item : Signed T × B) : Prop :=
  ∃ before l after, ls = before ++ l :: after ∧
    entered (Transition.run (step codec) {} before) l ∧
    Bound codec claims (Transition.run (step codec) {} before) t i item

theorem BoundSince.snoc {T : Type} {claims : T → Claims} {entered : Gate B → Label B → Prop}
    {ls : List (Label B)} {item : Signed T × B} (h : BoundSince codec claims entered ls t i item)
    (l : Label B) : BoundSince codec claims entered (ls ++ [l]) t i item := by
  obtain ⟨before, l', after, rfl, hentered, hbound⟩ := h
  exact ⟨before, l', after ++ [l], by simp, hentered, hbound⟩

/-- In every run whose batches are vetted, whatever the storage holds under a tree, commit or
fragment, has a verified payload that names the tree, the id it is filed under and the blob beside
it, and was signed by an author who might write the tree when it was admitted. -/
theorem stored_bound (codec : IntakeCodec B) (ls : List (Label B))
    (hmeets : Transition.Meets (step codec) (Vetted codec) {} ls) (t : TreeId) (i : CommitId) :
    (∀ item, ((Transition.run (step codec) {} ls).storage.tree t).commits[i]? = some item →
      BoundSince codec commitClaims (CommitEnters codec · t i item ·) ls t i item) ∧
    ∀ item, ((Transition.run (step codec) {} ls).storage.tree t).fragments[i]? = some item →
      BoundSince codec fragmentClaims (FragmentEnters codec · t i item ·) ls t i item := by
  induction ls using List.reverseRecOn with
  | nil => simp [SnapshotStorage.tree]
  | append_singleton ls l ih =>
    obtain ⟨hbefore, hvetted, _⟩ := Transition.meets_append.1 hmeets
    have ih := ih hbefore
    have henters := enters_step codec (Transition.run (step codec) {} ls) l t i
    have hroles := roles_run codec ls
    rw [Transition.run_append, Transition.run_cons, Transition.run_nil]
    refine ⟨fun item hitem => ?_, fun item hitem => ?_⟩
    · rcases henters.1 item hitem with hstored | hnew
      · exact (ih.1 item hstored).snoc l
      · exact ⟨ls, l, [], rfl, hnew, hnew.bound hroles hvetted⟩
    · rcases henters.2 item hitem with hstored | hnew
      · exact (ih.2 item hstored).snoc l
      · exact ⟨ls, l, [], rfl, hnew, hnew.bound hroles hvetted⟩

/-! ## One document, its reader and its editor -/

/-- The authority tree of the document below. -/
def sampleAuthorityTree : TreeId := Bytes32.setFirstByte 0 sharedAuthorityTreeTag

/-- The content tree of the document below. -/
def sampleContentTree : TreeId := Bytes32.setFirstByte 0 sharedTreeTag

/-- A commit of key 7 for the authority tree. -/
def sampleAuthorityCommit : Signed LooseCommit :=
  ⟨7, [1], some ⟨sampleAuthorityTree, 9, [], ⟨0, 2⟩⟩⟩

/-- A commit of key 8 for the content tree. -/
def sampleContentCommit : Signed LooseCommit :=
  ⟨8, [2], some ⟨sampleContentTree, 9, [], ⟨0, 2⟩⟩⟩

/-- A fragment of key 7 for the private tree 6. -/
def sampleFragment : Signed Fragment :=
  ⟨7, [3], some ⟨6, 9, [], [], ⟨0, 2⟩⟩⟩

/-- A codec that tells these envelopes apart. -/
def sampleCodec : IntakeCodec Bytes where
  blobMeta blob := ⟨0, blob.length⟩
  ciphertextRefs _ := some ⟨0, 0⟩
  sharedCref _ _ := 0
  hashRefs _ := 0
  itemId _ _ _ := 0
  decodeCommit bytes := [sampleAuthorityCommit, sampleContentCommit].find? fun s => s.bytes = bytes
  decodeFragment bytes := [sampleFragment].find? fun s => s.bytes = bytes
  minimize _ commits := commits
  sha _ := 0
  verifies _ := true
  authorityScope _ _ := true

/-- The record of the document: 7 reads, 8 edits. -/
def sampleMembers : List (Bytes32 × Access) := [(7, .read), (8, .edit)]

/-- A device that holds the record. -/
def sampleGate : Gate Bytes where
  storage := { shared := ((∅ : SharedAuthorities).insert sampleContentTree
    (.ofMembers sampleMembers)).insert sampleAuthorityTree (.ofMembers sampleMembers) }

/-- An authority item of a reader is stored when a peer sends it and refused when Drive does. -/
theorem reader_item_live_only :
    ¬ ∀ (g : Gate Bytes) (item : StoreItem Bytes), isSharedNamespace item.tree →
      CorrectlySigned sampleCodec item →
      (g.admitsLive sampleCodec item ↔ g.validIngestItem sampleCodec item) := by
  intro h
  have hsigned : CorrectlySigned sampleCodec ⟨sampleAuthorityTree, 9, [1], [4, 4], .commit⟩ :=
    ⟨fun _ => ⟨sampleAuthorityCommit, rfl, rfl, by rintro _ ⟨⟩; rfl⟩, (by rintro ⟨⟩)⟩
  have hiff := h sampleGate _ (by decide) hsigned
  have hlive : sampleGate.admitsLive sampleCodec
      ⟨sampleAuthorityTree, 9, [1], [4, 4], .commit⟩ := by decide +kernel
  have hdrive : ¬ sampleGate.validIngestItem sampleCodec
      ⟨sampleAuthorityTree, 9, [1], [4, 4], .commit⟩ := by decide +kernel
  exact hdrive (hiff.1 hlive)

theorem admitsLive_iff_validIngestItem_content :
    sampleGate.admitsLive sampleCodec ⟨sampleContentTree, 9, [2], [4, 4], .commit⟩ ↔
      sampleGate.validIngestItem sampleCodec ⟨sampleContentTree, 9, [2], [4, 4], .commit⟩ :=
  (admitsLive_iff_validIngestItem sampleCodec sampleGate _ (by decide)
    ⟨fun _ => ⟨sampleContentCommit, rfl, rfl, by rintro _ ⟨⟩; rfl⟩, (by rintro ⟨⟩)⟩).2
    fun h => absurd h (by decide)

/-- A fragment signed for tree 6 is stored under tree 5 when a member sends it there. -/
theorem foreign_fragment_stored :
    ¬ ∀ ls : List (Label Bytes), (∀ l ∈ ls, Verified sampleCodec l) → ∀ (t : TreeId) (i : CommitId)
      (item : Signed Fragment × Bytes),
      ((Transition.run (step sampleCodec) {} ls).storage.tree t).fragments[i]? = some item →
      item.1.payload.map fragmentClaims = some ⟨t, i, sampleCodec.blobMeta item.2⟩ := by
  intro h
  have hclaims := h [.group {7} ∅, .persist 5 [] [(sampleFragment, [4, 4])]]
    (fun _ _ _ _ _ _ => ⟨fun _ _ => rfl, fun _ _ => rfl⟩) 5 9 (sampleFragment, [4, 4])
    (by decide +kernel)
  revert hclaims
  simp [sampleFragment, fragmentClaims]

/-- The same fragment, sent for the tree it names, and a content commit of the editor. -/
def sampleRun : List (Label Bytes) :=
  [.group {7} ∅, .persist 6 [] [(sampleFragment, [4, 4])],
    .refresh ("document:" ++ String.ofList (List.replicate 64 '0')) sampleMembers,
    .persist sampleContentTree [(sampleContentCommit, [4, 4])] []]

theorem vetted_sampleRun :
    Transition.Meets (step sampleCodec) (Vetted sampleCodec) {} sampleRun := by
  have hquiet (g : Gate Bytes) (l : Label Bytes)
      (hl : ∀ t commits fragments, l ≠ .persist t commits fragments) : Vetted sampleCodec g l :=
    ⟨fun _ _ _ h => (hl _ _ _ h).elim, fun _ _ _ h => (hl _ _ _ h).elim,
      fun _ _ _ h => (hl _ _ _ h).elim⟩
  refine ⟨hquiet _ _ (by simp), ⟨?_, ?_, ?_⟩, hquiet _ _ (by simp), ⟨?_, ?_, ?_⟩, trivial⟩
  · exact fun _ _ _ _ => ⟨fun _ _ => rfl, fun _ _ => rfl⟩
  · rintro _ _ _ ⟨⟩ _ item hitem payload hpayload
    simp only [List.mem_singleton] at hitem
    subst hitem
    cases hpayload
    exact ⟨rfl, rfl⟩
  · rintro _ _ _ ⟨⟩ _
    refine ⟨fun item hitem => (List.not_mem_nil hitem).elim, fun item hitem => ?_⟩
    simp only [List.mem_singleton] at hitem
    subst hitem
    decide
  · exact fun _ _ _ _ => ⟨fun _ _ => rfl, fun _ _ => rfl⟩
  · rintro _ _ _ ⟨⟩ _ item hitem
    cases hitem
  · rintro _ _ _ ⟨⟩ ht
    exact (ht (by decide)).elim

theorem stored_bound_sampleRun :
    BoundSince sampleCodec fragmentClaims
      (FragmentEnters sampleCodec · 6 9 (sampleFragment, [4, 4]) ·)
      sampleRun 6 9 (sampleFragment, [4, 4]) ∧
    BoundSince sampleCodec commitClaims
      (CommitEnters sampleCodec · sampleContentTree 9 (sampleContentCommit, [4, 4]) ·)
      sampleRun sampleContentTree 9 (sampleContentCommit, [4, 4]) :=
  ⟨(stored_bound sampleCodec sampleRun vetted_sampleRun 6 9).2 _ (by decide +kernel),
    (stored_bound sampleCodec sampleRun vetted_sampleRun sampleContentTree 9).1 _
      (by decide +kernel)⟩

/-- The policy of the device that holds the record. -/
def samplePolicy : GroupPolicy where
  members := {9}
  lifecycle := {}
  shared := sampleGate.storage.shared
  reserved t ht := by
    rcases ExtTreeMap.mem_insert.1 ht with heq | ht
    · rw [← LawfulEqOrd.eq_of_compare heq]
      decide
    rcases ExtTreeMap.mem_insert.1 ht with heq | ht
    · rw [← LawfulEqOrd.eq_of_compare heq]
      decide
    · simp at ht

theorem access_confined_sample :
    (7 ∈ (TreeAuthority.ofMembers sampleMembers).readers ∧ StorageAction.read ≠ .delete) ∧
    ((Transition.run (step sampleCodec) {} sampleRun).storage.tree
      sampleContentTree).fragments = ∅ :=
  ⟨((access_confined sampleCodec).1 samplePolicy 7 sampleContentTree .read (by decide +kernel)).1 _
      (by decide +kernel),
    (((access_confined sampleCodec).2 (sampleRun.take 3)).2 (sampleRun.getLast (by decide))
      sampleContentTree (by decide)).2⟩

end Gate

end Polyvisor
