import Polyvisor.Engine.Opaque
import Mathlib.Data.List.Sort

/-!
# Item storage

`engine/src/storage.rs`: the map-backed item store behind the sync driver, and the list of
mutations it keeps for the local journal. A `BTreeMap` of the source is an `ExtTreeMap` here;
the interior-mutable cells are the fields of the state, and each function returns the state it
leaves behind, also when it fails part-way.

Every mutation pushes its record at the moment it changes a tree, so that a batch refused at
its third item leaves two items stored and two records pending.
-/

namespace Polyvisor

open Std

variable {B : Type}

/-- The items of one tree. -/
structure Tree (B : Type) where
  /-- Loose commits, by id. -/
  commits : ExtTreeMap CommitId (Signed LooseCommit × B) := ∅
  /-- Fragments, by head. -/
  fragments : ExtTreeMap CommitId (Signed Fragment × B) := ∅

/-- `SnapshotStorage`. -/
structure SnapshotStorage (B : Type) where
  /-- The stored trees. -/
  trees : ExtTreeMap TreeId (Tree B) := ∅
  /-- The mutations no acknowledged journal record carries yet. -/
  pending : List (StorageMutation B) := []
  /-- How many of `pending` the next prepared record may carry. -/
  settled : ℕ := 0
  /-- The opaque registers, shared with the engine. -/
  lifecycle : LifecycleState := {}
  /-- The authorities of the shared trees, shared with the engine. -/
  shared : SharedAuthorities := ∅

/-- `StorageFailure`. -/
inductive StorageFailure where
  | retryable
  | permanent
  deriving DecidableEq, Repr

namespace SnapshotStorage

/-! ### Reading -/

/-- The tree stored under an id, empty if there is none. -/
def tree (s : SnapshotStorage B) (t : TreeId) : Tree B :=
  s.trees.getD t {}

/-- `metadata`: the payloads of a tree that decode. -/
def metadata (s : SnapshotStorage B) (t : TreeId) : List LooseCommit × List Fragment :=
  ((s.tree t).commits.values.filterMap (·.1.payload),
    (s.tree t).fragments.values.filterMap (·.1.payload))

/-- `commit_blobs`. -/
def commitBlobs (s : SnapshotStorage B) (t : TreeId) : List (CommitId × B) :=
  (s.tree t).commits.toList.map fun (id, _, blob) => (id, blob)

/-- `fragment_blobs`. -/
def fragmentBlobs (s : SnapshotStorage B) (t : TreeId) : List (CommitId × B) :=
  (s.tree t).fragments.toList.map fun (head, _, blob) => (head, blob)

/-- `holds`. -/
def holds (s : SnapshotStorage B) (t : TreeId) (id : CommitId) : Bool :=
  (s.tree t).commits.contains id

/-- `holds_fragment`. -/
def holdsFragment (s : SnapshotStorage B) (t : TreeId) (head : CommitId) : Bool :=
  (s.tree t).fragments.contains head

/-- `shared_authorized`: whether the issuer may write the tree. A tree of the reserved
namespace without a record is closed, any other tree without one is open. -/
def sharedAuthorized {T : Type} (s : SnapshotStorage B) (t : TreeId) (signed : Signed T) : Bool :=
  match s.shared[t]? with
  | none => !isSharedNamespace t
  | some authority =>
    if t.firstByte == sharedAuthorityTreeTag then decide (signed.issuer ∈ authority.readers)
    else decide (signed.issuer ∈ authority.editors)

/-! ### The three ways a tree changes -/

/-- Replace one tree and record one mutation. -/
def write (s : SnapshotStorage B) (t : TreeId) (tree : Tree B) (m : StorageMutation B) :
    SnapshotStorage B :=
  { s with trees := s.trees.insert t tree, pending := s.pending ++ [m] }

/-- File a commit under its head. -/
def insertCommit (s : SnapshotStorage B) (t : TreeId) (head : CommitId)
    (item : Signed LooseCommit × B) : SnapshotStorage B :=
  s.write t { s.tree t with commits := (s.tree t).commits.insert head item }
    (.put ⟨t, head, item.1.bytes, item.2, .commit⟩)

/-- File a fragment under its head. -/
def insertFragment (s : SnapshotStorage B) (t : TreeId) (head : CommitId)
    (item : Signed Fragment × B) : SnapshotStorage B :=
  s.write t { s.tree t with fragments := (s.tree t).fragments.insert head item }
    (.put ⟨t, head, item.1.bytes, item.2, .fragment⟩)

/-- Drop one loose commit. -/
def removeCommit (s : SnapshotStorage B) (t : TreeId) (id : CommitId) : SnapshotStorage B :=
  s.write t { s.tree t with commits := (s.tree t).commits.erase id } (.remove ⟨t, id, .commit⟩)

/-- `forget_tree`, and the body of `delete_tree`: drop every item of the tree. -/
def forgetTree (s : SnapshotStorage B) (t : TreeId) : SnapshotStorage B :=
  { s with trees := s.trees.erase t, pending := s.pending ++ [.forgetTree t] }

/-- `trees.entry(tree).or_default()`. -/
def ensureTree (s : SnapshotStorage B) (t : TreeId) : SnapshotStorage B :=
  { s with trees := s.trees.insert t (s.tree t) }

/-! ### Admission -/

/-- `valid_raw_commit`: a caller-encrypted item is named by what it contains. -/
def validRawCommit (codec : Codec B) (t : TreeId) (payload : LooseCommit)
    (blob : B) : Bool :=
  let parents := (payload.parents.mergeSort (· ≤ ·)).dedup
  parents.length == payload.parents.length && codec.itemId t parents blob == payload.head

/-- Whether the ciphertext of a shared commit is scoped to the commit that was signed. -/
def scopedCiphertext (codec : Codec B) (t : TreeId) (payload : LooseCommit) (blob : B) : Bool :=
  match codec.ciphertextRefs blob with
  | none => false
  | some refs =>
    refs.contentRef == codec.sharedCref t payload.head &&
      refs.predRefs == codec.hashRefs (payload.parents.map (codec.sharedCref t))

/-- The checks `persist_items` makes of one commit, in its order; every refusal is permanent. -/
def admitCommit (codec : Codec B) (s : SnapshotStorage B) (t : TreeId)
    (signed : Signed LooseCommit) (blob : B) : Option LooseCommit := do
  guard (s.sharedAuthorized t signed)
  let payload ← signed.payload
  guard (payload.sedimentreeId = t ∧ payload.blobMeta = codec.blobMeta blob)
  guard (t.firstByte = sharedTreeTag → scopedCiphertext codec t payload blob)
  guard (Opaque.isOpaqueTree t → Opaque.mode s.lifecycle t = some .callerEncrypted →
    validRawCommit codec t payload blob)
  return payload

/-- The checks `persist_items` makes of one fragment. -/
def admitFragment (s : SnapshotStorage B) (t : TreeId) (signed : Signed Fragment) :
    Option Fragment := do
  guard (!isSharedNamespace t && s.sharedAuthorized t signed)
  signed.payload

/-- The commit loop of `persist_items`: the first refused commit ends it, and what was stored
before stays stored. -/
def persistCommits (codec : Codec B) (t : TreeId) :
    SnapshotStorage B → List (Signed LooseCommit × B) → ℕ →
      SnapshotStorage B × Except StorageFailure ℕ
  | s, [], stored => (s, .ok stored)
  | s, (signed, blob) :: rest, stored =>
    match s.admitCommit codec t signed blob with
    | none => (s, .error .permanent)
    | some payload =>
      persistCommits codec t (s.insertCommit t payload.head (signed, blob)) rest (stored + 1)

/-- The fragment loop of `persist_items`. -/
def persistFragments (t : TreeId) :
    SnapshotStorage B → List (Signed Fragment × B) → ℕ →
      SnapshotStorage B × Except StorageFailure ℕ
  | s, [], stored => (s, .ok stored)
  | s, (signed, blob) :: rest, stored =>
    match s.admitFragment t signed with
    | none => (s, .error .permanent)
    | some payload =>
      persistFragments t (s.insertFragment t payload.head (signed, blob)) rest (stored + 1)

/-- `persist_items`: store a batch a peer or the local driver hands over. -/
def persistItems (codec : Codec B) (s : SnapshotStorage B) (t : TreeId)
    (commits : List (Signed LooseCommit × B)) (fragments : List (Signed Fragment × B)) :
    SnapshotStorage B × Except StorageFailure ℕ :=
  if Opaque.isOpaqueTree t ∧ Opaque.status s.lifecycle t ≠ some true then
    (s, .error .retryable)
  else if Opaque.isOpaqueTree t ∧ !fragments.isEmpty then
    (s, .error .permanent)
  else
    match persistCommits codec t (s.ensureTree t) commits 0 with
    | (s', .error e) => (s', .error e)
    | (s', .ok stored) => persistFragments t s' fragments stored

/-! ### Restoring -/

/-- The commits `restore` accepts: the envelope decodes, and a caller-encrypted item names
itself. -/
def acceptedCommits (codec : Codec B) (s : SnapshotStorage B) (t : TreeId)
    (items : List (Item B)) : List (CommitId × Signed LooseCommit × B) :=
  items.filterMap fun item => do
    let signed ← codec.decodeCommit item.signed
    let payload ← signed.payload
    guard (Opaque.isOpaqueTree t → Opaque.mode s.lifecycle t = some .callerEncrypted →
      validRawCommit codec t payload item.blob)
    return (payload.head, signed, item.blob)

/-- The fragments `restore` accepts. -/
def acceptedFragments (codec : Codec B) (items : List (Item B)) :
    List (CommitId × Signed Fragment × B) :=
  items.filterMap fun item => do
    let signed ← codec.decodeFragment item.signed
    let payload ← signed.payload
    return (payload.head, signed, item.blob)

/-- `restore`: reinstate a snapshot's items for one tree. The source checks eligibility a second
time just before it writes; nothing can run between the two checks. -/
def restore (codec : Codec B) (s : SnapshotStorage B) (t : TreeId)
    (commits fragments : List (Item B)) : SnapshotStorage B :=
  if Opaque.isOpaqueTree t ∧ (Opaque.status s.lifecycle t ≠ some true ∨ !fragments.isEmpty) then s
  else
    let commits := s.acceptedCommits codec t commits
    let fragments := acceptedFragments codec fragments
    let s := commits.foldl (fun s (head, item) => s.insertCommit t head item) (s.ensureTree t)
    fragments.foldl (fun s (head, item) => s.insertFragment t head item) s

/-! ### Pruning -/

/-- The fragments whose every boundary id heads another fragment of the tree. -/
def anchored (fragments : List Fragment) : List Fragment :=
  fragments.filter fun f => f.boundary.all fun id => id ∈ fragments.map (·.head)

/-- The commits `prune` drops: those minimisation over the anchored fragments does not keep. -/
def doomed (codec : Codec B) (s : SnapshotStorage B) (t : TreeId) : List CommitId :=
  let (commits, fragments) := s.metadata t
  if (anchored fragments).isEmpty then []
  else
    let kept := (codec.minimize (anchored fragments) commits).map (·.head)
    (s.tree t).commits.keys.filter fun id => id ∉ kept

/-- `prune`: drop every loose commit that a fragment carries, answering how many went. -/
def prune (codec : Codec B) (s : SnapshotStorage B) (t : TreeId) : SnapshotStorage B × ℕ :=
  let doomed := s.doomed codec t
  (doomed.foldl (fun s id => s.removeCommit t id) s, doomed.length)

/-! ### The journal's cut -/

/-- `settle`: every pending mutation may go into the next record. -/
def settle (s : SnapshotStorage B) : SnapshotStorage B :=
  { s with settled := s.pending.length }

/-- `has_unsettled`. -/
def hasUnsettled (s : SnapshotStorage B) : Bool :=
  s.settled < s.pending.length

/-- `pending_prefix`. -/
def pendingPrefix (s : SnapshotStorage B) (len : ℕ) : List (StorageMutation B) :=
  s.pending.take len

/-- `acknowledge`: the first `len` pending mutations are durable. -/
def acknowledge (s : SnapshotStorage B) (len : ℕ) : SnapshotStorage B :=
  { s with pending := s.pending.drop len, settled := s.settled - len }

/-- `mark_restored`: what a restored storage holds is what the journal holds. -/
def markRestored (s : SnapshotStorage B) : SnapshotStorage B :=
  { s with pending := [], settled := 0 }

end SnapshotStorage

end Polyvisor
