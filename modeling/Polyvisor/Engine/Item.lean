import Std.Data.ExtTreeMap
import Mathlib.Algebra.GroupWithZero.Nat
import Mathlib.Data.Finset.Basic
import Mathlib.Data.List.Dedup
import Mathlib.Data.Nat.Notation

/-!
# Sedimentree items and the storage journal's records

The data model of `engine/src/storage.rs` and of the journal half of `engine/src/lib.rs`: the
items a sedimentree stores, the mutations the storage records for the local journal, and the
delta one journal record carries.

A blob has type `B`. The storage never looks inside one except through `Codec`, which gathers
what the engine takes from `subduction_crypto`, `sedimentree_core`, `bincode` and the two hash
functions; the model is the same for every choice of these.
-/

namespace Polyvisor

/-- A byte string. -/
abbrev Bytes := List UInt8

/-- Thirty-two raw bytes, the first byte most significant. -/
abbrev Bytes32 := BitVec 256

/-- `SedimentreeId`. -/
abbrev TreeId := Bytes32

/-- `sedimentree_core::loose_commit::id::CommitId`; for an app tree it is an automerge change
hash. -/
abbrev CommitId := Bytes32

/-- The order of the maps that are keyed by ids. -/
instance transOrd_bytes32 : Std.TransOrd Bytes32 := inferInstance

instance lawfulBEq_bytes32 : LawfulBEq Bytes32 := inferInstance

instance lawfulBEq_bytes : LawfulBEq Bytes := inferInstance

/-- The first byte of an id, which is where a tree id carries its namespace tag. -/
def Bytes32.firstByte (id : Bytes32) : BitVec 8 :=
  id.extractLsb' 248 8

/-- The tag of the content tree of a shareable document. -/
def sharedTreeTag : BitVec 8 := 2

/-- The tag of the authority tree of a shareable document. -/
def sharedAuthorityTreeTag : BitVec 8 := 3

/-- Whether a tree id lies in the namespace reserved for shareable documents. -/
def isSharedNamespace (tree : TreeId) : Bool :=
  tree.firstByte == sharedTreeTag || tree.firstByte == sharedAuthorityTreeTag

/-- Which sedimentree item a record carries. -/
inductive ItemKind where
  /-- One automerge change. -/
  | commit
  /-- A roll-up of a commit range: one automerge bundle. -/
  | fragment
  deriving DecidableEq, Repr

/-- The position of a kind in the derived order of the source's enumeration. -/
def ItemKind.index : ItemKind → ℕ
  | .commit => 0
  | .fragment => 1

/-- One sedimentree item as the durable store carries it. -/
structure StoreItem (B : Type) where
  /-- The tree the item is filed under. -/
  tree : TreeId
  /-- The commit id for a commit, the head for a fragment. -/
  commit : CommitId
  /-- The signed envelope, byte for byte as its author made it. -/
  signed : Bytes
  /-- The payload the envelope commits to. -/
  blob : B
  /-- Which envelope `signed` is. -/
  kind : ItemKind
  deriving DecidableEq

/-- What names an item: its tree, its id and its kind. -/
structure ItemKey where
  /-- The tree. -/
  tree : TreeId
  /-- The commit id or the fragment head. -/
  commit : CommitId
  /-- The kind. -/
  kind : ItemKind
  deriving DecidableEq, Repr

/-- Keys are ordered by tree, then id, then kind, as the source's tuples are. -/
instance : Ord ItemKey where
  compare := compareLex (compareOn (·.tree)) (compareLex (compareOn (·.commit))
    (compareOn (·.kind.index)))

instance : Std.TransOrd ItemKey :=
  inferInstanceAs (Std.TransCmp (compareLex (compareOn ItemKey.tree)
    (compareLex (compareOn ItemKey.commit) (compareOn fun k => k.kind.index))))

instance : Std.LawfulEqOrd ItemKey where
  eq_of_compare {a b} h := by
    change compareLex (compareOn ItemKey.tree) (compareLex (compareOn ItemKey.commit)
      (compareOn fun k => k.kind.index)) a b = .eq at h
    simp only [compareLex_eq_eq, compareOn, Std.LawfulEqOrd.compare_eq_iff_eq] at h
    obtain ⟨htree, hcommit, hkind⟩ := h
    obtain ⟨ta, ca, ka⟩ := a
    obtain ⟨tb, cb, kb⟩ := b
    cases ka <;> cases kb <;> simp_all [ItemKind.index]

/-- The key an item is filed under. -/
def StoreItem.key {B : Type} (item : StoreItem B) : ItemKey :=
  ⟨item.tree, item.commit, item.kind⟩

/-- One change of the storage, as the local journal records it. -/
inductive StorageMutation (B : Type) where
  /-- The item was stored, over whatever its key held. -/
  | put (item : StoreItem B)
  /-- The item under this key was dropped. -/
  | remove (key : ItemKey)
  /-- Every item of the tree was dropped. -/
  | forgetTree (tree : TreeId)
  deriving DecidableEq

/-- `sedimentree_core::blob::BlobMeta`: the digest and the size a signed payload commits to. -/
structure BlobMeta where
  /-- The blob's digest. -/
  digest : Bytes32
  /-- The blob's length in bytes. -/
  size : ℕ
  deriving DecidableEq, Repr

/-- `sedimentree_core::loose_commit::LooseCommit`. The parents are a `BTreeSet` in the source and
its ascending list here. -/
structure LooseCommit where
  /-- The tree the commit belongs to. -/
  sedimentreeId : TreeId
  /-- The commit's id. -/
  head : CommitId
  /-- The ids it depends on. -/
  parents : List CommitId
  /-- What it commits to about its blob. -/
  blobMeta : BlobMeta
  deriving DecidableEq, Repr

/-- `sedimentree_core::fragment::Fragment`. -/
structure Fragment where
  /-- The tree the fragment belongs to. -/
  sedimentreeId : TreeId
  /-- The newest commit of the range. -/
  head : CommitId
  /-- The commits just below the range. -/
  boundary : List CommitId
  /-- The commits inside the range that coverage is decided by. -/
  checkpoints : List CommitId
  /-- What it commits to about its blob. -/
  blobMeta : BlobMeta
  deriving DecidableEq, Repr

/-- `subduction_crypto::signed::Signed<T>`: a self-describing envelope. `payload` is what
`try_decode_trusted_payload` answers. -/
structure Signed (T : Type) where
  /-- The signing key's verifying half. -/
  issuer : Bytes32
  /-- The wire bytes. -/
  bytes : Bytes
  /-- The decoded payload, if the envelope's fields decode. -/
  payload : Option T
  deriving DecidableEq, Repr

/-- A content reference: what keyhive indexes one plaintext by. -/
abbrev Cref := Bytes32

/-- The part of a shared item's ciphertext that is compared with the signed commit. -/
structure CiphertextRefs where
  /-- The content reference the ciphertext was sealed for. -/
  contentRef : Cref
  /-- The digest of the predecessor references it was sealed with. -/
  predRefs : Bytes32
  deriving DecidableEq, Repr

/-- What the engine takes from the crates it builds on. -/
structure Codec (B : Type) where
  /-- `BlobMeta::new(&Blob::new(..))`. -/
  blobMeta : B → BlobMeta
  /-- `bincode::deserialize::<Ciphertext>`, as far as the storage reads the answer. -/
  ciphertextRefs : B → Option CiphertextRefs
  /-- `shared_cref`: the reference of a commit of a shared tree. -/
  sharedCref : TreeId → CommitId → Cref
  /-- `keyhive_crypto::digest::Digest::hash` of a list of references. -/
  hashRefs : List Cref → Bytes32
  /-- `opaque::item_id`. -/
  itemId : TreeId → List CommitId → B → CommitId
  /-- `Signed::<LooseCommit>::try_decode`. -/
  decodeCommit : Bytes → Option (Signed LooseCommit)
  /-- `Signed::<Fragment>::try_decode`. -/
  decodeFragment : Bytes → Option (Signed Fragment)
  /-- The loose commits `Sedimentree::new(fragments, commits).minimize(..)` keeps. -/
  minimize : List Fragment → List LooseCommit → List LooseCommit

/-- A signed envelope and its payload blob, as a snapshot carries them. -/
structure Item (B : Type) where
  /-- The envelope's wire bytes. -/
  signed : Bytes
  /-- The payload. -/
  blob : B
  deriving DecidableEq

end Polyvisor
