import Polyvisor.Engine.Journal
import Polyvisor.Lib.Text

/-!
# The engine's snapshot

`JournalState::snapshot` of `engine/src/lib.rs`: what a reload hands to `Engine::new`, sorted
out of the items a journal left behind. Tree ids are hashes of partition names, so the hash is
a parameter; the namespace tag in the first byte is not hash output and is written here as the
source writes it.

A journal item lands in one of four places: under an app whose content or authority tree it
carries, under the group's own two trees, in an opaque tree, or in a tree no document is bound
to.
-/

namespace Polyvisor

open Std

/-! ## Tree ids -/

/-- `sha2::Sha256`. -/
abbrev Sha256 := Bytes → Bytes32

/-- Overwrite the first byte of an id. -/
def Bytes32.setFirstByte (id : Bytes32) (tag : BitVec 8) : Bytes32 :=
  tag ++ id.extractLsb' 0 248

@[simp]
theorem Bytes32.firstByte_setFirstByte (id : Bytes32) (tag : BitVec 8) :
    (id.setFirstByte tag).firstByte = tag := by
  ext i hi
  have hlow : ¬ 248 + i < 248 := by omega
  have hsub : 248 + i - 248 = i := by omega
  rw [firstByte, setFirstByte, BitVec.getElem_extractLsb', BitVec.getLsbD_append]
  simp [hlow, hsub, BitVec.getLsbD_eq_getElem hi]

/-- The partition prefix of a shareable document. -/
def documentPrefix : String := "document:"

/-- The characters behind the prefix `document:`, if the partition has it. -/
def stripDocumentPrefix (partition : String) : Option (List Char) :=
  if documentPrefix.toList <+: partition.toList then
    some (partition.toList.drop documentPrefix.length)
  else none

/-- The value of one lower-case hexadecimal digit. -/
def hexDigit (c : Char) : Option ℕ :=
  if '0' ≤ c ∧ c ≤ '9' then some (c.toNat - '0'.toNat)
  else if 'a' ≤ c ∧ c ≤ 'f' then some (c.toNat - 'a'.toNat + 10)
  else none

/-- `shared_document`: the document id a shareable partition is named by. `none` inside means a
private partition, `none` outside a malformed name. -/
def sharedDocument (partition : String) : Option (Option Bytes32) :=
  match stripDocumentPrefix partition with
  | none => some none
  | some hex => do
    guard (hex.length = 64)
    let digits ← hex.mapM hexDigit
    -- two digits a byte, first byte first, is one number in base sixteen
    return some (BitVec.ofNat 256 (digits.foldl (fun value digit => value * 16 + digit) 0))

/-- `document_tree`. -/
def documentTree (sha : Sha256) (partition : String) : TreeId :=
  (sha (utf8 "polyvisor:tasks:v2:" ++ utf8 partition)).setFirstByte
    (if (stripDocumentPrefix partition).isSome then sharedTreeTag else 0)

/-- `shared_authority_tree`. -/
def sharedAuthorityTree (sha : Sha256) (partition : String) : TreeId :=
  (sha (utf8 "polyvisor:document-authority:v0:" ++ utf8 partition)).setFirstByte
    sharedAuthorityTreeTag

/-- `keyhive_tree`. -/
def keyhiveTree (sha : Sha256) : TreeId :=
  sha (utf8 "polyvisor:keyhive-events")

/-- `us_tree`. -/
def usTree (sha : Sha256) : TreeId :=
  sha (utf8 "polyvisor:us")

/-! ## The snapshot -/

variable {B V : Type}

/-- `TreeState`: one document and the items behind it. -/
structure TreeState (B : Type) where
  doc : Bytes := []
  commits : List (Item B) := []
  fragments : List (Item B) := []
  deriving DecidableEq

/-- `AppState`. -/
structure AppState (B : Type) where
  app : String
  state : TreeState B
  -- the signed keyhive operations of a shareable document
  authority : List (Item B) := []
  deriving DecidableEq

/-- `OpaqueState`. -/
structure OpaqueState (B : Type) where
  tree : TreeId
  commits : List (Item B)
  deriving DecidableEq

/-- `UnboundState`. -/
structure UnboundState (B : Type) where
  tree : TreeId
  commits : List (Item B)
  fragments : List (Item B)
  deriving DecidableEq

/-- `storage::Snapshot`. -/
structure Snapshot (B V : Type) where
  apps : List (AppState B)
  us : Option (TreeState B)
  keyhive : Option (TreeState B)
  vault : Option V
  nameKey : Option Bytes32
  opaques : List (OpaqueState B)
  unbound : List (UnboundState B)
  deriving DecidableEq

/-- `apps_trees`: the trees a list of apps binds. -/
def appsTrees (sha : Sha256) (apps : List (AppState B)) : List TreeId :=
  apps.flatMap fun app =>
    documentTree sha app.app ::
      if (sharedDocument app.app).join.isSome then [sharedAuthorityTree sha app.app] else []

namespace JournalState

/-- The journal's items of one tree and kind, in key order. -/
def treeItems (j : JournalState B V) (t : TreeId) (kind : ItemKind) : List (Item B) :=
  (j.items.values.filter fun item => item.tree = t ∧ item.kind = kind).map fun item =>
    ⟨item.signed, item.blob⟩

/-- `tree_state`. -/
def treeState (j : JournalState B V) (t : TreeId) : TreeState B :=
  { commits := j.treeItems t .commit, fragments := j.treeItems t .fragment }

/-- The trees the journal holds an item of, ascending: the keys of `by_tree`. -/
def trees (j : JournalState B V) : List TreeId :=
  (j.items.values.map (·.tree)).dedup

/-- The state of a tree that has one. -/
def nonemptyTree (j : JournalState B V) (t : TreeId) : Option (TreeState B) :=
  let state := j.treeState t
  if state.commits.isEmpty ∧ state.fragments.isEmpty then none else some state

/-- The app a partition restores to. -/
def appState (sha : Sha256) (j : JournalState B V) (app : String) : AppState B where
  app := app
  state := j.treeState (documentTree sha app)
  authority :=
    if (sharedDocument app).join.isSome then (j.treeState (sharedAuthorityTree sha app)).commits
    else []

/-- `snapshot`: `none` for a journal without a record. -/
def snapshot (sha : Sha256) (j : JournalState B V) : Option (Snapshot B V) :=
  j.control.map fun control =>
    let apps := control.partitions.map (j.appState sha)
    let known := appsTrees sha apps ++ [usTree sha, keyhiveTree sha]
    let rest := j.trees.filter fun t => t ∉ known
    { apps
      us := j.nonemptyTree (usTree sha)
      keyhive := j.nonemptyTree (keyhiveTree sha)
      vault := control.vault
      nameKey := control.nameKey
      opaques := (rest.filter fun t => Opaque.isOpaqueTree t).map fun t =>
        ⟨t, (j.treeState t).commits⟩
      unbound := (rest.filter fun t => !Opaque.isOpaqueTree t).map fun t =>
        ⟨t, (j.treeState t).commits, (j.treeState t).fragments⟩ }

end JournalState

end Polyvisor
