import Polyvisor.Engine.Item

/-!
# Opaque trees and their registers

The part of `engine/src/opaque.rs` that storage admission reads: which tree ids are opaque,
which slot each belongs to, and whether the register of that slot currently names the tree.
-/

namespace Polyvisor

open Std

/-- Who encrypts the items of an opaque tree. -/
inductive OpaqueMode where
  /-- The engine seals the caller's plaintext under the group's document. -/
  | groupSealed
  /-- The caller supplies ciphertext. -/
  | callerEncrypted
  deriving DecidableEq, Repr

/-- `[u8; 12]`: the hash of a slot name. -/
abbrev SlotHash := BitVec 96

instance transOrd_slotHash : Std.TransOrd SlotHash := inferInstance

/-- `[u8; 16]`: what distinguishes successive trees of one slot. -/
abbrev OpaqueNonce := BitVec 128

/-- The value of one slot's register. -/
structure RegisterValue where
  /-- Above every sequence the writer had observed. -/
  sequence : ℕ
  /-- The nonce of the tree written. -/
  nonce : OpaqueNonce
  /-- `none` once the slot is disabled. -/
  mode : Option OpaqueMode
  deriving DecidableEq, Repr

/-- `LifecycleState`: the current registers, and how many ready connections each peer has. -/
structure LifecycleState where
  /-- One winning value per slot. -/
  registers : ExtTreeMap SlotHash RegisterValue := ∅
  /-- The peers every one of whose connections completed control. -/
  readyPeers : ExtTreeMap Bytes32 ℕ := ∅

namespace Opaque

/-- `b"OPQ1"`. -/
def prefixTag : BitVec 32 := 0x4F505131#32

/-- `is_opaque_tree`: the id starts with the tag. -/
def isOpaqueTree (tree : TreeId) : Bool :=
  tree.extractLsb' 224 32 == prefixTag

/-- `tree_id`: tag, slot and nonce side by side. -/
def treeId (slot : SlotHash) (nonce : OpaqueNonce) : TreeId :=
  prefixTag ++ slot ++ nonce

/-- `tree_slot`. -/
def treeSlot (tree : TreeId) : Option SlotHash :=
  if isOpaqueTree tree then some (tree.extractLsb' 128 96) else none

/-- `status`: `none` for a tree no register speaks of, else whether it is the current one. -/
def status (lifecycle : LifecycleState) (tree : TreeId) : Option Bool := do
  let slot ← treeSlot tree
  let current ← lifecycle.registers[slot]?
  return current.mode.isSome && treeId slot current.nonce == tree

/-- `mode`: the mode of a tree that is current. -/
def mode (lifecycle : LifecycleState) (tree : TreeId) : Option OpaqueMode := do
  let current ← status lifecycle tree
  guard current
  let slot ← treeSlot tree
  let value ← lifecycle.registers[slot]?
  value.mode

end Opaque

/-- `policy::TreeAuthority`: who may read and who may write one shared tree. -/
structure TreeAuthority where
  /-- Members with at least `Read`. -/
  readers : Finset Bytes32 := ∅
  /-- Members with at least `Edit`. -/
  editors : Finset Bytes32 := ∅
  deriving DecidableEq

/-- `policy::SharedAuthorities`. -/
abbrev SharedAuthorities := ExtTreeMap TreeId TreeAuthority

end Polyvisor
