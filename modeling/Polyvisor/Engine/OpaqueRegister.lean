import Polyvisor.Engine.Snapshot
import Polyvisor.Lib.BigEndian
import Polyvisor.Lib.Register
import Polyvisor.Lib.Transition
import Mathlib.Data.Finset.Option
import Mathlib.Data.Finset.Union
import Mathlib.Data.Prod.Lex

/-!
# The opaque register

`RegisterValue` of `engine/src/opaque.rs`, the registers of the `us` document
(`engine/src/us.rs`) and the two operations that write them, `opaque_replace` and
`opaque_disable` of `engine/src/lib.rs`. A replica's document is the set of writes it has merged;
automerge shows every value of a key that no merged write hides, and a write hides what its author
had merged. The engine refreshes its registers in the same turn in which the document moves.

The machine interleaves local writes and merges of any number of replicas. A write keeps the bytes
its nonce is the digest of; no code reads them.

## Main results

* `decode_eq_some`: `decode` accepts exactly the encodings.
* `registerInv_step`: what every step keeps; above all, a write's sequence is above that of
  everything of its slot the author had merged.
* `register_converges`: what a replica reads depends on what it has merged only, never decreases,
  and never comes back to a tree it has left, as long as no nonce counter has run out.
* `nonce_repeats`: with a counter that has, it does.
-/

namespace Polyvisor

/-! ## The value of a slot -/

namespace RegisterValue

/-- The order of `Option<OpaqueMode>`, and its byte in the encoding. -/
def modeIndex : Option OpaqueMode → ℕ
  | none => 0
  | some .groupSealed => 1
  | some .callerEncrypted => 2

theorem modeIndex_inj : Function.Injective modeIndex := by
  rintro (_ | _ | _) (_ | _ | _) <;> simp [modeIndex]

/-- The derived order: the sequence decides, then the nonce, then the mode. -/
def key (v : RegisterValue) : ℕ ×ₗ ℕ ×ₗ ℕ :=
  toLex (v.sequence, toLex (v.nonce.toNat, modeIndex v.mode))

theorem key_inj : Function.Injective key := by
  rintro ⟨sequence, nonce, mode⟩ ⟨sequence', nonce', mode'⟩ h
  simp only [key, EmbeddingLike.apply_eq_iff_eq, Prod.mk.injEq] at h
  obtain ⟨hsequence, hnonce, hmode⟩ := h
  rw [hsequence, BitVec.eq_of_toNat_eq hnonce, modeIndex_inj hmode]

instance : LinearOrder RegisterValue := LinearOrder.lift' key key_inj

theorem le_iff {v w : RegisterValue} : v ≤ w ↔ key v ≤ key w := Iff.rfl

theorem sequence_le {v w : RegisterValue} (h : v ≤ w) : v.sequence ≤ w.sequence := by
  rcases Prod.Lex.toLex_le_toLex.1 (le_iff.1 h) with hlt | ⟨heq, _⟩
  · exact hlt.le
  · exact heq.le

theorem lt_of_sequence_lt {v w : RegisterValue} (h : v.sequence < w.sequence) : v < w := by
  by_contra hnot
  exact absurd (sequence_le (not_lt.1 hnot)) (not_le.2 h)

/-- `encode`. -/
def encode (v : RegisterValue) : Bytes :=
  BigEndian.toBytes 8 v.sequence ++ BigEndian.toBytes 16 v.nonce.toNat ++
    [UInt8.ofNat (modeIndex v.mode)]

/-- The mode a byte stands for. -/
def modeOfByte (byte : UInt8) : Option (Option OpaqueMode) :=
  if byte = 0 then some none
  else if byte = 1 then some (some .groupSealed)
  else if byte = 2 then some (some .callerEncrypted)
  else none

/-- `decode`. -/
def decode (bytes : Bytes) : Option RegisterValue := do
  guard (bytes.length = 25)
  let sequence := BigEndian.ofBytes (bytes.take 8)
  let nonce := BitVec.ofNat 128 (BigEndian.ofBytes ((bytes.drop 8).take 16))
  let mode ← modeOfByte (bytes.getD 24 0)
  return ⟨sequence, nonce, mode⟩

theorem modeOfByte_eq_some {byte : UInt8} {mode : Option OpaqueMode} :
    modeOfByte byte = some mode ↔ UInt8.ofNat (modeIndex mode) = byte := by
  unfold modeOfByte
  rcases mode with _ | _ | _ <;> simp only [modeIndex]
  all_goals
    constructor
    · intro h
      split_ifs at h <;> simp_all
    · rintro rfl
      decide

/-- `decode` accepts exactly the encodings of register values, and answers the value encoded. -/
theorem decode_eq_some {bytes : Bytes} {v : RegisterValue} :
    decode bytes = some v ↔ v.sequence < 2 ^ 64 ∧ v.encode = bytes := by
  have hpow : (256 : ℕ) ^ 8 = 2 ^ 64 := by decide
  have hpow' : (256 : ℕ) ^ 16 = 2 ^ 128 := by decide
  simp only [decode, Option.bind_eq_bind, Option.bind_eq_some_iff, Option.guard_eq_some',
    modeOfByte_eq_some]
  constructor
  · rintro ⟨_, hlength, mode, hmode, heq⟩
    cases heq
    have hsequence : (bytes.take 8).length = 8 := by simp [hlength]
    have hnonce : ((bytes.drop 8).take 16).length = 16 := by simp [hlength]
    have hlt := BigEndian.ofBytes_lt (bytes.take 8)
    have hlt' := BigEndian.ofBytes_lt ((bytes.drop 8).take 16)
    rw [hsequence, hpow] at hlt
    rw [hnonce, hpow'] at hlt'
    refine ⟨hlt, ?_⟩
    have hhigh := BigEndian.toBytes_ofBytes (bytes.take 8)
    have hlow := BigEndian.toBytes_ofBytes ((bytes.drop 8).take 16)
    rw [hsequence] at hhigh
    rw [hnonce] at hlow
    have hlast : [bytes.getD 24 0] = bytes.drop 24 := by
      rw [List.drop_eq_getElem_cons (by omega : 24 < bytes.length),
        List.drop_eq_nil_of_le (by omega)]
      simp [List.getD_eq_getElem?_getD, hlength]
    -- the three parts are the bytes in their order
    rw [encode, hhigh, BitVec.toNat_ofNat, Nat.mod_eq_of_lt hlt', hlow, hmode, hlast,
      List.append_assoc, ← List.drop_drop (i := 16) (j := 8), List.take_append_drop,
      List.take_append_drop]
  · rintro ⟨hlt, rfl⟩
    have hread : BigEndian.ofBytes (BigEndian.toBytes 8 v.sequence) = v.sequence :=
      BigEndian.ofBytes_toBytes_of_lt (by rwa [hpow])
    have hread' : BigEndian.ofBytes (BigEndian.toBytes 16 v.nonce.toNat) = v.nonce.toNat :=
      BigEndian.ofBytes_toBytes_of_lt (by rw [hpow']; exact v.nonce.isLt)
    refine ⟨(), by simp [encode], v.mode, ?_, ?_⟩
    · simp [encode]
    · simp [encode, hread, hread']

end RegisterValue

/-! ## Tree ids -/

namespace Opaque

theorem isOpaqueTree_treeId (slot : SlotHash) (nonce : OpaqueNonce) :
    isOpaqueTree (treeId slot nonce) := by
  have htag : (treeId slot nonce).extractLsb' 224 32 = prefixTag := by
    ext i hi
    have hhigh : ¬ 224 + i < 128 := by omega
    have hmid : ¬ 224 + i - 128 < 96 := by omega
    have hsub : 224 + i - 128 - 96 = i := by omega
    rw [BitVec.getElem_extractLsb', treeId, BitVec.getLsbD_append, BitVec.getLsbD_append]
    simp [hhigh, hmid, hsub, BitVec.getLsbD_eq_getElem hi]
  simp [isOpaqueTree, htag]

theorem slot_treeId (slot : SlotHash) (nonce : OpaqueNonce) :
    (treeId slot nonce).extractLsb' 128 96 = slot := by
  ext i hi
  have hhigh : ¬ 128 + i < 128 := by omega
  have hsub : 128 + i - 128 = i := by omega
  rw [BitVec.getElem_extractLsb', treeId, BitVec.getLsbD_append, BitVec.getLsbD_append]
  simp [hhigh, hsub, hi]

theorem nonce_treeId (slot : SlotHash) (nonce : OpaqueNonce) :
    (treeId slot nonce).extractLsb' 0 128 = nonce := by
  ext i hi
  have hlow : i < 128 := hi
  rw [BitVec.getElem_extractLsb', treeId, BitVec.getLsbD_append]
  simp [hlow]

@[simp]
theorem treeSlot_treeId (slot : SlotHash) (nonce : OpaqueNonce) :
    treeSlot (treeId slot nonce) = some slot := by
  rw [treeSlot, if_pos (isOpaqueTree_treeId slot nonce), slot_treeId]

theorem treeId_inj {slot : SlotHash} {nonce nonce' : OpaqueNonce}
    (h : treeId slot nonce = treeId slot nonce') : nonce = nonce' := by
  rw [← nonce_treeId slot nonce, h, nonce_treeId]

/-- A slot's tree is current when the slot's value names its nonce and is not a tombstone. -/
theorem status_treeId {lifecycle : LifecycleState} {slot : SlotHash} {nonce : OpaqueNonce} :
    status lifecycle (treeId slot nonce) = some true ↔
      ∃ v, lifecycle.registers[slot]? = some v ∧ v.mode.isSome ∧ v.nonce = nonce := by
  simp only [status, treeSlot_treeId, Option.bind_eq_bind, Option.bind_some,
    Option.bind_eq_some_iff]
  constructor
  · rintro ⟨v, hv, hcurrent⟩
    simp only [Option.pure_def, Option.some_inj, Bool.and_eq_true, beq_iff_eq] at hcurrent
    exact ⟨v, hv, hcurrent.1, treeId_inj hcurrent.2⟩
  · rintro ⟨v, hv, hmode, rfl⟩
    exact ⟨v, hv, by simp [hmode]⟩

end Opaque

/-! ## The documents of a group -/

/-- What an engine mixes into its nonces: the seed of its device and the entropy of its start. -/
structure NonceOrigin where
  entropy : Bytes32
  seed : Bytes32
  deriving DecidableEq

/-- One value of a slot's key, as a change carries it. -/
structure RegisterWrite where
  /-- The key, `opaque:` and the slot in hexadecimal. -/
  slot : SlotHash
  bytes : Bytes
  /-- The writes the author had merged. -/
  past : Finset ℕ
  -- what the nonce is the digest of
  input : Bytes
  deriving DecidableEq

/-- What a replica holds. -/
structure RegisterReplica where
  /-- The writes its document has merged. -/
  merged : Finset ℕ := ∅
  /-- `opaque_nonce`. -/
  opaqueNonce : ℕ := 0
  /-- The registers the engine shares with its storage. -/
  lifecycle : LifecycleState := {}

/-- The writes ever made, each named by its place, and the replicas. -/
structure RegisterGroup (R : Type) where
  writes : List RegisterWrite := []
  replicas : R → RegisterReplica := fun _ => {}

namespace RegisterGroup

section Machine

set_option linter.unusedSectionVars false

variable {R : Type} [DecidableEq R]

/-- The merged writes of one slot. -/
def ofSlot (writes : List RegisterWrite) (merged : Finset ℕ) (slot : SlotHash) : Finset ℕ :=
  merged.filter fun i => (writes[i]?.map (·.slot)) = some slot

/-- Whether write `i` hides write `j` of its key: its author had merged it. -/
def hides (writes : List RegisterWrite) (i j : ℕ) : Bool :=
  writes[i]?.any fun write => j ∈ write.past

/-- The values `get_all` shows of a slot's key, decoded. -/
def shown (writes : List RegisterWrite) (merged : Finset ℕ) (slot : SlotHash) :
    Finset RegisterValue :=
  (Register.visible (hides writes) (ofSlot writes merged slot)).biUnion fun i =>
    ((writes[i]?).bind fun write => RegisterValue.decode write.bytes).toFinset

/-- `opaque_registers`: the greatest value shown, for each slot that shows one. -/
def opaqueRegisters (writes : List RegisterWrite) (merged : Finset ℕ) :
    Std.ExtTreeMap SlotHash RegisterValue :=
  (writes.map (·.slot)).foldl (fun registers slot =>
    match Register.greatest (shown writes merged slot) with
    | some v => registers.insert slot v
    | none => registers) ∅

/-- The greatest value of the counters, `u64::MAX`. -/
def lastNonce : ℕ := 2 ^ 64 - 1

/-- What `next_opaque_nonce` takes the digest of. -/
def nonceInput (origin : NonceOrigin) (slot : String) (counter : ℕ) : Bytes :=
  utf8 "polyvisor:opaque-nonce:v1\x00" ++ BigEndian.toBytes 32 origin.entropy.toNat ++
    BigEndian.toBytes 32 origin.seed.toNat ++ utf8 slot ++ BigEndian.toBytes 8 counter

/-- `digest[..16]`. -/
def nonceOf (sha : Sha256) (input : Bytes) : OpaqueNonce :=
  (sha input).extractLsb' 128 128

/-- `slot_hash`. -/
def slotHash (sha : Sha256) (slot : String) : SlotHash :=
  (sha (utf8 "polyvisor:opaque-slot:v1\x00" ++ utf8 slot)).extractLsb' 160 96

/-- The replicas, with one of them replaced. -/
def setReplica (g : RegisterGroup R) (r : R) (replica : RegisterReplica) : RegisterGroup R :=
  { g with replicas := Function.update g.replicas r replica }

/-- `refresh_opaque_admission`, as far as the registers go. -/
def refresh (g : RegisterGroup R) (r : R) : RegisterGroup R :=
  let replica := g.replicas r
  g.setReplica r { replica with
    lifecycle := { replica.lifecycle with
      registers := opaqueRegisters g.writes replica.merged } }

/-- The sequence of the next write of a slot: above the one observed, `none` when it was the
last. -/
def nextSequence (observed : Option RegisterValue) : Option ℕ :=
  match observed with
  | none => some 1
  | some v => if v.sequence + 1 < 2 ^ 64 then some (v.sequence + 1) else none

/-- `opaque_replace` with a mode, `opaque_disable` without. The nonce is drawn first, and stays
drawn when the sequence is exhausted. -/
def setOpaqueRegister (sha : Sha256) (origin : R → NonceOrigin) (g : RegisterGroup R) (r : R)
    (slot : String) (mode : Option OpaqueMode) : RegisterGroup R :=
  let replica := g.replicas r
  let counter := min (replica.opaqueNonce + 1) lastNonce
  let input := nonceInput (origin r) slot counter
  let key := slotHash sha slot
  let g := g.setReplica r { replica with opaqueNonce := counter }
  match nextSequence (opaqueRegisters g.writes replica.merged)[key]? with
  | none => g
  | some sequence =>
    let value : RegisterValue := ⟨sequence, nonceOf sha input, mode⟩
    let write : RegisterWrite := ⟨key, value.encode, replica.merged, input⟩
    let g := { g with writes := g.writes ++ [write] }
    (g.setReplica r { g.replicas r with
      merged := insert (g.writes.length - 1) replica.merged }).refresh r

/-- A replica merges a write all of whose past it has merged. -/
def merge (g : RegisterGroup R) (r : R) (i : ℕ) : RegisterGroup R :=
  match g.writes[i]? with
  | none => g
  | some write =>
    let replica := g.replicas r
    if write.past ⊆ replica.merged then
      (g.setReplica r { replica with merged := insert i replica.merged }).refresh r
    else g

/-- What can happen next. -/
inductive Label (R : Type) where
  | replace (r : R) (slot : String) (mode : OpaqueMode)
  | disable (r : R) (slot : String)
  | merge (r : R) (i : ℕ)
  deriving DecidableEq

/-- One step. -/
def step (sha : Sha256) (origin : R → NonceOrigin) (g : RegisterGroup R) :
    Label R → RegisterGroup R
  | .replace r slot mode => g.setOpaqueRegister sha origin r slot (some mode)
  | .disable r slot => g.setOpaqueRegister sha origin r slot none
  | .merge r i => g.merge r i

/-! ## What a document shows -/

/-- The value of a write. -/
def valueAt (writes : List RegisterWrite) (i : ℕ) : RegisterValue :=
  ((writes[i]?).bind fun write => RegisterValue.decode write.bytes).getD ⟨0, 0, none⟩

theorem mem_ofSlot {writes : List RegisterWrite} {merged : Finset ℕ} {slot : SlotHash} {i : ℕ} :
    i ∈ ofSlot writes merged slot ↔
      i ∈ merged ∧ ∃ write, writes[i]? = some write ∧ write.slot = slot := by
  simp [ofSlot]

/-- The registers of a document are its winners. -/
theorem getElem?_opaqueRegisters (writes : List RegisterWrite) (merged : Finset ℕ)
    (slot : SlotHash) : (opaqueRegisters writes merged)[slot]? =
      Register.greatest (shown writes merged slot) := by
  have hfold (slots : List SlotHash) (registers : Std.ExtTreeMap SlotHash RegisterValue) :
      (slots.foldl (fun registers slot =>
        match Register.greatest (shown writes merged slot) with
        | some v => registers.insert slot v
        | none => registers) registers)[slot]? =
      if slot ∈ slots then (Register.greatest (shown writes merged slot)).or registers[slot]?
      else registers[slot]? := by
    induction slots generalizing registers with
    | nil => simp
    | cons slot' slots ih =>
      rw [List.foldl_cons, ih]
      by_cases hslot : slot' = slot
      · subst hslot
        cases hgreatest : Register.greatest (shown writes merged slot') <;> simp
      · cases Register.greatest (shown writes merged slot') <;>
          simp [Std.ExtTreeMap.getElem?_insert, hslot, Ne.symm hslot]
  rw [opaqueRegisters, hfold]
  split
  · simp
  next hslot =>
    -- no write of the slot was ever made
    have hempty : ofSlot writes merged slot = ∅ := by
      refine Finset.eq_empty_of_forall_notMem fun i hi => hslot ?_
      obtain ⟨_, write, hwrite, rfl⟩ := mem_ofSlot.1 hi
      exact List.mem_map_of_mem (List.mem_of_getElem? hwrite)
    have hshown : shown writes merged slot = ∅ := by simp [shown, hempty, Register.visible]
    simp [Register.greatest_eq_none.2 hshown]

/-- Writes made later change nothing of what a document shows. -/
theorem shown_append {writes : List RegisterWrite} {merged : Finset ℕ}
    (hmerged : ∀ i ∈ merged, i < writes.length) (more : List RegisterWrite) (slot : SlotHash) :
    shown (writes ++ more) merged slot = shown writes merged slot := by
  have hget (i : ℕ) (hi : i ∈ merged) : (writes ++ more)[i]? = writes[i]? :=
    List.getElem?_append_left (hmerged i hi)
  have hslot : ofSlot (writes ++ more) merged slot = ofSlot writes merged slot :=
    Finset.filter_congr fun i hi => by rw [hget i hi]
  have hvisible : Register.visible (hides (writes ++ more)) (ofSlot writes merged slot) =
      Register.visible (hides writes) (ofSlot writes merged slot) :=
    Finset.filter_congr fun i _ => forall₂_congr fun j hj => by
      rw [hides, hides, hget j (mem_ofSlot.1 hj).1]
  rw [shown, shown, hslot, hvisible]
  refine Finset.biUnion_congr rfl fun i hi => ?_
  rw [hget i (mem_ofSlot.1 (Finset.mem_filter.1 hi).1).1]

/-! ## The invariant -/

/-- What holds of the writes ever made: each is an encoding, its past was made before it, and its
sequence is above that of everything of its slot in its past. -/
structure WritesInv (sha : Sha256) (writes : List RegisterWrite) : Prop where
  decodes : ∀ (i : ℕ) (write : RegisterWrite), writes[i]? = some write →
    ∃ v, RegisterValue.decode write.bytes = some v ∧ v.nonce = nonceOf sha write.input
  past_lt : ∀ (i : ℕ) (write : RegisterWrite), writes[i]? = some write → ∀ j ∈ write.past, j < i
  rising : ∀ (i j : ℕ) (write write' : RegisterWrite), writes[i]? = some write →
    writes[j]? = some write' → j ∈ write.past → write'.slot = write.slot →
    (valueAt writes j).sequence < (valueAt writes i).sequence

theorem WritesInv.decode_eq {sha : Sha256} {writes : List RegisterWrite} (h : WritesInv sha writes)
    {i : ℕ} {write : RegisterWrite} (hwrite : writes[i]? = some write) :
    RegisterValue.decode write.bytes = some (valueAt writes i) := by
  obtain ⟨v, hv, _⟩ := h.decodes i write hwrite
  simp [valueAt, hwrite, hv]

/-- What a document shows of a slot are the values of the writes no merged write hides. -/
theorem WritesInv.shown_eq {sha : Sha256} {writes : List RegisterWrite} (h : WritesInv sha writes)
    (merged : Finset ℕ) (slot : SlotHash) : shown writes merged slot =
      (Register.visible (hides writes) (ofSlot writes merged slot)).image (valueAt writes) := by
  ext v
  simp only [shown, Finset.mem_biUnion, Finset.mem_image, Option.mem_toFinset]
  refine exists_congr fun i => and_congr_right fun hi => ?_
  obtain ⟨_, write, hwrite, _⟩ := mem_ofSlot.1 (Finset.mem_filter.1 hi).1
  simp [hwrite, h.decode_eq hwrite]

theorem WritesInv.rising_ofSlot {sha : Sha256} {writes : List RegisterWrite}
    (h : WritesInv sha writes) (merged : Finset ℕ) (slot : SlotHash) :
    Register.Rising (valueAt writes) (hides writes) (ofSlot writes merged slot) := by
  intro i hi j hj hhides
  obtain ⟨_, write, hwrite, hslot⟩ := mem_ofSlot.1 hi
  obtain ⟨_, write', hwrite', hslot'⟩ := mem_ofSlot.1 hj
  have hpast : j ∈ write.past := by simpa [hides, hwrite] using hhides
  exact RegisterValue.lt_of_sequence_lt
    (h.rising i j write write' hwrite hwrite' hpast (hslot'.trans hslot.symm))

/-- The register of a slot is the greatest value merged. -/
theorem WritesInv.register_eq_some {sha : Sha256} {writes : List RegisterWrite}
    (h : WritesInv sha writes) {merged : Finset ℕ} {slot : SlotHash} {v : RegisterValue} :
    Register.greatest (shown writes merged slot) = some v ↔
      (∃ i ∈ ofSlot writes merged slot, valueAt writes i = v) ∧
        ∀ i ∈ ofSlot writes merged slot, valueAt writes i ≤ v := by
  rw [h.shown_eq]
  have hwinner := Register.winner_eq_some (h.rising_ofSlot merged slot) (v := v)
  unfold Register.winner at hwinner
  convert hwinner

/-- A slot with a merged write has a register, at least that write. -/
theorem WritesInv.exists_register {sha : Sha256} {writes : List RegisterWrite}
    (h : WritesInv sha writes) {merged : Finset ℕ} {slot : SlotHash} {i : ℕ}
    (hi : i ∈ ofSlot writes merged slot) : ∃ v,
      Register.greatest (shown writes merged slot) = some v ∧ valueAt writes i ≤ v := by
  rw [h.shown_eq]
  have hwinner := Register.exists_winner (h.rising_ofSlot merged slot) hi
  unfold Register.winner at hwinner
  convert hwinner

/-- What holds in every state. -/
structure Inv (sha : Sha256) (g : RegisterGroup R) : Prop where
  writes : WritesInv sha g.writes
  merged_lt : ∀ r, ∀ i ∈ (g.replicas r).merged, i < g.writes.length
  refreshed : ∀ r slot, (g.replicas r).lifecycle.registers[slot]? =
    Register.greatest (shown g.writes (g.replicas r).merged slot)

theorem inv_empty (sha : Sha256) : Inv sha ({} : RegisterGroup R) where
  writes := ⟨by simp, by simp, by simp⟩
  merged_lt := by simp
  refreshed r slot := by
    have hshown : shown [] ∅ slot = ∅ := by simp [shown, ofSlot, Register.visible]
    simp [hshown, Register.greatest_eq_none.2]

/-! ## One step -/

variable {sha : Sha256} {origin : R → NonceOrigin} {g : RegisterGroup R} {r : R} {slot : String}
  {mode : Option OpaqueMode}

/-- What replica `r` writes next: its nonce counter, and the write unless the sequence is
exhausted. -/
def nextCounter (g : RegisterGroup R) (r : R) : ℕ :=
  min ((g.replicas r).opaqueNonce + 1) lastNonce

/-- The value replica `r` writes to a slot under a sequence. -/
def nextValue (sha : Sha256) (origin : R → NonceOrigin) (g : RegisterGroup R) (r : R)
    (slot : String) (mode : Option OpaqueMode) (sequence : ℕ) : RegisterValue :=
  ⟨sequence, nonceOf sha (nonceInput (origin r) slot (g.nextCounter r)), mode⟩

/-- The write that carries it. -/
def nextWrite (sha : Sha256) (origin : R → NonceOrigin) (g : RegisterGroup R) (r : R)
    (slot : String) (mode : Option OpaqueMode) (sequence : ℕ) : RegisterWrite :=
  ⟨slotHash sha slot, (g.nextValue sha origin r slot mode sequence).encode, (g.replicas r).merged,
    nonceInput (origin r) slot (g.nextCounter r)⟩

/-- What a step does to a group: nothing but draw a nonce, or write, or merge. Only the replica
it belongs to moves. -/
inductive Moves (sha : Sha256) (origin : R → NonceOrigin) (g : RegisterGroup R) (r : R) :
    RegisterGroup R → Prop where
  /-- The sequence was exhausted, or nothing was there to merge. -/
  | idle {g'} (writes : g'.writes = g.writes)
      (merged : (g'.replicas r).merged = (g.replicas r).merged)
      (lifecycle : (g'.replicas r).lifecycle = (g.replicas r).lifecycle)
      (counter : (g'.replicas r).opaqueNonce = (g.replicas r).opaqueNonce ∨
        (g'.replicas r).opaqueNonce = g.nextCounter r) : Moves sha origin g r g'
  | wrote {g'} (slot : String) (mode : Option OpaqueMode) (sequence : ℕ)
      (next : nextSequence
        (opaqueRegisters g.writes (g.replicas r).merged)[slotHash sha slot]? = some sequence)
      (writes : g'.writes = g.writes ++ [g.nextWrite sha origin r slot mode sequence])
      (merged : (g'.replicas r).merged = insert g.writes.length (g.replicas r).merged)
      (refreshed : (g'.replicas r).lifecycle.registers =
        opaqueRegisters g'.writes (g'.replicas r).merged)
      (counter : (g'.replicas r).opaqueNonce = g.nextCounter r) : Moves sha origin g r g'
  | merged {g'} (i : ℕ) (write : RegisterWrite) (mem : g.writes[i]? = some write)
      (past : write.past ⊆ (g.replicas r).merged) (writes : g'.writes = g.writes)
      (merged : (g'.replicas r).merged = insert i (g.replicas r).merged)
      (refreshed : (g'.replicas r).lifecycle.registers =
        opaqueRegisters g'.writes (g'.replicas r).merged)
      (counter : (g'.replicas r).opaqueNonce = (g.replicas r).opaqueNonce) :
      Moves sha origin g r g'

/-- An exhausted sequence costs a nonce and nothing else. -/
theorem setOpaqueRegister_of_none (h : nextSequence
    (opaqueRegisters g.writes (g.replicas r).merged)[slotHash sha slot]? = none) :
    g.setOpaqueRegister sha origin r slot mode =
      g.setReplica r { g.replicas r with opaqueNonce := g.nextCounter r } := by
  simp only [setOpaqueRegister]
  rw [show (g.setReplica r _).writes = g.writes from rfl, h]
  rfl

variable (origin mode) in
/-- A write is appended, merged by its author and read back at once. -/
theorem setOpaqueRegister_of_some {sequence : ℕ} (h : nextSequence
    (opaqueRegisters g.writes (g.replicas r).merged)[slotHash sha slot]? = some sequence) :
    let g' := g.setOpaqueRegister sha origin r slot mode
    g'.writes = g.writes ++ [g.nextWrite sha origin r slot mode sequence] ∧
      (g'.replicas r).merged = insert g.writes.length (g.replicas r).merged ∧
      (g'.replicas r).lifecycle.registers = opaqueRegisters g'.writes (g'.replicas r).merged := by
  simp only [setOpaqueRegister]
  rw [show (g.setReplica r _).writes = g.writes from rfl, h]
  simp [refresh, setReplica, nextWrite, nextValue, nextCounter]

@[simp]
theorem opaqueNonce_setOpaqueRegister :
    ((g.setOpaqueRegister sha origin r slot mode).replicas r).opaqueNonce = g.nextCounter r := by
  simp only [setOpaqueRegister]
  split <;> simp [refresh, setReplica, nextCounter]

theorem moves_setOpaqueRegister :
    Moves sha origin g r (g.setOpaqueRegister sha origin r slot mode) := by
  cases hnext : nextSequence
      (opaqueRegisters g.writes (g.replicas r).merged)[slotHash sha slot]? with
  | none =>
    rw [setOpaqueRegister_of_none hnext]
    exact .idle rfl (by simp [setReplica]) (by simp [setReplica]) (.inr (by simp [setReplica]))
  | some sequence =>
    obtain ⟨hwrites, hmerged, hrefreshed⟩ :=
      setOpaqueRegister_of_some origin mode hnext
    exact .wrote slot mode sequence hnext hwrites hmerged hrefreshed opaqueNonce_setOpaqueRegister

theorem moves_merge (i : ℕ) : Moves sha origin g r (g.merge r i) := by
  simp only [merge]
  split
  · exact .idle rfl rfl rfl (.inl rfl)
  next write hwrite =>
    split
    next hpast =>
      exact .merged i write hwrite hpast rfl (by simp [refresh, setReplica])
        (by simp [refresh, setReplica]) (by simp [refresh, setReplica])
    next => exact .idle rfl rfl rfl (.inl rfl)

/-- The replica a step belongs to. -/
def Label.replica : Label R → R
  | .replace r _ _ => r
  | .disable r _ => r
  | .merge r _ => r

theorem moves_step (l : Label R) : Moves sha origin g l.replica (g.step sha origin l) := by
  cases l with
  | replace r slot mode => exact moves_setOpaqueRegister
  | disable r slot => exact moves_setOpaqueRegister
  | merge r i => exact moves_merge i

theorem replicas_setOpaqueRegister_of_ne {r' : R} (h : r' ≠ r) :
    (g.setOpaqueRegister sha origin r slot mode).replicas r' = g.replicas r' := by
  simp only [setOpaqueRegister]
  split <;> simp [refresh, setReplica, h]

/-- The other replicas stay as they are. -/
theorem replicas_step_of_ne (l : Label R) {r' : R} (h : r' ≠ l.replica) :
    (g.step sha origin l).replicas r' = g.replicas r' := by
  cases l with
  | replace r slot mode => exact replicas_setOpaqueRegister_of_ne h
  | disable r slot => exact replicas_setOpaqueRegister_of_ne h
  | merge r i =>
    have h : r' ≠ r := h
    simp only [step, merge]
    split
    · rfl
    · split <;> simp [refresh, setReplica, h]

theorem nextSequence_eq_some {observed : Option RegisterValue} {sequence : ℕ}
    (h : nextSequence observed = some sequence) :
    sequence < 2 ^ 64 ∧ ∀ v, observed = some v → sequence = v.sequence + 1 := by
  cases observed with
  | none =>
    simp only [nextSequence, Option.some_inj] at h
    subst h
    exact ⟨by decide, by simp⟩
  | some v =>
    simp only [nextSequence] at h
    split at h
    next hlt =>
      cases h
      exact ⟨hlt, fun v' hv' => by rw [Option.some_inj.1 hv']⟩
    next => cases h

theorem valueAt_append {writes : List RegisterWrite} {i : ℕ} (hi : i < writes.length)
    (more : List RegisterWrite) : valueAt (writes ++ more) i = valueAt writes i := by
  rw [valueAt, valueAt, List.getElem?_append_left hi]

theorem decode_nextWrite {sequence : ℕ} (h : sequence < 2 ^ 64) :
    RegisterValue.decode (g.nextWrite sha origin r slot mode sequence).bytes =
      some (g.nextValue sha origin r slot mode sequence) :=
  RegisterValue.decode_eq_some.2 ⟨h, rfl⟩

theorem valueAt_nextWrite {sequence : ℕ} (h : sequence < 2 ^ 64) :
    valueAt (g.writes ++ [g.nextWrite sha origin r slot mode sequence]) g.writes.length =
      g.nextValue sha origin r slot mode sequence := by
  simp [valueAt, decode_nextWrite h]

/-- An entry of a list with one more at its end is an old one or the new one. -/
theorem getElem?_snoc {α : Type} {xs : List α} {x y : α} {i : ℕ} (h : (xs ++ [x])[i]? = some y) :
    (i < xs.length ∧ xs[i]? = some y) ∨ (i = xs.length ∧ y = x) := by
  rcases Nat.lt_or_ge i xs.length with hi | hi
  · rw [List.getElem?_append_left hi] at h
    exact .inl ⟨hi, h⟩
  · rw [List.getElem?_append_right hi, List.getElem?_singleton] at h
    split at h
    next hzero => exact .inr ⟨by omega, (Option.some_inj.1 h).symm⟩
    next => cases h

variable (origin mode) in
/-- The write made next keeps what holds of all writes: its sequence is above the greatest
observed, hence above all that was merged. -/
theorem Inv.nextWrite (h : Inv sha g) {sequence : ℕ}
    (hnext : nextSequence (opaqueRegisters g.writes (g.replicas r).merged)[slotHash sha slot]? =
      some sequence) :
    WritesInv sha (g.writes ++ [g.nextWrite sha origin r slot mode sequence]) := by
  obtain ⟨hlt, habove⟩ := nextSequence_eq_some hnext
  have hmerged := h.merged_lt r
  refine ⟨fun i write hwrite => ?_, fun i write hwrite j hj => ?_,
    fun i j write write' hwrite hwrite' hj hslot => ?_⟩
  · rcases getElem?_snoc hwrite with ⟨_, hold⟩ | ⟨_, rfl⟩
    · exact h.writes.decodes i write hold
    · exact ⟨_, decode_nextWrite hlt, rfl⟩
  · rcases getElem?_snoc hwrite with ⟨_, hold⟩ | ⟨rfl, rfl⟩
    · exact h.writes.past_lt i write hold j hj
    · exact hmerged j hj
  · rcases getElem?_snoc hwrite with ⟨hi, hold⟩ | ⟨rfl, rfl⟩
    · have hlt' := h.writes.past_lt i write hold j hj
      rw [List.getElem?_append_left (hlt'.trans hi)] at hwrite'
      rw [valueAt_append hi, valueAt_append (hlt'.trans hi)]
      exact h.writes.rising i j write write' hold hwrite' hj hslot
    · have hlt' : j < g.writes.length := hmerged j hj
      rw [List.getElem?_append_left hlt'] at hwrite'
      rw [valueAt_nextWrite hlt, valueAt_append hlt']
      have hmem : j ∈ ofSlot g.writes (g.replicas r).merged (slotHash sha slot) :=
        mem_ofSlot.2 ⟨hj, write', hwrite', hslot⟩
      rw [getElem?_opaqueRegisters] at habove
      obtain ⟨v, hv, hle⟩ := h.writes.exists_register hmem
      have hle := RegisterValue.sequence_le hle
      show (valueAt g.writes j).sequence < sequence
      rw [habove v hv]
      omega

/-- A group that has written more, and whose replicas have merged more. -/
structure Extends (g g' : RegisterGroup R) : Prop where
  writes : ∃ more, g'.writes = g.writes ++ more
  merged : ∀ r, (g.replicas r).merged ⊆ (g'.replicas r).merged

theorem extends_refl (g : RegisterGroup R) : Extends g g :=
  ⟨⟨[], by simp⟩, fun _ => Finset.Subset.refl _⟩

theorem Extends.trans {g g' g'' : RegisterGroup R} (h : Extends g g') (h' : Extends g' g'') :
    Extends g g'' := by
  obtain ⟨more, hmore⟩ := h.writes
  obtain ⟨more', hmore'⟩ := h'.writes
  exact ⟨⟨more ++ more', by rw [hmore', hmore, List.append_assoc]⟩,
    fun r => (h.merged r).trans (h'.merged r)⟩

/-- What a step keeps. -/
theorem Inv.move (h : Inv sha g) {g' : RegisterGroup R} (hmoves : Moves sha origin g r g')
    (hothers : ∀ r' ≠ r, g'.replicas r' = g.replicas r') : Inv sha g' ∧ Extends g g' := by
  -- a replica that did not move shows what it showed, whatever was written elsewhere
  have hstill {r' : R} (more : List RegisterWrite) (hwrites : g'.writes = g.writes ++ more)
      (hmerged : (g'.replicas r').merged = (g.replicas r').merged)
      (hlifecycle : (g'.replicas r').lifecycle = (g.replicas r').lifecycle) (slot : SlotHash) :
      (g'.replicas r').lifecycle.registers[slot]? =
        Register.greatest (shown g'.writes (g'.replicas r').merged slot) := by
    rw [hlifecycle, hmerged, hwrites, shown_append (h.merged_lt r')]
    exact h.refreshed r' slot
  cases hmoves with
  | idle writes merged lifecycle counter =>
    have hsame (r' : R) : (g'.replicas r').merged = (g.replicas r').merged ∧
        (g'.replicas r').lifecycle = (g.replicas r').lifecycle := by
      by_cases hr : r' = r
      · subst hr
        exact ⟨merged, lifecycle⟩
      · simp [hothers r' hr]
    refine ⟨⟨writes ▸ h.writes, fun r' => ?_, fun r' => ?_⟩, ⟨⟨[], by simp [writes]⟩, fun r' => ?_⟩⟩
    · rw [(hsame r').1, writes]
      exact h.merged_lt r'
    · exact hstill [] (by simp [writes]) (hsame r').1 (hsame r').2
    · rw [(hsame r').1]
  | wrote slot mode sequence next writes merged refreshed counter =>
    refine ⟨⟨writes ▸ h.nextWrite origin mode next, fun r' i hi => ?_, fun r' slot => ?_⟩,
      ⟨⟨_, writes⟩, fun r' => ?_⟩⟩
    · rw [writes, List.length_append, List.length_singleton]
      by_cases hr : r' = r
      · subst hr
        rw [merged] at hi
        rcases Finset.mem_insert.1 hi with rfl | hi
        · omega
        · have := h.merged_lt r' i hi
          omega
      · rw [hothers r' hr] at hi
        have := h.merged_lt r' i hi
        omega
    · by_cases hr : r' = r
      · subst hr
        rw [refreshed, getElem?_opaqueRegisters]
      · exact hstill _ writes (by rw [hothers r' hr]) (by rw [hothers r' hr]) slot
    · by_cases hr : r' = r
      · subst hr
        rw [merged]
        exact Finset.subset_insert _ _
      · rw [hothers r' hr]
  | merged i write mem past writes merged refreshed counter =>
    refine ⟨⟨writes ▸ h.writes, fun r' j hj => ?_, fun r' slot => ?_⟩,
      ⟨⟨[], by simp [writes]⟩, fun r' => ?_⟩⟩
    · rw [writes]
      by_cases hr : r' = r
      · subst hr
        rw [merged] at hj
        rcases Finset.mem_insert.1 hj with rfl | hj
        · exact (List.getElem?_eq_some_iff.1 mem).1
        · exact h.merged_lt r' j hj
      · rw [hothers r' hr] at hj
        exact h.merged_lt r' j hj
    · by_cases hr : r' = r
      · subst hr
        rw [refreshed, getElem?_opaqueRegisters]
      · exact hstill [] (by simp [writes]) (by rw [hothers r' hr])
          (by rw [hothers r' hr]) slot
    · by_cases hr : r' = r
      · subst hr
        rw [merged]
        exact Finset.subset_insert _ _
      · rw [hothers r' hr]

variable (origin) in
theorem inv_step (h : Inv sha g) (l : Label R) :
    Inv sha (g.step sha origin l) ∧ Extends g (g.step sha origin l) :=
  h.move (moves_step l) fun _ hr => replicas_step_of_ne l hr

variable (origin) in
theorem inv_run (h : Inv sha g) (ls : List (Label R)) :
    Inv sha (Transition.run (step sha origin) g ls) ∧
      Extends g (Transition.run (step sha origin) g ls) := by
  induction ls generalizing g with
  | nil => exact ⟨h, extends_refl g⟩
  | cons l ls ih =>
    obtain ⟨hstep, hextends⟩ := inv_step origin h l
    obtain ⟨hrun, hextends'⟩ := ih hstep
    exact ⟨hrun, hextends.trans hextends'⟩

/-! ## Nonces -/

theorem nonceInput_inj {o o' : NonceOrigin} {slot slot' : String} {c c' : ℕ}
    (hc : c ≤ lastNonce) (hc' : c' ≤ lastNonce)
    (h : nonceInput o slot c = nonceInput o' slot' c') : o = o' ∧ slot = slot' ∧ c = c' := by
  have hfits {n : ℕ} (hn : n ≤ lastNonce) : n < 256 ^ 8 := by
    have hlast : lastNonce < 256 ^ 8 := by decide
    omega
  have hlength (x : Bytes32) : x.toNat < 256 ^ 32 := x.isLt
  simp only [nonceInput, List.append_assoc] at h
  have h := List.append_cancel_left h
  obtain ⟨hentropy, h⟩ := List.append_inj h (by simp)
  obtain ⟨hseed, h⟩ := List.append_inj h (by simp)
  -- the counter is the last eight bytes
  obtain ⟨hslot, hcounter⟩ := List.append_inj' h (by simp)
  have hentropy := BitVec.eq_of_toNat_eq (BigEndian.toBytes_inj (hlength _) (hlength _) hentropy)
  have hseed := BitVec.eq_of_toNat_eq (BigEndian.toBytes_inj (hlength _) (hlength _) hseed)
  obtain ⟨entropy, seed⟩ := o
  obtain ⟨entropy', seed'⟩ := o'
  exact ⟨by rw [NonceOrigin.mk.injEq]; exact ⟨hentropy, hseed⟩, utf8_injective hslot,
    BigEndian.toBytes_inj (hfits hc) (hfits hc') hcounter⟩

/-- No write was given the nonce of another: each has an input of its own, drawn by a replica
whose counter has not gone back since. -/
structure NonceInv (origin : R → NonceOrigin) (g : RegisterGroup R) : Prop where
  drawn : ∀ (i : ℕ) (write : RegisterWrite), g.writes[i]? = some write → ∃ r slot c,
    write.input = nonceInput (origin r) slot c ∧ c ≤ (g.replicas r).opaqueNonce
  counter : ∀ r, (g.replicas r).opaqueNonce ≤ lastNonce
  apart : ∀ (i j : ℕ) (write write' : RegisterWrite), g.writes[i]? = some write →
    g.writes[j]? = some write' → write.input = write'.input → i = j

theorem nonceInv_empty : NonceInv origin ({} : RegisterGroup R) :=
  ⟨by simp, by simp, by simp⟩

/-- The counter a local write draws from has not run out. -/
def Unsaturated (g : RegisterGroup R) : Label R → Prop
  | .replace r _ _ => (g.replicas r).opaqueNonce < lastNonce
  | .disable r _ => (g.replicas r).opaqueNonce < lastNonce
  | .merge _ _ => True

theorem nonceInv_setOpaqueRegister (horigin : Function.Injective origin) (h : NonceInv origin g)
    (hcounter : (g.replicas r).opaqueNonce < lastNonce) :
    NonceInv origin (g.setOpaqueRegister sha origin r slot mode) := by
  have hnext : g.nextCounter r = (g.replicas r).opaqueNonce + 1 := by
    unfold nextCounter
    omega
  have hmoves : Moves sha origin g r (g.setOpaqueRegister sha origin r slot mode) :=
    moves_setOpaqueRegister
  have hothers {r' : R} (hr : r' ≠ r) :
      (g.setOpaqueRegister sha origin r slot mode).replicas r' = g.replicas r' :=
    replicas_setOpaqueRegister_of_ne hr
  generalize g.setOpaqueRegister sha origin r slot mode = g' at hmoves hothers
  have hmoved : (g.replicas r).opaqueNonce ≤ (g'.replicas r).opaqueNonce ∧
      (g'.replicas r).opaqueNonce ≤ lastNonce := by
    cases hmoves with
    | idle _ _ _ counter => rcases counter with counter | counter <;> omega
    | wrote _ _ _ _ _ _ _ counter => omega
    | merged _ _ _ _ _ _ _ counter => omega
  have hmono (r' : R) : (g.replicas r').opaqueNonce ≤ (g'.replicas r').opaqueNonce ∧
      (g'.replicas r').opaqueNonce ≤ lastNonce := by
    by_cases hr : r' = r
    · rwa [hr]
    · rw [hothers hr]
      exact ⟨le_rfl, h.counter r'⟩
  have hkept {i : ℕ} {write : RegisterWrite} (hwrite : g.writes[i]? = some write) :
      ∃ r slot c, write.input = nonceInput (origin r) slot c ∧
        c ≤ (g'.replicas r).opaqueNonce := by
    obtain ⟨r', slot, c, hinput, hc⟩ := h.drawn i write hwrite
    exact ⟨r', slot, c, hinput, hc.trans (hmono r').1⟩
  cases hmoves with
  | idle writes merged lifecycle counter =>
    exact ⟨fun i write hwrite => hkept (writes ▸ hwrite), fun r' => (hmono r').2, writes ▸ h.apart⟩
  | merged i write mem past writes merged refreshed counter =>
    exact ⟨fun i write hwrite => hkept (writes ▸ hwrite), fun r' => (hmono r').2, writes ▸ h.apart⟩
  | wrote slot mode sequence next writes merged refreshed counter =>
    have hget {i : ℕ} {write : RegisterWrite} (hwrite : g'.writes[i]? = some write) :
        g.writes[i]? = some write ∨ (i = g.writes.length ∧
          write.input = nonceInput (origin r) slot ((g.replicas r).opaqueNonce + 1)) := by
      rw [writes] at hwrite
      rcases getElem?_snoc hwrite with ⟨_, hold⟩ | ⟨hi, rfl⟩
      · exact .inl hold
      · exact .inr ⟨hi, by rw [nextWrite, hnext]⟩
    -- the counter just drawn is above all drawn by this replica before
    have hfresh {i : ℕ} {write : RegisterWrite} (hwrite : g.writes[i]? = some write) :
        write.input ≠ nonceInput (origin r) slot ((g.replicas r).opaqueNonce + 1) := by
      intro heq
      obtain ⟨r', slot', c, hinput, hc⟩ := h.drawn i write hwrite
      obtain ⟨hr, _, hc'⟩ := nonceInput_inj (hc.trans (h.counter r')) hcounter
        (hinput.symm.trans heq)
      rw [horigin hr] at hc
      omega
    refine ⟨fun i write hwrite => ?_, fun r' => (hmono r').2,
      fun i j write write' hwrite hwrite' heq => ?_⟩
    · rcases hget hwrite with hold | ⟨_, hinput⟩
      · exact hkept hold
      · exact ⟨r, slot, _, hinput, by rw [counter, hnext]⟩
    · rcases hget hwrite with hold | ⟨hi, hinput⟩ <;> rcases hget hwrite' with hold' | ⟨hj, hinput'⟩
      · exact h.apart i j write write' hold hold' heq
      · exact (hfresh hold (heq.trans hinput')).elim
      · exact (hfresh hold' (heq.symm.trans hinput)).elim
      · rw [hi, hj]

theorem nonceInv_merge (h : NonceInv origin g) (i : ℕ) : NonceInv origin (g.merge r i) := by
  have hcounter (r' : R) : ((g.merge r i).replicas r').opaqueNonce =
      (g.replicas r').opaqueNonce := by
    simp only [merge]
    split
    · rfl
    split
    · by_cases hr : r' = r
      · subst hr
        simp [refresh, setReplica]
      · simp [refresh, setReplica, hr]
    · rfl
  have hwrites : (g.merge r i).writes = g.writes := by
    simp only [merge]
    split
    · rfl
    split <;> rfl
  refine ⟨fun j write hwrite => ?_, fun r' => ?_, ?_⟩
  · rw [hwrites] at hwrite
    obtain ⟨r', slot, c, hinput, hc⟩ := h.drawn j write hwrite
    exact ⟨r', slot, c, hinput, by rwa [hcounter r']⟩
  · rw [hcounter r']
    exact h.counter r'
  · rw [hwrites]
    exact h.apart

theorem nonceInv_step (horigin : Function.Injective origin) (l : Label R)
    (hl : Unsaturated g l) (h : NonceInv origin g) : NonceInv origin (g.step sha origin l) := by
  cases l with
  | replace r slot mode => exact nonceInv_setOpaqueRegister horigin h hl
  | disable r slot => exact nonceInv_setOpaqueRegister horigin h hl
  | merge r i => exact nonceInv_merge h i

/-! ## Convergence -/

variable {g' : RegisterGroup R}

/-- What a replica read before, read in the writes of a later group. -/
theorem registers_of_extends (h : Inv sha g) (hextends : Extends g g') (r : R) (slot : SlotHash) :
    (g.replicas r).lifecycle.registers[slot]? =
      Register.greatest (shown g'.writes (g.replicas r).merged slot) := by
  obtain ⟨more, hmore⟩ := hextends.writes
  rw [hmore, shown_append (h.merged_lt r)]
  exact h.refreshed r slot

theorem ofSlot_of_extends (h : Inv sha g) (hextends : Extends g g') (r : R) (slot : SlotHash) :
    ofSlot g'.writes (g.replicas r).merged slot = ofSlot g.writes (g.replicas r).merged slot := by
  obtain ⟨more, hmore⟩ := hextends.writes
  exact Finset.filter_congr fun i hi => by
    rw [hmore, List.getElem?_append_left (h.merged_lt r i hi)]

/-- The winner does not decrease. -/
theorem register_mono (h : Inv sha g) (h' : Inv sha g') (hextends : Extends g g') {r : R}
    {slot : SlotHash} {v : RegisterValue}
    (hv : (g.replicas r).lifecycle.registers[slot]? = some v) :
    ∃ v', (g'.replicas r).lifecycle.registers[slot]? = some v' ∧ v ≤ v' := by
  rw [registers_of_extends h hextends] at hv
  obtain ⟨⟨i, hi, rfl⟩, _⟩ := h'.writes.register_eq_some.1 hv
  obtain ⟨hmerged, hwrite⟩ := mem_ofSlot.1 hi
  rw [h'.refreshed]
  exact h'.writes.exists_register (mem_ofSlot.2 ⟨hextends.merged r hmerged, hwrite⟩)

/-- The replica has merged the write that made the tree. -/
def Made (g : RegisterGroup R) (r : R) (t : TreeId) : Prop :=
  ∃ i ∈ (g.replicas r).merged, ∃ write, g.writes[i]? = some write ∧
    t = Opaque.treeId write.slot (valueAt g.writes i).nonce

/-- The digest tells apart what the nonces of a run were drawn from. -/
def DigestApart (sha : Sha256) (g : RegisterGroup R) : Prop :=
  ∀ write ∈ g.writes, ∀ write' ∈ g.writes,
    nonceOf sha write.input = nonceOf sha write'.input → write.input = write'.input

/-- A replica that has left a tree does not come back to it. -/
theorem not_current_of_left (h : Inv sha g) (h' : Inv sha g') (hextends : Extends g g')
    (hnonces : NonceInv origin g') (hapart : DigestApart sha g') {r : R} {t : TreeId}
    (hmade : Made g r t) (hleft : Opaque.status (g.replicas r).lifecycle t ≠ some true) :
    Opaque.status (g'.replicas r).lifecycle t ≠ some true := by
  obtain ⟨i, hi, write, hwrite, rfl⟩ := hmade
  intro hback
  obtain ⟨v', hv', hmode, hnonce⟩ := Opaque.status_treeId.1 hback
  obtain ⟨more, hmore⟩ := hextends.writes
  have hlt := h.merged_lt r i hi
  have hwrite' : g'.writes[i]? = some write := by rw [hmore, List.getElem?_append_left hlt, hwrite]
  have hvalue : valueAt g'.writes i = valueAt g.writes i := by rw [hmore, valueAt_append hlt]
  -- the winner that came back is the write that made the tree, for no other has its nonce
  have hsame : v' = valueAt g.writes i := by
    rw [h'.refreshed] at hv'
    obtain ⟨⟨j, hj, rfl⟩, _⟩ := h'.writes.register_eq_some.1 hv'
    obtain ⟨_, writer, hwriter, _⟩ := mem_ofSlot.1 hj
    obtain ⟨vi, hvi, hni⟩ := h'.writes.decodes i write hwrite'
    obtain ⟨vj, hvj, hnj⟩ := h'.writes.decodes j writer hwriter
    rw [h'.writes.decode_eq hwrite', Option.some_inj] at hvi
    rw [h'.writes.decode_eq hwriter, Option.some_inj] at hvj
    have hinput := hapart writer (List.mem_of_getElem? hwriter) write (List.mem_of_getElem? hwrite')
      (by rw [← hnj, ← hni, ← hvj, ← hvi, hvalue, hnonce])
    rw [hnonces.apart j i writer write hwriter hwrite' hinput, hvalue]
  -- so the winner before, between the two, is the same value
  obtain ⟨v, hv, hle⟩ := h.writes.exists_register (mem_ofSlot.2 ⟨hi, write, hwrite, rfl⟩)
  rw [← h.refreshed] at hv
  obtain ⟨v'', hv'', hle'⟩ := register_mono h h' hextends hv
  rw [hv', Option.some_inj] at hv''
  subst hv''
  have heq : v = v' := le_antisymm hle' (hsame ▸ hle)
  exact hleft (Opaque.status_treeId.2 ⟨v', heq ▸ hv, hmode, by rw [hsame]⟩)

/-- In every run, wherever it is cut: what a replica reads of a slot is decided by the writes of the
slot it has merged; what it reads never decreases, and every write is above what its author had
merged of the slot; while the counters last and the digest tells the draws apart, a tree a replica
has left is not current there again; and `decode` inverts `encode` and accepts nothing else. -/
theorem register_converges (sha : Sha256) (origin : R → NonceOrigin) (ls ms : List (Label R)) :
    let g := Transition.run (step sha origin) {} ls
    let g' := Transition.run (step sha origin) {} (ls ++ ms)
    (∀ (r r' : R) (slot : SlotHash), ofSlot g.writes (g.replicas r).merged slot =
        ofSlot g'.writes (g'.replicas r').merged slot →
      (g.replicas r).lifecycle.registers[slot]? = (g'.replicas r').lifecycle.registers[slot]?) ∧
    (∀ (r : R) (slot : SlotHash) (v : RegisterValue),
      (g.replicas r).lifecycle.registers[slot]? = some v →
        ∃ v', (g'.replicas r).lifecycle.registers[slot]? = some v' ∧ v ≤ v') ∧
    (∀ (i j : ℕ) (write write' : RegisterWrite), g.writes[i]? = some write →
      g.writes[j]? = some write' →
      j ∈ write.past → write'.slot = write.slot →
      (valueAt g.writes j).sequence < (valueAt g.writes i).sequence) ∧
    (Function.Injective origin → Transition.Meets (step sha origin) Unsaturated {} (ls ++ ms) →
      DigestApart sha g' → ∀ (r : R) (t : TreeId), Made g r t →
      Opaque.status (g.replicas r).lifecycle t ≠ some true →
      Opaque.status (g'.replicas r).lifecycle t ≠ some true) ∧
    ∀ (bytes : Bytes) (v : RegisterValue),
      RegisterValue.decode bytes = some v ↔ v.sequence < 2 ^ 64 ∧ v.encode = bytes := by
  intro g g'
  have h : Inv sha g := (inv_run origin (inv_empty sha) ls).1
  have h' : Inv sha g' := (inv_run origin (inv_empty sha) (ls ++ ms)).1
  have hextends : Extends g g' := by
    have hrun := (inv_run origin h ms).2
    rwa [← Transition.run_append] at hrun
  refine ⟨fun r r' slot hsame => ?_, fun r slot v hv => register_mono h h' hextends hv,
    h.writes.rising, fun horigin hmeets hapart r t hmade hleft => ?_,
    fun bytes v => RegisterValue.decode_eq_some⟩
  · rw [registers_of_extends h hextends, h'.refreshed, shown, shown,
      ofSlot_of_extends h hextends, hsame]
  · have hnonces : NonceInv origin g' := Transition.run_preserves_of_meets
      (fun _ l hl => nonceInv_step horigin l hl) hmeets nonceInv_empty
    exact not_current_of_left h h' hextends hnonces hapart hmade hleft

/-! ## A counter that has run out -/

/-- A value just written is what its author reads of the slot. -/
theorem register_setOpaqueRegister (h : Inv sha g) {sequence : ℕ} (hnext : nextSequence
    (opaqueRegisters g.writes (g.replicas r).merged)[slotHash sha slot]? = some sequence) :
    ((g.setOpaqueRegister sha origin r slot mode).replicas r).lifecycle.registers[
      slotHash sha slot]? =
      some (g.nextValue sha origin r slot mode sequence) := by
  obtain ⟨hwrites, hmerged, hrefreshed⟩ :=
    setOpaqueRegister_of_some origin mode hnext
  obtain ⟨hlt, habove⟩ := nextSequence_eq_some hnext
  have hinv := h.nextWrite origin mode hnext
  rw [hrefreshed, getElem?_opaqueRegisters, hmerged, hwrites]
  refine hinv.register_eq_some.2 ⟨⟨g.writes.length, ?_, valueAt_nextWrite hlt⟩, fun i hi => ?_⟩
  · exact mem_ofSlot.2 ⟨Finset.mem_insert_self _ _, _, List.getElem?_concat_length, rfl⟩
  · obtain ⟨hi, write, hwrite, hslot⟩ := mem_ofSlot.1 hi
    rcases Finset.mem_insert.1 hi with rfl | hi
    · exact (valueAt_nextWrite hlt).le
    · have hlt' := h.merged_lt r i hi
      rw [List.getElem?_append_left hlt'] at hwrite
      rw [valueAt_append hlt']
      obtain ⟨v, hv, hle⟩ := h.writes.exists_register (mem_ofSlot.2 ⟨hi, write, hwrite, hslot⟩)
      rw [getElem?_opaqueRegisters] at habove
      refine (RegisterValue.lt_of_sequence_lt ?_).le
      have hsequence := RegisterValue.sequence_le hle
      have heq := habove v hv
      show (valueAt g.writes i).sequence < sequence
      omega

/-- A digest that answers its input's last part: the slot name of a short input, the counter of a
long one. -/
def tailSha : Sha256 := fun bytes =>
  if bytes.length < 72 then BitVec.ofNat 96 (BigEndian.ofBytes (bytes.drop 25)) ++ 0#160
  else BitVec.ofNat 128 (BigEndian.ofBytes (bytes.drop (bytes.length - 8))) ++ 0#128

theorem nonceOf_tailSha (o : NonceOrigin) (slot : String) {c : ℕ} (hc : c ≤ lastNonce) :
    nonceOf tailSha (nonceInput o slot c) = BitVec.ofNat 128 c := by
  have hlast : lastNonce < 256 ^ 8 := by decide
  have hlength : ¬ (nonceInput o slot c).length < 72 := by
    simp only [nonceInput, List.length_append, BigEndian.length_toBytes]
    omega
  have hdrop : (nonceInput o slot c).drop ((nonceInput o slot c).length - 8) =
      BigEndian.toBytes 8 c := List.drop_left' (by simp [nonceInput]; omega)
  rw [nonceOf, tailSha, if_neg hlength, hdrop, BigEndian.ofBytes_toBytes_of_lt (by omega)]
  ext i hi
  have hlow : ¬ 128 + i < 128 := by omega
  have hsub : 128 + i - 128 = i := by omega
  rw [BitVec.getElem_extractLsb', BitVec.getLsbD_append]
  simp [hlow, hsub, BitVec.getLsbD_eq_getElem hi]

/-- The origin of a lone replica. -/
def loneOrigin : Unit → NonceOrigin := fun _ => ⟨0, 0⟩

/-- The slot a counter is drawn for below: `b` once it has run out, `a` before. -/
def slotAt (c : ℕ) : String :=
  if c < lastNonce then "a" else "b"

/-- The counter stands at `n`, and every write drew a counter up to it for its slot. -/
structure DrawnFor (n : ℕ) (g : RegisterGroup Unit) : Prop where
  counter : (g.replicas ()).opaqueNonce = n
  writes : ∀ write ∈ g.writes, ∃ c ≤ n, write.input = nonceInput (loneOrigin ()) (slotAt c) c ∧
    write.slot = slotHash tailSha (slotAt c)

theorem DrawnFor.setOpaqueRegister {n c : ℕ} {g : RegisterGroup Unit} (h : DrawnFor n g)
    (hc : min (n + 1) lastNonce = c) (hle : n ≤ c) (mode : Option OpaqueMode) :
    DrawnFor c (g.setOpaqueRegister tailSha loneOrigin () (slotAt c) mode) := by
  have hnext : g.nextCounter () = c := by rw [nextCounter, h.counter, hc]
  have hkept : ∀ write ∈ g.writes, ∃ c' ≤ c,
      write.input = nonceInput (loneOrigin ()) (slotAt c') c' ∧
        write.slot = slotHash tailSha (slotAt c') := by
    intro write hwrite
    obtain ⟨c', hc', hinput⟩ := h.writes write hwrite
    exact ⟨c', hc'.trans hle, hinput⟩
  refine ⟨by rw [opaqueNonce_setOpaqueRegister, hnext], fun write hwrite => ?_⟩
  cases hsequence : nextSequence
      (opaqueRegisters g.writes (g.replicas ()).merged)[slotHash tailSha (slotAt c)]? with
  | none =>
    rw [setOpaqueRegister_of_none hsequence] at hwrite
    exact hkept write hwrite
  | some sequence =>
    rw [(setOpaqueRegister_of_some loneOrigin mode hsequence).1] at hwrite
    rcases List.mem_append.1 hwrite with hold | hnew
    · exact hkept write hold
    · rw [List.mem_singleton.1 hnew, nextWrite, hnext]
      exact ⟨c, le_rfl, rfl, rfl⟩

/-- The writes of slot `a` that use up the counter but for its last value. -/
def exhaust (n : ℕ) : List (Label Unit) :=
  List.replicate n (.replace () "a" .groupSealed)

theorem drawnFor_exhaust {n : ℕ} (hn : n < lastNonce) :
    DrawnFor n (Transition.run (step tailSha loneOrigin) {} (exhaust n)) := by
  induction n with
  | zero => exact ⟨rfl, by simp [exhaust]⟩
  | succ n ih =>
    have h := (ih (by omega)).setOpaqueRegister (min_eq_left hn.le) (by omega) (some .groupSealed)
    rw [slotAt, if_pos hn] at h
    rw [exhaust, List.replicate_succ', Transition.run_append]
    exact h

/-- The digest tells apart the draws of such a group. -/
theorem DrawnFor.digestApart {n : ℕ} {g : RegisterGroup Unit} (h : DrawnFor n g)
    (hn : n ≤ lastNonce) : DigestApart tailSha g := by
  intro write hwrite write' hwrite' heq
  have hlast : lastNonce < 2 ^ 128 := by decide
  obtain ⟨c, hc, hinput, _⟩ := h.writes write hwrite
  obtain ⟨c', hc', hinput', _⟩ := h.writes write' hwrite'
  rw [hinput, hinput', nonceOf_tailSha _ _ (hc.trans hn), nonceOf_tailSha _ _ (hc'.trans hn)] at heq
  have hcounter : c = c' := by
    have hnat := congrArg BitVec.toNat heq
    rw [BitVec.toNat_ofNat, BitVec.toNat_ofNat, Nat.mod_eq_of_lt (by omega),
      Nat.mod_eq_of_lt (by omega)] at hnat
    exact hnat
  rw [hinput, hinput', hcounter]

/-- The nonce of the last counter. -/
def lastTreeNonce : OpaqueNonce :=
  nonceOf tailSha (nonceInput (loneOrigin ()) "b" lastNonce)

/-- What a write of slot `b` by a counter that has run out leaves behind. -/
theorem write_exhausted {n : ℕ} (sequence : ℕ) {g : RegisterGroup Unit} (hinv : Inv tailSha g)
    (hdrawn : DrawnFor n g) (hn : n ≤ lastNonce) (hlast : min (n + 1) lastNonce = lastNonce)
    (hnext : nextSequence ((g.replicas ()).lifecycle.registers[slotHash tailSha "b"]?) =
      some sequence) (mode : Option OpaqueMode) :
    let g' := g.setOpaqueRegister tailSha loneOrigin () "b" mode
    Inv tailSha g' ∧ DrawnFor lastNonce g' ∧
      (g'.replicas ()).lifecycle.registers[slotHash tailSha "b"]? =
        some ⟨sequence, lastTreeNonce, mode⟩ ∧
      Made g' () (Opaque.treeId (slotHash tailSha "b") lastTreeNonce) := by
  have hslot : slotAt lastNonce = "b" := if_neg (lt_irrefl _)
  have hcounter : g.nextCounter () = lastNonce := by rw [nextCounter, hdrawn.counter, hlast]
  rw [hinv.refreshed, ← getElem?_opaqueRegisters] at hnext
  have hvalue : g.nextValue tailSha loneOrigin () "b" mode sequence =
      ⟨sequence, lastTreeNonce, mode⟩ := by rw [nextValue, hcounter, lastTreeNonce]
  have hdrawn' := hdrawn.setOpaqueRegister hlast hn mode
  rw [hslot] at hdrawn'
  refine ⟨(hinv.move moves_setOpaqueRegister fun _ h => replicas_setOpaqueRegister_of_ne h).1,
    hdrawn', hvalue ▸ register_setOpaqueRegister hinv hnext, ?_⟩
  obtain ⟨hwrites, hmerged, _⟩ :=
    setOpaqueRegister_of_some loneOrigin mode hnext
  refine ⟨g.writes.length, by simp [hmerged], g.nextWrite tailSha loneOrigin () "b" mode sequence,
    by simp [hwrites], ?_⟩
  rw [hwrites, valueAt_nextWrite (nextSequence_eq_some hnext).1, hvalue]
  rfl

/-- A run after which the counter stands one short of its last value and slot `b` has no write. -/
theorem exists_exhausted : ∃ ls : List (Label Unit),
    Inv tailSha (Transition.run (step tailSha loneOrigin) {} ls) ∧
      DrawnFor (lastNonce - 1) (Transition.run (step tailSha loneOrigin) {} ls) :=
  have hpos : 0 < lastNonce := by decide
  ⟨exhaust (lastNonce - 1), (inv_run loneOrigin (inv_empty tailSha) _).1,
    drawnFor_exhaust (Nat.sub_lt hpos one_pos)⟩

/-- With the digest telling all draws apart, a replica comes back to a tree it has disabled once
its counter has run out: the last counter is drawn again and again, and with it one nonce. -/
theorem nonce_repeats :
    ¬ ∀ ls ms : List (Label Unit),
      let g := Transition.run (step tailSha loneOrigin) {} ls
      let g' := Transition.run (step tailSha loneOrigin) {} (ls ++ ms)
      DigestApart tailSha g' → ∀ t : TreeId, Made g () t →
        Opaque.status (g.replicas ()).lifecycle t ≠ some true →
        Opaque.status (g'.replicas ()).lifecycle t ≠ some true := by
  intro hclaim
  obtain ⟨ls, hinv, hdrawn⟩ := exists_exhausted
  have hclaim := hclaim (ls ++ [.replace () "b" .groupSealed, .disable () "b"])
    [.replace () "b" .groupSealed]
  have hpos : 0 < lastNonce := by decide
  simp only [Transition.run_append, Transition.run_cons, Transition.run_nil, step] at hclaim
  generalize Transition.run (step tailSha loneOrigin) {} ls = g at hclaim hinv hdrawn
  have hnone : (g.replicas ()).lifecycle.registers[slotHash tailSha "b"]? = none := by
    rw [hinv.refreshed]
    by_contra hsome
    obtain ⟨v, hv⟩ := Option.ne_none_iff_exists'.1 hsome
    obtain ⟨⟨i, hi, _⟩, _⟩ := hinv.writes.register_eq_some.1 hv
    obtain ⟨_, write, hwrite, hslot⟩ := mem_ofSlot.1 hi
    obtain ⟨c, hc, _, hslot'⟩ := hdrawn.writes write (List.mem_of_getElem? hwrite)
    rw [hslot, slotAt, if_pos (by omega)] at hslot'
    exact absurd hslot' (by decide +kernel)
  obtain ⟨hinv₁, hdrawn₁, hread₁, _⟩ := write_exhausted 1 hinv hdrawn (by omega)
    (by omega) (by rw [hnone, nextSequence]) (some .groupSealed)
  obtain ⟨hinv₂, hdrawn₂, hread₂, hmade⟩ := write_exhausted 2 hinv₁ hdrawn₁ le_rfl
    (by omega) (by simp [hread₁, nextSequence]) none
  obtain ⟨_, hdrawn₃, hread₃, _⟩ := write_exhausted 3 hinv₂ hdrawn₂ le_rfl
    (by omega) (by simp [hread₂, nextSequence]) (some .groupSealed)
  refine hclaim (hdrawn₃.digestApart le_rfl) _ hmade (fun hcurrent => ?_) ?_
  · obtain ⟨v, hv, hmode, _⟩ := Opaque.status_treeId.1 hcurrent
    cases hread₂.symm.trans hv
    cases hmode
  · exact Opaque.status_treeId.2 ⟨_, hread₃, rfl, rfl⟩

/-! ## Two replacements -/

/-- A slot replaced twice. -/
def replaceTwice : List (Label Unit) :=
  [.replace () "a" .groupSealed, .replace () "a" .callerEncrypted]

theorem unsaturated_replaceTwice : Transition.Meets (step tailSha loneOrigin) Unsaturated {}
    (replaceTwice ++ [.disable () "a"]) := by
  refine ⟨?_, ?_, ?_, trivial⟩
  · show 0 < lastNonce
    decide
  · show _ < lastNonce
    decide +kernel
  · show _ < lastNonce
    decide +kernel

theorem digestApart_replaceTwice : DigestApart tailSha
    (Transition.run (step tailSha loneOrigin) {} (replaceTwice ++ [.disable () "a"])) := by
  unfold DigestApart
  decide +kernel

/-- The tree of the first replacement was made, and the second has superseded it. -/
theorem made_replaceTwice : Made (Transition.run (step tailSha loneOrigin) {} replaceTwice) ()
    (Opaque.treeId (slotHash tailSha "a") 1) :=
  ⟨0, by decide +kernel, ⟨slotHash tailSha "a", RegisterValue.encode ⟨1, 1, some .groupSealed⟩, ∅,
    nonceInput ⟨0, 0⟩ "a" 1⟩, by decide +kernel, by decide +kernel⟩

theorem superseded_replaceTwice : Opaque.status
    ((Transition.run (step tailSha loneOrigin) {} replaceTwice).replicas ()).lifecycle
      (Opaque.treeId (slotHash tailSha "a") 1) ≠ some true := by
  decide +kernel

/-- It is not current again once the slot has been disabled either. -/
theorem register_converges_replaceTwice : Opaque.status
    ((Transition.run (step tailSha loneOrigin) {} (replaceTwice ++ [.disable () "a"])).replicas
      ()).lifecycle (Opaque.treeId (slotHash tailSha "a") 1) ≠ some true :=
  (register_converges tailSha loneOrigin replaceTwice [.disable () "a"]).2.2.2.1 (fun _ _ _ => rfl)
    unsaturated_replaceTwice digestApart_replaceTwice () _ made_replaceTwice superseded_replaceTwice

end Machine

end RegisterGroup

end Polyvisor
