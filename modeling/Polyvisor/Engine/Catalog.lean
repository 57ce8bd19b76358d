import Polyvisor.Lib.BigEndian
import Polyvisor.Lib.Transition
import Polyvisor.Engine.Snapshot
import Std.Data.ExtTreeMap.Lemmas

/-!
# The tree catalog exchange

`encode_catalog`, `decode_catalog` and `retain_catalog` of `engine/src/lib.rs`, and what
`pump_events` and `forget_connection` do with the two maps of the receiver. A catalog is sent as
batches of at most 1024 trees, the last of which is flagged.

## Main results

* `decodeCatalog_batch`: a batch is read back, the last one as such.
* `Transition.run_component`, `Catalogs.slot_step`: a connection's part of the receiver's state
  depends on its own events alone.
* `catalog_exchange`: whatever arrives in between, every connection ends with the trees its sender
  listed, and keeps them.
-/

namespace Polyvisor

open Std

/-! ## Batches -/

/-- `CATALOG_PREFIX`. -/
def catalogPrefix : Bytes := utf8 "PVC1"

/-- `CATALOG_BATCH_TREES`. -/
def catalogBatchTrees : ℕ := 1024

/-- `SedimentreeId::as_bytes`. -/
def treeBytes (tree : TreeId) : Bytes :=
  BigEndian.toBytes 32 tree.toNat

/-- The number of batches; an empty catalog has one as well. -/
def batchCount (trees : List TreeId) : ℕ :=
  max ((trees.length + (catalogBatchTrees - 1)) / catalogBatchTrees) 1

/-- The trees of one batch. -/
def batchTrees (trees : List TreeId) (index : ℕ) : List TreeId :=
  (trees.drop (index * catalogBatchTrees)).take catalogBatchTrees

/-- The message of one batch. -/
def batchMessage (finalBatch : Bool) (chunk : List TreeId) : Bytes :=
  catalogPrefix ++ (if finalBatch then 1 else 0) :: chunk.flatMap treeBytes

/-- `encode_catalog`. -/
def encodeCatalog (trees : List TreeId) : List Bytes :=
  (List.range (batchCount trees)).map fun index =>
    batchMessage (index + 1 = batchCount trees) (batchTrees trees index)

/-- `as_chunks::<32>`, of so many trees. -/
def readTrees : ℕ → Bytes → List TreeId
  | 0, _ => []
  | count + 1, bytes =>
    BitVec.ofNat 256 (BigEndian.ofBytes (bytes.take 32)) :: readTrees count (bytes.drop 32)

/-- `decode_catalog`. -/
def decodeCatalog (sha : Sha256) (bytes : Bytes) : Option (Bool × List TreeId) := do
  guard (catalogPrefix <+: bytes)
  match bytes.drop catalogPrefix.length with
  | [] => none
  | finalBatch :: payload =>
    if finalBatch > 1 ∨ payload.length % 32 ≠ 0 ∨ payload.length / 32 > catalogBatchTrees then none
    else
      let trees := readTrees (payload.length / 32) payload
      if ∃ tree ∈ trees, tree = usTree sha ∨ tree = keyhiveTree sha then none
      else some (finalBatch = 1, trees)

/-! ## The receiver -/

/-- `remote_catalogs` and `pending_catalogs`. -/
structure Catalogs where
  complete : ExtTreeMap ℕ (List TreeId) := ∅
  pending : ExtTreeMap ℕ (List TreeId) := ∅

/-- `sort_unstable` and `dedup`. -/
def catalogOf (trees : List TreeId) : List TreeId :=
  (trees.insertionSort (· ≤ ·)).dedup

/-- `retain_catalog`, with its answer. -/
def retainCatalog (sha : Sha256) (s : Catalogs) (conn : ℕ) (registered member : Bool)
    (bytes : Bytes) : Catalogs × Bool :=
  if ¬ registered ∨ ¬ member ∨ s.complete[conn]?.isSome then (s, false)
  else
    match decodeCatalog sha bytes with
    | none => ({ s with pending := s.pending.erase conn }, false)
    | some (finalBatch, trees) =>
      let accumulated := s.pending[conn]?.getD [] ++ trees
      if finalBatch then
        ({ complete := s.complete.insert conn (catalogOf accumulated)
           pending := s.pending.erase conn }, true)
      else ({ s with pending := s.pending.insert conn accumulated }, false)

/-- What `pump_events` hears of a connection. -/
inductive CatalogEvent where
  /-- `ExtensionMessage`; whether the connection is registered and its peer a member are asked
  when it arrives. -/
  | message (conn : ℕ) (registered member : Bool) (bytes : Bytes)
  /-- `ConnectionClosed`. -/
  | closed (conn : ℕ)
  deriving DecidableEq

/-- The connection an event is about. -/
def CatalogEvent.conn : CatalogEvent → ℕ
  | .message conn _ _ _ => conn
  | .closed conn => conn

/-- One event. A closed connection is forgotten. -/
def Catalogs.step (sha : Sha256) (s : Catalogs) : CatalogEvent → Catalogs
  | .message conn registered member bytes => (retainCatalog sha s conn registered member bytes).1
  | .closed conn => { complete := s.complete.erase conn, pending := s.pending.erase conn }

/-! ## Batches are read back -/

variable {sha : Sha256} {trees chunk : List TreeId} {conn : ℕ}

theorem length_treeBytes (tree : TreeId) : (treeBytes tree).length = 32 :=
  BigEndian.length_toBytes 32 _

theorem length_flatMap_treeBytes (chunk : List TreeId) :
    (chunk.flatMap treeBytes).length = 32 * chunk.length := by
  induction chunk with
  | nil => rfl
  | cons tree rest ih =>
    rw [List.flatMap_cons, List.length_append, ih, length_treeBytes, List.length_cons]
    omega

theorem readTrees_flatMap (chunk : List TreeId) :
    readTrees chunk.length (chunk.flatMap treeBytes) = chunk := by
  induction chunk with
  | nil => rfl
  | cons tree rest ih =>
    have hlength := length_treeBytes tree
    rw [List.flatMap_cons, List.length_cons, readTrees, List.take_left' hlength,
      List.drop_left' hlength, ih, treeBytes, BigEndian.ofBytes_toBytes_of_lt tree.isLt,
      BitVec.ofNat_toNat, BitVec.setWidth_eq]

/-- A batch that is not too long and names no reserved tree is read back. -/
theorem decodeCatalog_batch (hlength : chunk.length ≤ catalogBatchTrees)
    (hus : usTree sha ∉ chunk) (hkeyhive : keyhiveTree sha ∉ chunk) (finalBatch : Bool) :
    decodeCatalog sha (batchMessage finalBatch chunk) = some (finalBatch, chunk) := by
  have hpayload := length_flatMap_treeBytes chunk
  have hcount : (chunk.flatMap treeBytes).length / 32 = chunk.length := by omega
  have hreserved : ¬ ∃ tree ∈ chunk, tree = usTree sha ∨ tree = keyhiveTree sha := by
    rintro ⟨tree, htree, rfl | rfl⟩
    · exact hus htree
    · exact hkeyhive htree
  -- the flag is one of the two that are accepted
  obtain ⟨flag, hflag⟩ : ∃ flag : UInt8, (if finalBatch then 1 else 0) = flag := ⟨_, rfl⟩
  have hrange : ¬ flag > 1 ∧ decide (flag = 1) = finalBatch := by
    rcases finalBatch with _ | _
    · rw [← hflag]
      decide
    · rw [← hflag]
      decide
  have hpasses : ¬ (flag > 1 ∨ (chunk.flatMap treeBytes).length % 32 ≠ 0 ∨
      (chunk.flatMap treeBytes).length / 32 > catalogBatchTrees) := by
    rw [not_or, not_or]
    exact ⟨hrange.1, by omega, by omega⟩
  unfold decodeCatalog batchMessage
  rw [guard, if_pos (List.prefix_append _ _), List.drop_left, Option.bind_eq_bind, Option.pure_def,
    Option.bind_some, hflag]
  dsimp only
  rw [if_neg hpasses, hcount, readTrees_flatMap, if_neg hreserved, hrange.2]

/-! ## One connection -/

/-- What the receiver holds of one connection: the catalog, and the batches that have come. -/
structure CatalogSlot where
  complete : Option (List TreeId) := none
  pending : Option (List TreeId) := none

/-- A connection's part of the state. -/
def Catalogs.slot (s : Catalogs) (conn : ℕ) : CatalogSlot :=
  ⟨s.complete[conn]?, s.pending[conn]?⟩

/-- A batch that comes while the catalog is not complete. -/
def CatalogSlot.batch (slot : CatalogSlot) : Option (Bool × List TreeId) → CatalogSlot
  | none => { slot with pending := none }
  | some (true, trees) => ⟨some (catalogOf (slot.pending.getD [] ++ trees)), none⟩
  | some (false, trees) => { slot with pending := some (slot.pending.getD [] ++ trees) }

/-- An event of the connection. -/
def CatalogSlot.step (sha : Sha256) (slot : CatalogSlot) : CatalogEvent → CatalogSlot
  | .message _ registered member bytes =>
    if ¬ registered ∨ ¬ member ∨ slot.complete.isSome then slot
    else slot.batch (decodeCatalog sha bytes)
  | .closed _ => {}

theorem Catalogs.slot_ext {s s' : Catalogs} (hcomplete : s'.complete[conn]? = s.complete[conn]?)
    (hpending : s'.pending[conn]? = s.pending[conn]?) : s'.slot conn = s.slot conn := by
  rw [slot, slot, hcomplete, hpending]

/-- The connection's part of the state after an event of its own. -/
theorem Catalogs.slot_step (s : Catalogs) (event : CatalogEvent) (h : event.conn = conn) :
    (s.step sha event).slot conn = (s.slot conn).step sha event := by
  rcases event with ⟨other, registered, member, bytes⟩ | other
  · obtain rfl : other = conn := h
    have hcomplete : (s.slot other).complete = s.complete[other]? := rfl
    rw [Catalogs.step, retainCatalog, CatalogSlot.step, hcomplete]
    by_cases hignored : ¬ registered = true ∨ ¬ member = true ∨ s.complete[other]?.isSome = true
    · rw [if_pos hignored, if_pos hignored]
    rw [if_neg hignored, if_neg hignored]
    rcases decodeCatalog sha bytes with _ | ⟨finalBatch, trees⟩
    · simp [slot, CatalogSlot.batch]
    rcases finalBatch with _ | _
    · simp [slot, CatalogSlot.batch]
    · simp [slot, CatalogSlot.batch]
  · obtain rfl : other = conn := h
    simp [slot, Catalogs.step, CatalogSlot.step]

/-- An event of another connection leaves it alone. -/
theorem Catalogs.slot_step_of_ne (s : Catalogs) (event : CatalogEvent) (h : event.conn ≠ conn) :
    (s.step sha event).slot conn = s.slot conn := by
  rcases event with ⟨other, registered, member, bytes⟩ | other
  · have hne : other ≠ conn := h
    rw [Catalogs.step, retainCatalog]
    by_cases hignored : ¬ registered = true ∨ ¬ member = true ∨ s.complete[other]?.isSome = true
    · rw [if_pos hignored]
    rw [if_neg hignored]
    rcases decodeCatalog sha bytes with _ | ⟨finalBatch, trees⟩
    · refine slot_ext rfl ?_
      rw [ExtTreeMap.getElem?_erase, if_neg (by simpa using hne)]
    rcases finalBatch with _ | _
    · refine slot_ext rfl ?_
      show (s.pending.insert other _)[conn]? = _
      rw [ExtTreeMap.getElem?_insert, if_neg (by simpa using hne)]
    · refine slot_ext ?_ ?_
      · show (s.complete.insert other _)[conn]? = _
        rw [ExtTreeMap.getElem?_insert, if_neg (by simpa using hne)]
      · show (s.pending.erase other)[conn]? = _
        rw [ExtTreeMap.getElem?_erase, if_neg (by simpa using hne)]
  · have hne : other ≠ conn := h
    refine slot_ext ?_ ?_
    · show (s.complete.erase other)[conn]? = _
      rw [ExtTreeMap.getElem?_erase, if_neg (by simpa using hne)]
    · show (s.pending.erase other)[conn]? = _
      rw [ExtTreeMap.getElem?_erase, if_neg (by simpa using hne)]

/-- The events of a connection among all. -/
def eventsOf (conn : ℕ) (events : List CatalogEvent) : List CatalogEvent :=
  events.filter fun event => event.conn = conn

/-- What a run leaves of a connection, its own events leave. -/
theorem Catalogs.slot_run (sha : Sha256) (s : Catalogs) (conn : ℕ) (events : List CatalogEvent) :
    (Transition.run (Catalogs.step sha) s events).slot conn =
      Transition.run (CatalogSlot.step sha) (s.slot conn) (eventsOf conn events) :=
  Transition.run_component (fun s => s.slot conn)
    (fun s event h => s.slot_step event (of_decide_eq_true h))
    (fun s event h => s.slot_step_of_ne event fun heq => h (decide_eq_true heq)) s events

/-! ## A catalog and what comes after it -/

/-- A complete catalog stays, whatever messages come. -/
theorem CatalogSlot.complete_run {slot : CatalogSlot} {held : List TreeId}
    (hheld : slot.complete = some held) {events : List CatalogEvent}
    (hopen : ∀ event ∈ events, event ≠ .closed event.conn) :
    (Transition.run (CatalogSlot.step sha) slot events).complete = some held := by
  induction events generalizing slot with
  | nil => exact hheld
  | cons event rest ih =>
    obtain ⟨hevent, hrest⟩ := List.forall_mem_cons.1 hopen
    rw [Transition.run_cons]
    refine ih ?_ hrest
    rcases event with ⟨other, registered, member, bytes⟩ | other
    · rw [CatalogSlot.step, if_pos (.inr (.inr (by rw [hheld, Option.isSome_some])))]
      exact hheld
    · exact absurd rfl hevent

theorem take_append_batchTrees (trees : List TreeId) (index : ℕ) :
    trees.take (index * catalogBatchTrees) ++ batchTrees trees index =
      trees.take ((index + 1) * catalogBatchTrees) := by
  rw [batchTrees, Nat.add_mul, Nat.one_mul, List.take_add]

theorem length_batchTrees_le (trees : List TreeId) (index : ℕ) :
    (batchTrees trees index).length ≤ catalogBatchTrees := by
  rw [batchTrees, List.length_take]
  exact Nat.min_le_left _ _

theorem mem_of_mem_batchTrees {tree : TreeId} {index : ℕ} (h : tree ∈ batchTrees trees index) :
    tree ∈ trees :=
  List.mem_of_mem_drop (List.mem_of_mem_take h)

/-- A member's messages. -/
def catalogMessages (conn : ℕ) (trees : List TreeId) : List CatalogEvent :=
  (encodeCatalog trees).map (.message conn true true)

section Reserved

variable (hus : usTree sha ∉ trees) (hkeyhive : keyhiveTree sha ∉ trees)
include hus hkeyhive

theorem decodeCatalog_batchMessage (index : ℕ) (finalBatch : Bool) :
    decodeCatalog sha (batchMessage finalBatch (batchTrees trees index)) =
      some (finalBatch, batchTrees trees index) :=
  decodeCatalog_batch (length_batchTrees_le trees index) (fun h => hus (mem_of_mem_batchTrees h))
    (fun h => hkeyhive (mem_of_mem_batchTrees h)) finalBatch

/-- Before the last batch, the trees of all the batches so far are pending. -/
theorem CatalogSlot.run_batches {slot : CatalogSlot} (hcomplete : slot.complete = none)
    (hpending : slot.pending = none) (conn : ℕ) {count : ℕ} (hcount : count < batchCount trees) :
    (Transition.run (CatalogSlot.step sha) slot
        ((catalogMessages conn trees).take count)).complete = none ∧
      (Transition.run (CatalogSlot.step sha) slot
        ((catalogMessages conn trees).take count)).pending.getD [] =
          trees.take (count * catalogBatchTrees) := by
  induction count with
  | zero =>
    rw [List.take_zero, Transition.run_nil, hpending, Nat.zero_mul, List.take_zero]
    exact ⟨hcomplete, rfl⟩
  | succ count ih =>
    obtain ⟨hnone, hheld⟩ := ih (by omega)
    have hmessage : (catalogMessages conn trees)[count]? =
        some (.message conn true true (batchMessage false (batchTrees trees count))) := by
      have hlast : ¬ count + 1 = batchCount trees := by omega
      rw [catalogMessages, encodeCatalog, List.map_map, List.getElem?_map,
        List.getElem?_range (by omega), Option.map_some, Function.comp_apply,
        decide_eq_false hlast]
    rw [List.take_add_one, hmessage, Option.toList_some, Transition.run_append,
      Transition.run_cons, Transition.run_nil]
    rw [CatalogSlot.step, hnone, if_neg (by simp), decodeCatalog_batchMessage hus hkeyhive]
    refine ⟨hnone, ?_⟩
    rw [CatalogSlot.batch, Option.getD_some, hheld, take_append_batchTrees]

/-- The last batch completes the catalog. -/
theorem CatalogSlot.run_catalog {slot : CatalogSlot} (hcomplete : slot.complete = none)
    (hpending : slot.pending = none) :
    (Transition.run (CatalogSlot.step sha) slot (catalogMessages conn trees)).complete =
      some (catalogOf trees) := by
  have hpositive : 1 ≤ batchCount trees := Nat.le_max_right _ _
  obtain ⟨count, hcount⟩ : ∃ count, batchCount trees = count + 1 :=
    ⟨batchCount trees - 1, by omega⟩
  obtain ⟨hnone, hheld⟩ :=
    run_batches hus hkeyhive hcomplete hpending conn (show count < batchCount trees by omega)
  have hmessage : (catalogMessages conn trees)[count]? =
      some (.message conn true true (batchMessage true (batchTrees trees count))) := by
    rw [catalogMessages, encodeCatalog, List.map_map, List.getElem?_map,
      List.getElem?_range (by omega), Option.map_some, Function.comp_apply,
      decide_eq_true hcount.symm]
  have hlength : (catalogMessages conn trees).length = count + 1 := by
    rw [catalogMessages, encodeCatalog, List.length_map, List.length_map, List.length_range,
      hcount]
  -- the batches cover the list
  have hall : trees.take ((count + 1) * catalogBatchTrees) = trees := by
    refine List.take_of_length_le ?_
    have hle : (trees.length + (catalogBatchTrees - 1)) / catalogBatchTrees ≤ count + 1 := by
      rw [← hcount]
      exact Nat.le_max_left _ _
    rw [catalogBatchTrees] at hle ⊢
    omega
  rw [← List.take_of_length_le hlength.le, List.take_add_one, hmessage,
    Option.toList_some, Transition.run_append, Transition.run_cons, Transition.run_nil]
  rw [CatalogSlot.step, hnone, if_neg (by simp), decodeCatalog_batchMessage hus hkeyhive,
    CatalogSlot.batch, hheld, take_append_batchTrees, hall]

end Reserved

/-! ## The exchange -/

theorem mem_catalogOf {tree : TreeId} : tree ∈ catalogOf trees ↔ tree ∈ trees := by
  rw [catalogOf, List.mem_dedup, List.mem_insertionSort]

theorem nodup_catalogOf (trees : List TreeId) : (catalogOf trees).Nodup :=
  List.nodup_dedup _

theorem mem_encodeCatalog {bytes : Bytes} (h : bytes ∈ encodeCatalog trees) :
    ∃ index finalBatch, bytes = batchMessage finalBatch (batchTrees trees index) := by
  obtain ⟨index, -, rfl⟩ := List.mem_map.1 h
  exact ⟨index, _, rfl⟩

/-- A malformed message. -/
theorem Catalogs.step_of_decode_eq_none (s : Catalogs) (registered member : Bool) {bytes : Bytes}
    (h : decodeCatalog sha bytes = none) :
    s.step sha (.message conn registered member bytes) =
      if registered ∧ member ∧ s.complete[conn]? = none then
        { s with pending := s.pending.erase conn }
      else s := by
  rw [Catalogs.step, retainCatalog, h]
  by_cases hignored : ¬ registered = true ∨ ¬ member = true ∨ s.complete[conn]?.isSome = true
  · rw [if_pos hignored, if_neg]
    rintro ⟨hregistered, hmember, hnone⟩
    rw [hnone] at hignored
    simp [hregistered, hmember] at hignored
  · rw [if_neg hignored, if_pos]
    simpa only [not_or, not_not, Option.not_isSome_iff_eq_none] using hignored

/-- The exchange, for every list that names no reserved tree. A connection's events are those of a
registered member that sends its catalog, among any events of the others. -/
structure CatalogExchange (sha : Sha256) (trees : List TreeId) : Prop where
  /-- Once its last message has come, and whatever messages come later, the connection has the
  catalog its sender listed. -/
  delivered : ∀ (s : Catalogs) (conn : ℕ) (events later : List CatalogEvent),
    s.complete[conn]? = none → s.pending[conn]? = none →
    eventsOf conn events = catalogMessages conn trees ++ later →
    (∀ event ∈ later, event ≠ .closed conn) →
    ∃ held, (Transition.run (Catalogs.step sha) s events).complete[conn]? = some held ∧
      held.Nodup ∧ ∀ tree, tree ∈ held ↔ tree ∈ trees
  /-- Before that it has none. -/
  early : ∀ (s : Catalogs) (conn : ℕ) (events : List CatalogEvent) (count : ℕ),
    s.complete[conn]? = none → s.pending[conn]? = none →
    eventsOf conn events = (catalogMessages conn trees).take count →
    count < (catalogMessages conn trees).length →
    (Transition.run (Catalogs.step sha) s events).complete[conn]? = none
  bounded : ∀ bytes ∈ encodeCatalog trees, ∃ finalBatch chunk,
    decodeCatalog sha bytes = some (finalBatch, chunk) ∧ chunk.length ≤ catalogBatchTrees ∧
      bytes.length = catalogPrefix.length + 1 + 32 * chunk.length
  /-- A malformed message discards what is pending of its connection. -/
  malformed : ∀ (s : Catalogs) (conn : ℕ) (registered member : Bool) (bytes : Bytes),
    decodeCatalog sha bytes = none →
    let next := s.step sha (.message conn registered member bytes)
    next.complete = s.complete ∧
      (∀ other ≠ conn, next.pending[other]? = s.pending[other]?) ∧
      next.pending[conn]? =
        if registered ∧ member ∧ s.complete[conn]? = none then none else s.pending[conn]?
  /-- No message changes a complete catalog. -/
  settled : ∀ (s : Catalogs) (conn : ℕ) (held : List TreeId) (events : List CatalogEvent),
    s.complete[conn]? = some held → (∀ event ∈ events, event ≠ .closed conn) →
    (Transition.run (Catalogs.step sha) s events).complete[conn]? = some held

theorem not_closed_of_mem_eventsOf {events : List CatalogEvent}
    (hopen : ∀ event ∈ events, event ≠ .closed conn) :
    ∀ event ∈ eventsOf conn events, event ≠ .closed event.conn := by
  intro event hevent
  obtain ⟨hmem, hconn⟩ := List.mem_filter.1 hevent
  rw [of_decide_eq_true hconn]
  exact hopen event hmem

/-- The catalog exchange round-trips. -/
theorem catalog_exchange (sha : Sha256) (trees : List TreeId) (hus : usTree sha ∉ trees)
    (hkeyhive : keyhiveTree sha ∉ trees) : CatalogExchange sha trees := by
  have hlength : (catalogMessages 0 trees).length = batchCount trees := by
    rw [catalogMessages, encodeCatalog, List.length_map, List.length_map, List.length_range]
  refine
    { delivered := fun s conn events later hcomplete hpending hevents hopen => ?_
      early := fun s conn events count hcomplete hpending hevents hcount => ?_
      bounded := fun bytes hbytes => ?_
      malformed := fun s conn registered member bytes hbytes => ?_
      settled := fun s conn held events hheld hopen => ?_ }
  · refine ⟨catalogOf trees, ?_, nodup_catalogOf trees, fun tree => mem_catalogOf⟩
    have hslot := congrArg CatalogSlot.complete (s.slot_run sha conn events)
    rw [hevents, Transition.run_append] at hslot
    refine hslot.trans (CatalogSlot.complete_run
      (CatalogSlot.run_catalog hus hkeyhive hcomplete hpending) fun event hevent => ?_)
    have hmine : event ∈ eventsOf conn events := by
      rw [hevents]
      exact List.mem_append_right _ hevent
    rw [of_decide_eq_true (List.mem_filter.1 hmine).2]
    exact hopen event hevent
  · have hslot := congrArg CatalogSlot.complete (s.slot_run sha conn events)
    rw [hevents] at hslot
    refine hslot.trans (CatalogSlot.run_batches hus hkeyhive hcomplete hpending conn ?_).1
    rw [← hlength]
    simpa [catalogMessages] using hcount
  · obtain ⟨index, finalBatch, rfl⟩ := mem_encodeCatalog hbytes
    refine ⟨finalBatch, batchTrees trees index, decodeCatalog_batchMessage hus hkeyhive index _,
      length_batchTrees_le trees index, ?_⟩
    rw [batchMessage, List.length_append, List.length_cons, length_flatMap_treeBytes]
    omega
  · dsimp only
    rw [s.step_of_decode_eq_none registered member hbytes]
    split_ifs with hdiscards
    · refine ⟨rfl, fun other hother => ?_, ?_⟩
      · rw [ExtTreeMap.getElem?_erase, if_neg (by simpa using hother.symm)]
      · rw [ExtTreeMap.getElem?_erase, if_pos (by simp)]
    · exact ⟨rfl, fun _ _ => rfl, rfl⟩
  · have hslot := congrArg CatalogSlot.complete (s.slot_run sha conn events)
    exact hslot.trans (CatalogSlot.complete_run hheld (not_closed_of_mem_eventsOf hopen))

/-- A catalog of three batches. -/
theorem catalog_exchange_batches : CatalogExchange (fun _ => 0)
    ((List.range 2050).map fun index => BitVec.ofNat 256 (index + 1)) :=
  catalog_exchange _ _ (by decide +kernel) (by decide +kernel)

end Polyvisor
