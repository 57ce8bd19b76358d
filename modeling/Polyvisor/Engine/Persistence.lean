import Polyvisor.Engine.Journal
import Polyvisor.Lib.Transition

/-!
# The pending journal refines the storage

`settle_persistence`, `prepare_persistence` and `acknowledge_persistence` of
`engine/src/lib.rs`, and the machine that interleaves them with the storage mutators in any
order. `prepare_persistence` is two steps, because it awaits the vault between reading the
settled mark and copying the pending prefix, and a mutation may arrive in between.

The machine starts with nothing pending and a journal that holds what the storage holds. Three
of its fields are bookkeeping that no code reads: every mutation ever recorded, those recorded
since the last cut, and the deltas acknowledged so far.

## Main results

* `JournalInv`: the invariant, and `journalInv_step`: every step keeps it.
* `pending_journal_refines_storage`: in every state a run reaches, the acknowledged deltas and
  then the pending mutations give the storage's contents; the mark stays within the pending
  list; acknowledging a delta keeps everything recorded after its cut; and every mutation is in
  exactly one acknowledged delta or still pending.
-/

namespace Polyvisor

variable {B V : Type}

/-- The fields of `Engine` that decide what the next journal record carries. -/
structure Persistence (B : Type) where
  /-- The item storage. -/
  storage : SnapshotStorage B := {}
  /-- Counts the settles that found nothing unsettled: the control record may have moved. -/
  persistenceRevision : ℕ := 0
  /-- The revision of the last acknowledged record. -/
  persistedRevision : ℕ := 0

/-- `PreparedDelta`. -/
structure PreparedDelta (B V : Type) where
  /-- The record. -/
  delta : EngineDelta B V
  /-- How many pending mutations it carries. -/
  pending : ℕ
  /-- The control revision it carries. -/
  revision : ℕ

namespace Persistence

/-- `settle_persistence`. -/
def settlePersistence (p : Persistence B) : Persistence B :=
  { p with
    storage := p.storage.settle
    persistenceRevision :=
      if p.storage.hasUnsettled then p.persistenceRevision
      else (p.persistenceRevision + 1) % 2 ^ 64 }

/-- The first half of `prepare_persistence`: the cut, or `none` if nothing is new. -/
def cut (p : Persistence B) : Option (ℕ × ℕ) :=
  if p.storage.settled = 0 ∧ p.persistenceRevision = p.persistedRevision then none
  else some (p.storage.settled, p.persistenceRevision)

/-- The second half of `prepare_persistence`, once the vault answered. -/
def prepare (p : Persistence B) (cut : ℕ × ℕ) (control : EngineControl V) : PreparedDelta B V :=
  { delta := { control, mutations := p.storage.pendingPrefix cut.1 }
    pending := cut.1
    revision := cut.2 }

/-- `acknowledge_persistence`. -/
def acknowledgePersistence (p : Persistence B) (prepared : PreparedDelta B V) : Persistence B :=
  { p with
    storage := p.storage.acknowledge prepared.pending
    persistedRevision := prepared.revision }

end Persistence

/-- How far the one outstanding `prepare_persistence` got. -/
inductive Outstanding (B V : Type) where
  /-- There is none. -/
  | idle
  /-- The mark and the revision were read; the vault is being archived. -/
  | cut (mark : ℕ × ℕ)
  /-- The delta was handed to the caller. -/
  | prepared (prepared : PreparedDelta B V)

/-- The engine's storage, the journal its acknowledged deltas make, and the bookkeeping of one
run. -/
structure JournalledEngine (B V : Type) where
  /-- The storage and its marks. -/
  persistence : Persistence B
  /-- The journal, with every acknowledged delta applied. -/
  journal : JournalState B V
  /-- The outstanding preparation. -/
  outstanding : Outstanding B V := .idle
  /-- The deltas acknowledged so far, in order. -/
  acknowledged : List (EngineDelta B V) := []
  /-- Every mutation recorded so far, in order. -/
  recorded : List (StorageMutation B) := []
  /-- The mutations recorded since the last cut. -/
  sinceCut : List (StorageMutation B) := []

/-- What can happen next. -/
inductive JournalLabel (B V : Type) where
  /-- The driver stores a batch, or is refused part-way. -/
  | persistItems (t : TreeId) (commits : List (Signed LooseCommit × B))
      (fragments : List (Signed Fragment × B))
  /-- Items of the durable store are reinstated. -/
  | restore (t : TreeId) (commits fragments : List (Item B))
  /-- Covered commits are dropped. -/
  | prune (t : TreeId)
  /-- The engine forgets a tree. -/
  | forgetTree (t : TreeId)
  /-- The driver deletes a tree. -/
  | deleteTree (t : TreeId)
  /-- The registers or the authorities change under the storage. -/
  | admission (lifecycle : LifecycleState) (shared : SharedAuthorities)
  /-- An operation settles. -/
  | settle
  /-- `prepare_persistence` reads the mark. -/
  | cut
  /-- `prepare_persistence` returns a delta with this control record. -/
  | prepare (control : EngineControl V)
  /-- The outstanding delta is acknowledged. -/
  | acknowledge
  /-- The outstanding preparation failed or its delta was dropped. -/
  | abandon

namespace JournalledEngine

/-- Replace the storage by one that pushed further mutations. -/
def mutated (e : JournalledEngine B V) (storage : SnapshotStorage B) : JournalledEngine B V :=
  let pushed := storage.pending.drop e.persistence.storage.pending.length
  { e with
    persistence := { e.persistence with storage }
    recorded := e.recorded ++ pushed
    sinceCut := e.sinceCut ++ pushed }

/-- One step of the machine. A label that does not apply changes nothing. -/
def step (codec : Codec B) (e : JournalledEngine B V) :
    JournalLabel B V → JournalledEngine B V
  | .persistItems t commits fragments =>
    e.mutated (e.persistence.storage.persistItems codec t commits fragments).1
  | .restore t commits fragments =>
    e.mutated (e.persistence.storage.restore codec t commits fragments)
  | .prune t => e.mutated (e.persistence.storage.prune codec t).1
  | .forgetTree t => e.mutated (e.persistence.storage.forgetTree t)
  | .deleteTree t => e.mutated (e.persistence.storage.forgetTree t)
  | .admission lifecycle shared =>
    { e with persistence :=
      { e.persistence with storage := { e.persistence.storage with lifecycle, shared } } }
  | .settle => { e with persistence := e.persistence.settlePersistence }
  | .cut =>
    match e.outstanding, e.persistence.cut with
    | .idle, some mark => { e with outstanding := .cut mark, sinceCut := [] }
    | _, _ => e
  | .prepare control =>
    match e.outstanding with
    | .cut mark => { e with outstanding := .prepared (e.persistence.prepare mark control) }
    | _ => e
  | .acknowledge =>
    match e.outstanding with
    | .prepared prepared =>
      { e with
        persistence := e.persistence.acknowledgePersistence prepared
        journal := e.journal.apply prepared.delta
        acknowledged := e.acknowledged ++ [prepared.delta]
        outstanding := .idle }
    | _ => e
  | .abandon => { e with outstanding := .idle }

/-- A machine at its start: nothing pending, and a journal that holds what the storage holds. -/
structure Initial (e : JournalledEngine B V) : Prop where
  /-- Nothing is pending. -/
  pending : e.persistence.storage.pending = []
  /-- Nothing is settled. -/
  settled : e.persistence.storage.settled = 0
  /-- The journal holds what the storage holds. -/
  contents : e.journal.contents = e.persistence.storage.contents
  /-- No delta is outstanding. -/
  outstanding : e.outstanding = .idle
  /-- Nothing was acknowledged. -/
  acknowledged : e.acknowledged = []
  /-- Nothing was recorded. -/
  recorded : e.recorded = []
  /-- Nothing was recorded since a cut. -/
  sinceCut : e.sinceCut = []

/-- The pending list at the cut is `len` mutations that the delta takes and a rest, and what was
recorded since follows them. -/
def CutAt (e : JournalledEngine B V) (len : ℕ) : Prop :=
  len + e.sinceCut.length ≤ e.persistence.storage.pending.length ∧
    e.sinceCut <:+ e.persistence.storage.pending

/-- What the outstanding preparation knows of the pending list. -/
def OutstandingInv (e : JournalledEngine B V) : Prop :=
  match e.outstanding with
  | .idle => True
  | .cut mark => e.CutAt mark.1
  | .prepared prepared =>
    e.CutAt prepared.pending ∧
      prepared.delta.mutations = e.persistence.storage.pending.take prepared.pending

/-- The invariant of every run. -/
structure JournalInv (e : JournalledEngine B V) : Prop where
  /-- The journal and the pending mutations give the storage. -/
  contents : replay e.persistence.storage.pending e.journal.contents =
    e.persistence.storage.contents
  /-- The mark is within the pending list. -/
  settled : e.persistence.storage.settled ≤ e.persistence.storage.pending.length
  /-- Every mutation is in an acknowledged delta or pending, in order. -/
  recorded : e.recorded =
    e.acknowledged.flatMap (·.mutations) ++ e.persistence.storage.pending
  /-- The cut of the outstanding preparation is still in place. -/
  outstanding : e.OutstandingInv

/-- The invariant holds at the start. -/
theorem journalInv_initial {e : JournalledEngine B V} (h : e.Initial) : e.JournalInv where
  contents := by rw [h.pending, replay_nil, h.contents]
  settled := by rw [h.settled]; exact Nat.zero_le _
  recorded := by simp [h.recorded, h.acknowledged, h.pending]
  outstanding := by simp [OutstandingInv, h.outstanding]

/-- A cut survives mutations pushed after it. -/
theorem cutAt_mutated {e : JournalledEngine B V} {storage : SnapshotStorage B}
    {ms : List (StorageMutation B)} (hw : e.persistence.storage.Writes storage ms) {len : ℕ}
    (h : e.CutAt len) : (e.mutated storage).CutAt len := by
  obtain ⟨hlen, pre, hpre⟩ := h
  have hpushed : storage.pending.drop e.persistence.storage.pending.length = ms := by
    rw [hw.pending, List.drop_left]
  refine ⟨?_, pre, ?_⟩
  · change len + (e.sinceCut ++ storage.pending.drop _).length ≤ storage.pending.length
    rw [hpushed, hw.pending, List.length_append, List.length_append]
    omega
  · change pre ++ (e.sinceCut ++ storage.pending.drop _) = storage.pending
    rw [hpushed, hw.pending, ← List.append_assoc, hpre]

/-- A storage mutator keeps the invariant. -/
theorem journalInv_mutated {e : JournalledEngine B V} {storage : SnapshotStorage B}
    (hw : ∃ ms, e.persistence.storage.Writes storage ms) (h : e.JournalInv) :
    (e.mutated storage).JournalInv := by
  obtain ⟨ms, hw⟩ := hw
  have hpushed : storage.pending.drop e.persistence.storage.pending.length = ms := by
    rw [hw.pending, List.drop_left]
  refine ⟨?_, ?_, ?_, ?_⟩
  · change replay storage.pending e.journal.contents = storage.contents
    rw [hw.pending, replay_append, h.contents, hw.contents]
  · change storage.settled ≤ storage.pending.length
    rw [hw.settled, hw.pending, List.length_append]
    exact h.settled.trans (Nat.le_add_right _ _)
  · change e.recorded ++ storage.pending.drop e.persistence.storage.pending.length =
      e.acknowledged.flatMap (·.mutations) ++ storage.pending
    rw [hpushed, h.recorded, hw.pending, List.append_assoc]
  · have ho := h.outstanding
    unfold OutstandingInv at ho ⊢
    change match e.outstanding with
      | .idle => True
      | .cut mark => (e.mutated storage).CutAt mark.1
      | .prepared prepared => (e.mutated storage).CutAt prepared.pending ∧
          prepared.delta.mutations = storage.pending.take prepared.pending
    cases hout : e.outstanding with
    | idle => trivial
    | cut mark =>
      rw [hout] at ho
      exact cutAt_mutated hw ho
    | prepared prepared =>
      rw [hout] at ho
      obtain ⟨hcut, htake⟩ := ho
      refine ⟨cutAt_mutated hw hcut, ?_⟩
      -- the prefix was copied before these mutations arrived behind it
      have hle : prepared.pending ≤ e.persistence.storage.pending.length := by
        have := hcut.1
        omega
      rw [htake, hw.pending, List.take_append_of_le_length hle]

/-- Reading the mark keeps the invariant. -/
theorem journalInv_cut (codec : Codec B) {e : JournalledEngine B V} (h : e.JournalInv) :
    (e.step codec .cut).JournalInv := by
  rw [step]
  split
  next mark _ hcut =>
    refine ⟨h.contents, h.settled, h.recorded, ?_⟩
    have hmark : mark.1 = e.persistence.storage.settled := by
      unfold Persistence.cut at hcut
      split at hcut
      · cases hcut
      · cases hcut
        rfl
    exact ⟨by simpa [hmark] using h.settled, List.nil_suffix⟩
  next => exact h

/-- Copying the prefix keeps the invariant. -/
theorem journalInv_prepare (codec : Codec B) (control : EngineControl V)
    {e : JournalledEngine B V} (h : e.JournalInv) :
    (e.step codec (.prepare control)).JournalInv := by
  rw [step]
  split
  next mark hout =>
    refine ⟨h.contents, h.settled, h.recorded, ?_⟩
    have ho := h.outstanding
    rw [OutstandingInv, hout] at ho
    exact ⟨ho, rfl⟩
  next => exact h

/-- Acknowledging a delta keeps the invariant. -/
theorem journalInv_acknowledge (codec : Codec B) {e : JournalledEngine B V} (h : e.JournalInv) :
    (e.step codec .acknowledge).JournalInv := by
  rw [step]
  split
  next prepared hout =>
    have ho := h.outstanding
    rw [OutstandingInv, hout] at ho
    obtain ⟨hcut, htake⟩ := ho
    have hsplit : prepared.delta.mutations ++
        e.persistence.storage.pending.drop prepared.pending = e.persistence.storage.pending := by
      rw [htake, List.take_append_drop]
    refine ⟨?_, ?_, ?_, trivial⟩
    · change replay (e.persistence.storage.pending.drop prepared.pending)
        (e.journal.apply prepared.delta).contents = e.persistence.storage.contents
      rw [JournalState.contents_apply, ← replay_append, hsplit, h.contents]
    · change e.persistence.storage.settled - prepared.pending ≤
        (e.persistence.storage.pending.drop prepared.pending).length
      rw [List.length_drop]
      exact Nat.sub_le_sub_right h.settled _
    · change e.recorded = (e.acknowledged ++ [prepared.delta]).flatMap (·.mutations) ++
        e.persistence.storage.pending.drop prepared.pending
      rw [List.flatMap_append, List.flatMap_singleton, List.append_assoc, hsplit, h.recorded]
  next => exact h

/-- Every step keeps the invariant. -/
theorem journalInv_step (codec : Codec B) (e : JournalledEngine B V) (l : JournalLabel B V)
    (h : e.JournalInv) : (e.step codec l).JournalInv := by
  cases l with
  | persistItems t commits fragments =>
    exact journalInv_mutated (SnapshotStorage.writes_persistItems codec _ t commits fragments) h
  | restore t commits fragments =>
    exact journalInv_mutated (SnapshotStorage.writes_restore codec _ t commits fragments) h
  | prune t => exact journalInv_mutated (SnapshotStorage.writes_prune codec _ t) h
  | forgetTree t => exact journalInv_mutated ⟨_, SnapshotStorage.writes_forgetTree _ t⟩ h
  | deleteTree t => exact journalInv_mutated ⟨_, SnapshotStorage.writes_forgetTree _ t⟩ h
  | admission lifecycle shared => exact ⟨h.contents, h.settled, h.recorded, h.outstanding⟩
  | settle => exact ⟨h.contents, le_rfl, h.recorded, h.outstanding⟩
  | cut => exact journalInv_cut codec h
  | prepare control => exact journalInv_prepare codec control h
  | acknowledge => exact journalInv_acknowledge codec h
  | abandon => exact ⟨h.contents, h.settled, h.recorded, trivial⟩

/-- The journal is the initial one with every acknowledged delta applied. -/
def JournalApplied (journal : JournalState B V) (e : JournalledEngine B V) : Prop :=
  e.journal = e.acknowledged.foldl JournalState.apply journal

/-- Only an acknowledgement touches the journal, and it applies what it appends. -/
theorem journalApplied_step (codec : Codec B) (journal : JournalState B V)
    (e : JournalledEngine B V) (l : JournalLabel B V) (h : e.JournalApplied journal) :
    (e.step codec l).JournalApplied journal := by
  cases l with
  | cut =>
    rw [step]
    split <;> exact h
  | prepare control =>
    rw [step]
    split <;> exact h
  | acknowledge =>
    rw [step]
    split
    next prepared _ =>
      change e.journal.apply prepared.delta =
        (e.acknowledged ++ [prepared.delta]).foldl JournalState.apply journal
      rw [List.foldl_append, ← h, List.foldl_cons, List.foldl_nil]
    next => exact h
  | _ => exact h

/-- Everything recorded after the cut of the outstanding delta is pending once the delta is
acknowledged. -/
theorem sinceCut_suffix_acknowledge (codec : Codec B) {e : JournalledEngine B V}
    (h : e.JournalInv) {prepared : PreparedDelta B V} (hout : e.outstanding = .prepared prepared) :
    e.sinceCut <:+ (e.step codec .acknowledge).persistence.storage.pending := by
  have ho := h.outstanding
  rw [OutstandingInv, hout] at ho
  obtain ⟨⟨hlen, pre, hpre⟩, -⟩ := ho
  rw [step, hout]
  change e.sinceCut <:+ e.persistence.storage.pending.drop prepared.pending
  refine ⟨pre.drop prepared.pending, ?_⟩
  have hle : prepared.pending ≤ pre.length := by
    have : pre.length + e.sinceCut.length = e.persistence.storage.pending.length := by
      rw [← hpre, List.length_append]
    omega
  rw [← hpre, List.drop_append_of_le_length hle]

/-- The journal and the pending list of `e` refine its storage, in a run that began with the
journal of `e₀`. -/
structure Refines (codec : Codec B) (e₀ e : JournalledEngine B V) : Prop where
  /-- The journal is the initial one with the acknowledged deltas applied in order. -/
  journal : e.journal = e.acknowledged.foldl JournalState.apply e₀.journal
  /-- All acknowledged deltas and then all pending mutations give what the storage holds. -/
  contents : replay (e.acknowledged.flatMap (·.mutations) ++ e.persistence.storage.pending)
    e₀.journal.contents = e.persistence.storage.contents
  /-- So do the pending mutations on the journal as it is. -/
  pending : replay e.persistence.storage.pending e.journal.contents =
    e.persistence.storage.contents
  /-- The settled mark is within the pending list. -/
  settled : e.persistence.storage.settled ≤ e.persistence.storage.pending.length
  /-- What was recorded after the cut of a prepared delta outlives its acknowledgement. -/
  sinceCut : ∀ prepared, e.outstanding = .prepared prepared →
    e.sinceCut <:+ (e.step codec .acknowledge).persistence.storage.pending
  /-- Every mutation is in one acknowledged delta or pending, in the order they came. -/
  recorded : e.recorded =
    e.acknowledged.flatMap (·.mutations) ++ e.persistence.storage.pending

/-- However the mutators, the settles, the preparations and their acknowledgements interleave,
the journal and the pending list refine the storage. -/
theorem pending_journal_refines_storage (codec : Codec B) (e₀ : JournalledEngine B V)
    (h₀ : e₀.Initial) (ls : List (JournalLabel B V)) :
    Refines codec e₀ (Transition.run (step codec) e₀ ls) := by
  have hinv : (Transition.run (step codec) e₀ ls).JournalInv :=
    Transition.run_preserves (journalInv_step codec) (journalInv_initial h₀) ls
  have happlied : (Transition.run (step codec) e₀ ls).JournalApplied e₀.journal := by
    refine Transition.run_preserves (journalApplied_step codec e₀.journal) ?_ ls
    simp [JournalApplied, h₀.acknowledged]
  refine ⟨happlied, ?_, hinv.contents, hinv.settled, ?_, hinv.recorded⟩
  · rw [replay_append, ← JournalState.contents_foldl_apply, ← happlied, hinv.contents]
  · intro prepared hout
    exact sinceCut_suffix_acknowledge codec hinv hout

/-- A codec that decodes nothing and prunes nothing. -/
def idleCodec : Codec Unit where
  blobMeta _ := ⟨0, 0⟩
  ciphertextRefs _ := none
  sharedCref _ id := id
  hashRefs _ := 0
  itemId _ _ _ := 0
  decodeCommit _ := none
  decodeFragment _ := none
  minimize _ commits := commits

/-- A commit of tree 1 arrives, is settled and cut, and the tree is forgotten while the delta is
on its way to disk. -/
theorem refines_forgetTree_in_flight :
    Refines idleCodec (⟨{}, {}, .idle, [], [], []⟩ : JournalledEngine Unit Unit)
      (Transition.run (step idleCodec) ⟨{}, {}, .idle, [], [], []⟩
        [.persistItems 1 [(⟨0, [], some ⟨1, 7, [], ⟨0, 0⟩⟩⟩, ())] [], .settle, .cut,
          .forgetTree 1, .prepare ⟨[], none, none⟩, .acknowledge]) :=
  pending_journal_refines_storage idleCodec _ ⟨rfl, rfl, by
    ext1 ⟨t, id, kind⟩
    cases kind <;> simp [JournalState.contents, SnapshotStorage.contents,
      SnapshotStorage.treeItem, SnapshotStorage.tree], rfl, rfl, rfl, rfl⟩ _

end JournalledEngine

end Polyvisor
