import Polyvisor.Kernel.Checkpoint
import Polyvisor.Kernel.Erasure

/-!
# Drawing an anchor

`mint_anchor`, `open_or_mint` and the two places of `kernel/src/lib.rs` that bring a device up from
what `load` answers: `resume` of a device that rests open, and `unseal`. The metadata snapshot has
type `S`; the one that is drawn when none was ever committed is an input.

A device whose first checkpoint failed has no generation, and may have a journal all the same: a
persist of the engine alone commits under the same pointer. Its next boot draws a new anchor, and
hands the journal of the old one to the engine.

## Main results

* `bringUp_cases`: what a device that came up was brought up from.
* `alone_mintAnchor`: a drawn anchor is alone if the journal was empty.
* `fresh_identity_alone`: what is opened comes from one pointer, and a drawn anchor is alone iff the
  pointer names no journal record.
-/

namespace Polyvisor.Anchor

open CrashStore

variable {B V S : Type}

/-! ## Bringing a device up -/

/-- What of `DeviceState` comes from storage. `start_sync` builds the engine from `snapshot`, which
holds the seed, and `engineState`. -/
structure DeviceState (B V S : Type) where
  snapshot : S
  engineState : Option (Polyvisor.Snapshot B V)
  generation : ℕ
  engineHead : ℕ

/-- How bringing a device up ends. -/
inductive Boot (B V S : Type) where
  | opened (state : DeviceState B V S)
  | minted (state : DeviceState B V S)
  | refused (error : Error)
  /-- The process stops on the way. -/
  | crashed

/-- What an anchor is drawn and written with, and what becomes of each effect. -/
structure Draw (S : Type) where
  fresh : S
  nonce : Nonce
  fates : List (Fate Bytes)

/-- `mint_anchor`: generation 1, with no journal behind it. That it could not be written is not
fatal. -/
def mintAnchor (io : Io B V S) (draw : Draw S) (disk : Disk) : Disk × Option (S × ℕ) :=
  let plan := io.write draw.nonce ⟨1, 0⟩ draw.fresh
  match execute disk plan.effects draw.fates with
  | (disk, .completed) => (disk, some (draw.fresh, if plan.error.isNone then 1 else 0))
  | (disk, .failed _) => (disk, some (draw.fresh, 0))
  | (disk, .crashed) => (disk, none)

/-- `open_or_mint`: the snapshot and the generation, and whether it was drawn. `none` is a crash. -/
def openOrMint (io : Io B V S) (draw : Draw S) (tier : Tier) (generation : ℕ)
    (snapshot : Option S) (disk : Disk) : Disk × Option (Except Error (S × ℕ × Bool)) :=
  match snapshot with
  | some snapshot => (disk, some (.ok (snapshot, generation, false)))
  | none =>
    if tier = .ephemeral ∧ generation = 0 then
      match mintAnchor io draw disk with
      | (disk, some (snapshot, generation)) => (disk, some (.ok (snapshot, generation, true)))
      | (disk, none) => (disk, none)
    else (disk, some (.error ⟨.failed, "this device's state did not open"⟩))

/-- `resume` of a device that rests open, once it has the data key, and the same steps of `unseal`,
which passes the tier `durable`. -/
def bringUp (io : Io B V S) (sha : Sha256) (draw : Draw S) (tier : Tier) (disk : Disk) :
    Disk × Boot B V S :=
  match io.loadJournal disk with
  | .error e => (disk, .refused e)
  | .ok c =>
    let (pointer, snapshot, engine) := c.loaded sha
    match openOrMint io draw tier pointer.generation snapshot disk with
    | (disk, none) => (disk, .crashed)
    | (disk, some (.error e)) => (disk, .refused e)
    | (disk, some (.ok (snapshot, generation, minted))) =>
      let state : DeviceState B V S :=
        { snapshot, engineState := engine, generation, engineHead := pointer.engineHead }
      (disk, if minted then .minted state else .opened state)

/-! ## What a device that came up holds -/

/-- The counters of a device that came up. -/
def DeviceState.memory (state : DeviceState B V S) : Pointer :=
  ⟨state.generation, state.engineHead⟩

/-- A device that came up from the committed state `c`, and from nothing else. -/
structure Whole (sha : Sha256) (c : Committed B V S) (state : DeviceState B V S) : Prop where
  snapshot : c.snapshot = some state.snapshot
  engine : state.engineState = c.journal.snapshot sha
  memory : state.memory = c.pointer

/-- What is committed belongs to a drawn identity: its metadata or none, and no journal. -/
structure Committed.Of (c : Committed B V S) (snapshot : S) : Prop where
  snapshot : c.snapshot = none ∨ c.snapshot = some snapshot
  journal : c.journal = {}
  head : c.pointer.engineHead = 0

/-- A drawn identity that has nothing of an earlier one: its engine starts from nothing, and what is
committed on its disk is what its counters name and belongs to it. -/
structure Alone (io : Io B V S) (disk : Disk) (state : DeviceState B V S) : Prop where
  engine : state.engineState = none
  committed : ∃ c, ({ disk, memory := state.memory } : Machine).Holds io c ∧
    Committed.Of c state.snapshot

/-- The pointer names no journal record. -/
def EmptyJournal (io : Io B V S) (disk : Disk) : Prop :=
  ∃ found, io.pointer disk = .ok found ∧ (found.getD {}).engineHead = 0

theorem emptyJournal_iff {io : Io B V S} {disk : Disk} {c : Committed B V S}
    (h : io.Loads disk c) : EmptyJournal io disk ↔ c.pointer.engineHead = 0 := by
  obtain ⟨found, hp, hpointer⟩ := h.pointer
  rw [hpointer]
  constructor
  · rintro ⟨found', hp', hhead⟩
    rw [hp] at hp'
    rwa [Except.ok.inj hp']
  · exact fun hhead => ⟨found, hp, hhead⟩

/-- An empty journal restores nothing. -/
theorem journal_eq_of_head {io : Io B V S} {disk : Disk} {c : Committed B V S}
    (h : io.Loads disk c) (hhead : c.pointer.engineHead = 0) : c.journal = {} := by
  have hj := h.journal
  rw [hhead, Io.readRecords] at hj
  exact (Except.ok.inj hj).symm

/-- What an anchor commits on top of nothing. -/
def Draw.persist (draw : Draw S) : Persist B V S where
  metadata := some draw.fresh
  prepared := none
  recordNonce := draw.nonce
  stateNonce := draw.nonce

/-- An anchor is the first persist of a device without a journal. -/
theorem writePersistence_draw (io : Io B V S) (draw : Draw S) :
    io.writePersistence {} draw.persist = io.write draw.nonce ⟨1, 0⟩ draw.fresh := by
  rw [Io.writePersistence]
  -- there is no record in front of the generation
  show Plan.andThen { effects := [] } (io.write draw.nonce ⟨1, 0⟩ draw.fresh) = _
  rw [Plan.andThen]
  simp

/-- An anchor that is drawn where nothing is committed is alone. -/
theorem alone_mintAnchor {io : Io B V S} (haead : io.aead.Lawful) (hformats : io.formats.Lawful)
    {disk disk' : Disk} {c : Committed B V S} (hload : io.Loads disk c) (hpointer : c.pointer = {})
    (draw : Draw S) {snapshot : S} {generation : ℕ}
    (h : mintAnchor io draw disk = (disk', some (snapshot, generation))) :
    ∃ c', ({ disk := disk', memory := ⟨generation, 0⟩ } : Machine).Holds io c' ∧
      Committed.Of c' snapshot := by
  have hjournal : c.journal = {} := journal_eq_of_head hload (by rw [hpointer])
  have hholds : ({ disk, memory := {} } : Machine).Holds io c :=
    ⟨(io.loadJournal_eq_ok_iff disk c).2 hload, hpointer.symm⟩
  -- drawing the anchor is a persist of this machine, so it leaves one of two committed states
  obtain ⟨d, hd, hcases, -⟩ := Machine.persist_step haead hformats hholds
    ⟨draw.persist, draw.fates⟩
  have hcommit : Committed.Of d draw.fresh := by
    rcases hcases with rfl | rfl
    · refine ⟨.inl ?_, hjournal, by rw [hpointer]⟩
      rw [hload.snapshot, hpointer, Io.readSnapshot]
      exact if_pos rfl
    · refine ⟨.inr rfl, hjournal, ?_⟩
      show (draw.persist.pointer c.pointer : Pointer).engineHead = 0
      rw [hpointer]
      rfl
  have hfresh : snapshot = draw.fresh := by
    rw [mintAnchor] at h
    split at h
    · exact (congrArg Prod.fst (Option.some.inj (congrArg Prod.snd h))).symm
    · exact (congrArg Prod.fst (Option.some.inj (congrArg Prod.snd h))).symm
    · exact absurd (congrArg Prod.snd h) (by simp)
  subst hfresh
  refine ⟨d, ?_, hcommit⟩
  rw [Machine.persist, writePersistence_draw] at hd
  rw [mintAnchor] at h
  dsimp only at hd h
  rcases hexec : execute disk (io.write draw.nonce ⟨1, 0⟩ draw.fresh).effects draw.fates with
    ⟨disk₁, _ | e | _⟩
  · rw [hexec] at hd h
    dsimp only at hd h
    obtain ⟨rfl, hsome⟩ := Prod.mk.inj h
    obtain ⟨-, rfl⟩ := Prod.mk.inj (Option.some.inj hsome)
    -- a plan that gave up before its first effect leaves no generation either
    rcases herror : (io.write draw.nonce ⟨1, 0⟩ draw.fresh).error with _ | e
    · rw [herror] at hd
      exact hd
    · rw [herror] at hd
      exact hd
  · rw [hexec] at hd h
    dsimp only at hd h
    obtain ⟨rfl, hsome⟩ := Prod.mk.inj h
    obtain ⟨-, rfl⟩ := Prod.mk.inj (Option.some.inj hsome)
    exact hd
  · rw [hexec] at h
    simp at h

/-- What a device that came up was brought up from. -/
theorem bringUp_cases {io : Io B V S} {sha : Sha256} {draw : Draw S} {tier : Tier}
    {disk disk' : Disk} {boot : Boot B V S} (h : bringUp io sha draw tier disk = (disk', boot)) :
    (∀ state, boot = .opened state → disk' = disk ∧ ∃ c, io.Loads disk c ∧ Whole sha c state) ∧
      ∀ state, boot = .minted state → ∃ c, io.Loads disk c ∧ c.pointer.generation = 0 ∧
        mintAnchor io draw disk = (disk', some (state.snapshot, state.generation)) ∧
        state.engineState = c.journal.snapshot sha ∧ state.engineHead = c.pointer.engineHead := by
  rw [bringUp] at h
  rcases hload : io.loadJournal disk with e | c
  · rw [hload] at h
    obtain ⟨-, rfl⟩ := Prod.mk.inj h
    exact ⟨(fun _ h => nomatch h), fun _ h => nomatch h⟩
  rw [hload] at h
  have hloads := (io.loadJournal_eq_ok_iff disk c).1 hload
  dsimp only [Committed.loaded] at h
  rcases hsnapshot : c.snapshot with _ | snapshot
  · -- nothing was committed under the pointer's generation
    rw [hsnapshot, openOrMint] at h
    by_cases hlegal : tier = .ephemeral ∧ c.pointer.generation = 0
    · rw [if_pos hlegal] at h
      rcases hmint : mintAnchor io draw disk with ⟨disk₁, _ | ⟨snapshot, generation⟩⟩
      · rw [hmint] at h
        obtain ⟨-, rfl⟩ := Prod.mk.inj h
        exact ⟨(fun _ h => nomatch h), fun _ h => nomatch h⟩
      · rw [hmint] at h
        dsimp only at h
        obtain ⟨rfl, rfl⟩ := Prod.mk.inj h
        refine ⟨(fun _ h => nomatch h), fun state hstate => ?_⟩
        rw [if_pos rfl] at hstate
        obtain rfl := Boot.minted.inj hstate
        exact ⟨c, hloads, hlegal.2, rfl, rfl, rfl⟩
    · rw [if_neg hlegal] at h
      obtain ⟨-, rfl⟩ := Prod.mk.inj h
      exact ⟨(fun _ h => nomatch h), fun _ h => nomatch h⟩
  · rw [hsnapshot, openOrMint] at h
    dsimp only at h
    obtain ⟨rfl, rfl⟩ := Prod.mk.inj h
    refine ⟨fun state hstate => ⟨rfl, c, hloads, ?_⟩, fun _ h => nomatch h⟩
    obtain rfl := Boot.opened.inj hstate
    exact ⟨hsnapshot, rfl, rfl⟩

/-- A device that is brought up from any disk, with any outcome of what it writes: a stored one has
the metadata and the journal of the one committed state its pointer names, and is left as it is; one
whose anchor is drawn is alone iff the pointer names no journal record. -/
theorem fresh_identity_alone {io : Io B V S} (haead : io.aead.Lawful)
    (hformats : io.formats.Lawful) (sha : Sha256) (draw : Draw S) (tier : Tier) (disk : Disk) :
    (∀ disk' state, bringUp io sha draw tier disk = (disk', .minted state) →
        (Alone io disk' state ↔ EmptyJournal io disk)) ∧
      ∀ disk' state, bringUp io sha draw tier disk = (disk', .opened state) →
        disk' = disk ∧ ∃ c, io.Loads disk c ∧ Whole sha c state := by
  refine ⟨fun disk' state h => ?_, fun disk' state h => (bringUp_cases h).1 state rfl⟩
  obtain ⟨c, hload, hgeneration, hmint, hengine, hhead⟩ := (bringUp_cases h).2 state rfl
  rw [emptyJournal_iff hload]
  constructor
  · rintro ⟨-, c', hholds, hof⟩
    -- the head in memory is the one that was on disk, and the one that is committed now
    rw [← hhead, ← hof.head, ← hholds.memory]
    rfl
  · intro hzero
    have hpointer : c.pointer = {} := by
      rcases hp : c.pointer with ⟨generation, head⟩
      rw [hp] at hgeneration hzero
      dsimp only at hgeneration hzero
      rw [hgeneration, hzero]
    obtain ⟨c', hholds, hof⟩ := alone_mintAnchor haead hformats hload hpointer draw hmint
    refine ⟨?_, c', ?_, hof⟩
    · rw [hengine, journal_eq_of_head hload hzero]
      rfl
    · rw [DeviceState.memory, hhead, hzero]
      exact hholds

/-! ## A device whose first checkpoint failed -/

/-- Draw an anchor under the given fates. -/
def exampleDraw (fates : List (Fate Bytes)) : Draw Bytes := ⟨[7], zeroNonce, fates⟩

/-- The first anchor could not be written, and the engine is persisted. -/
def unanchored : Disk :=
  (Machine.step exampleIo ⟨(mintAnchor exampleIo (exampleDraw [.failed none]) emptyDisk).1, {}⟩
    ⟨⟨none, some emptyDelta, zeroNonce, zeroNonce⟩, [.done, .done]⟩).disk

/-- What its next boot comes up with: a new anchor, under generation 1. -/
def anchoredAnew : Disk × Boot Unit Unit Bytes :=
  bringUp exampleIo (fun _ => 0) (exampleDraw (List.replicate 3 .done)) .ephemeral unanchored

/-- The new identity gets the journal of the old one, and keeps counting its records, while the
pointer it wrote names none. -/
theorem anchor_with_old_journal : ∃ disk state, anchoredAnew = (disk, .minted state) ∧
    state.engineState.isSome = true ∧ state.memory = ⟨1, 1⟩ ∧
    (exampleIo.pointer disk).toOption = some (some ⟨1, 0⟩) ∧ ¬ Alone exampleIo disk state := by
  have hpointer : (exampleIo.pointer anchoredAnew.1).toOption = some (some ⟨1, 0⟩) := by
    decide +kernel
  have hminted : (match anchoredAnew.2 with
      | .minted state => state.engineState.isSome && state.memory == ⟨1, 1⟩
      | _ => false) = true := by
    decide +kernel
  rcases hboot : anchoredAnew with ⟨disk, _ | state | _ | _⟩ <;>
    rw [hboot] at hpointer hminted <;> try exact Bool.noConfusion hminted
  obtain ⟨hengine, hmemory⟩ := Bool.and_eq_true_iff.1 hminted
  refine ⟨disk, state, rfl, hengine, eq_of_beq hmemory, hpointer, fun halone => ?_⟩
  rw [halone.engine] at hengine
  exact absurd hengine (by decide)

/-- A device that was never written to draws its first anchor, and the one whose journal has a
record draws another. -/
theorem fresh_identity_alone_firstBoot :
    (∀ disk' state, bringUp exampleIo (fun _ => 0) (exampleDraw (List.replicate 3 .done)) .ephemeral
        emptyDisk = (disk', .minted state) →
        (Alone exampleIo disk' state ↔ EmptyJournal exampleIo emptyDisk)) ∧
      ∀ disk' state, anchoredAnew = (disk', .minted state) →
        (Alone exampleIo disk' state ↔ EmptyJournal exampleIo unanchored) :=
  ⟨(fresh_identity_alone tagAead_lawful unaryFormats_lawful _ _ _ _).1,
    (fresh_identity_alone tagAead_lawful unaryFormats_lawful _ _ _ _).1⟩

end Polyvisor.Anchor
