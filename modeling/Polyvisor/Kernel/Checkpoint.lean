import Polyvisor.Kernel.Seal
import Polyvisor.Lib.CrashStore
import Polyvisor.Lib.Transition

/-!
# Device checkpoints and the engine journal on disk

`kernel/src/checkpoint.rs` and `write_persistence` of `kernel/src/lib.rs`. One key/value cell,
the pointer, commits both a metadata generation (a sealed state file and a manifest with its
digest) and a prefix of the sealed journal records.

A persist is a program of durable effects in the sense of `CrashStore`, and the machine runs one
persist after another, each under fates of the outside world's choosing: a write may report
failure and leave anything in its file, and the process may stop before, during or after any
effect and boot again from what is on disk. Directories hold nothing that `load` reads, so
removing one is not an effect here.

## Main results

* `loadJournal_agree`: what `load` answers depends on the pointer, the pointed generation and
  the records up to the pointed head, and on nothing else.
* `persist_step`: whatever becomes of one persist, what is on disk afterwards is the committed
  state or the one being committed.
* `load_after_persists`: so it is after any number of persists, failures and crashes.
-/

namespace Polyvisor

open CrashStore

/-! ## Layout -/

/-- A file under the device's namespace. -/
inductive Path where
  | state (generation : ℕ)
  | manifest (generation : ℕ)
  | engine (sequence : ℕ)
  deriving DecidableEq, Repr

/-- `Pointer`. -/
structure Pointer where
  generation : ℕ := 0
  engineHead : ℕ := 0
  deriving DecidableEq, Repr

/-- `ManifestJson`. -/
structure Manifest where
  generation : ℕ
  sha256 : String
  deriving DecidableEq, Repr

/-- The device's files and its small records. -/
abbrev Disk := Store Path String Bytes

/-- An effect on them, with the error a failed write is answered with. -/
abbrev DiskEffect := Effect Path String Bytes Error

/-- `dev_prefix`. -/
def devPrefix (id : String) : String := "dev/" ++ id ++ "/"

/-- `pointer_key`. -/
def pointerKey (id : String) : String := devPrefix id ++ "gen"

/-- `u64::to_le_bytes`. -/
def leBytes (n : ℕ) : Bytes :=
  (List.range 8).map fun i => UInt8.ofNat (n / 256 ^ i)

/-- `journal_aad`. -/
def journalAad (id : String) (sequence : ℕ) : Bytes :=
  utf8 "polyvisor:engine-journal:v1" ++ [0] ++ utf8 id ++ leBytes sequence

/-- The encodings of `serde_json`, `bincode` and `sha2`. `S` is the metadata snapshot. Only the
pointer is known to serialise always. -/
structure Formats (B V S : Type) where
  encodeSnapshot : S → Except String Bytes
  decodeSnapshot : Bytes → Option S
  encodeManifest : Manifest → Except String Bytes
  decodeManifest : Bytes → Option Manifest
  encodePointer : Pointer → Bytes
  decodePointer : Bytes → Option Pointer
  encodeDelta : EngineDelta B V → Except String Bytes
  decodeDelta : Bytes → Option (EngineDelta B V)
  /-- `HEXLOWER.encode(&Sha256::digest(..))`. -/
  digest : Bytes → String

/-- What is relied on: what was encoded decodes to the same value. -/
structure Formats.Lawful {B V S : Type} (formats : Formats B V S) : Prop where
  snapshot : ∀ {snapshot bytes},
    formats.encodeSnapshot snapshot = .ok bytes → formats.decodeSnapshot bytes = some snapshot
  manifest : ∀ {manifest bytes},
    formats.encodeManifest manifest = .ok bytes → formats.decodeManifest bytes = some manifest
  pointer : ∀ pointer, formats.decodePointer (formats.encodePointer pointer) = some pointer
  delta : ∀ {delta bytes},
    formats.encodeDelta delta = .ok bytes → formats.decodeDelta bytes = some delta

/-- What every read and write of one device is made with. -/
structure Io (B V S : Type) where
  aead : Aead
  formats : Formats B V S
  dek : Dek
  id : String

variable {B V S : Type}

namespace Io

/-! ## Loading -/

/-- `pointer`. -/
def pointer (io : Io B V S) (disk : Disk) : Except Error (Option Pointer) :=
  match disk.cells (pointerKey io.id) with
  | none => .ok none
  | some bytes =>
    match io.formats.decodePointer bytes with
    | some pointer => .ok (some pointer)
    | none => .error ⟨.failed, "this device's commit pointer is invalid"⟩

/-- `read_generation`. -/
def readGeneration (io : Io B V S) (disk : Disk) (generation : ℕ) : Option S := do
  let manifest ← disk.files (.manifest generation)
  let manifest ← io.formats.decodeManifest manifest
  guard (manifest.generation = generation)
  let state ← disk.files (.state generation)
  guard (io.formats.digest state = manifest.sha256)
  let plain ← (io.dek.opened io.aead state (utf8 io.id)).toOption
  io.formats.decodeSnapshot plain

/-- One journal record, as `load` reads it. -/
def readRecord (io : Io B V S) (disk : Disk) (sequence : ℕ) : Except Error (EngineDelta B V) :=
  match disk.files (.engine sequence) with
  | none => .error ⟨.failed, "this device's committed history is missing"⟩
  | some blob =>
    match io.dek.opened io.aead blob (journalAad io.id sequence) with
    | .error _ => .error ⟨.failed, "this device's committed history did not open"⟩
    | .ok plain =>
      match io.formats.decodeDelta plain with
      | none => .error ⟨.failed, "this device's committed history is invalid"⟩
      | some delta => .ok delta

/-- The records from the first to the given one, applied in order. -/
def readRecords (io : Io B V S) (disk : Disk) : ℕ → Except Error (JournalState B V)
  | 0 => .ok {}
  | head + 1 => do
    let journal ← readRecords io disk head
    let delta ← io.readRecord disk (head + 1)
    return journal.apply delta

end Io

/-- What is committed: the pointer, the metadata and the journal it points to. -/
structure Committed (B V S : Type) where
  pointer : Pointer := {}
  snapshot : Option S := none
  journal : JournalState B V := {}

/-- What `load` hands to its caller. -/
def Committed.loaded (sha : Sha256) (c : Committed B V S) :
    Pointer × Option S × Option (Snapshot B V) :=
  (c.pointer, c.snapshot, c.journal.snapshot sha)

namespace Io

/-- The metadata `load` reads: a device that never checkpointed has none. -/
def readSnapshot (io : Io B V S) (disk : Disk) (generation : ℕ) : Option S :=
  if generation = 0 then none else io.readGeneration disk generation

/-- `load`, up to the journal it replayed. -/
def loadJournal (io : Io B V S) (disk : Disk) : Except Error (Committed B V S) := do
  let pointer := (← io.pointer disk).getD {}
  let snapshot := io.readSnapshot disk pointer.generation
  if pointer.generation ≠ 0 ∧ snapshot.isNone then
    throw ⟨.failed, "this device's committed state did not open"⟩
  let journal ← io.readRecords disk pointer.engineHead
  return { pointer, snapshot, journal }

/-- `load`. -/
def load (io : Io B V S) (sha : Sha256) (disk : Disk) :
    Except Error (Pointer × Option S × Option (Snapshot B V)) :=
  (io.loadJournal disk).map (·.loaded sha)

end Io

/-! ## Writing -/

/-- A program of effects, and the error it ends with if it gives up by itself. -/
structure Plan where
  effects : List DiskEffect
  error : Option Error := none

/-- Run a second program if the first did not give up. -/
def Plan.andThen (first second : Plan) : Plan :=
  match first.error with
  | some _ => first
  | none => { effects := first.effects ++ second.effects, error := second.error }

namespace Io

/-- `write_engine`. -/
def writeEngine (io : Io B V S) (nonce : Nonce) (sequence : ℕ) (delta : EngineDelta B V) : Plan :=
  match io.formats.encodeDelta delta with
  | .error e =>
    { effects := [], error := some ⟨.failed, "engine history could not be written: " ++ e⟩ }
  | .ok plain =>
    match io.dek.sealed io.aead nonce plain (journalAad io.id sequence) with
    | .error e => { effects := [], error := some e }
    | .ok blob =>
      { effects := [.write (.engine sequence) blob
          ⟨.failed, "this device's history could not be written"⟩] }

/-- `commit_pointer`. -/
def commitPointer (io : Io B V S) (pointer : Pointer) : DiskEffect :=
  .set (pointerKey io.id) (io.formats.encodePointer pointer)

/-- `remove_generation`. -/
def removeGeneration (generation : ℕ) : List DiskEffect :=
  [.remove (.manifest generation), .remove (.state generation)]

/-- The cleanup at the end of `write`: the two generations before the one just committed. -/
def cleanup (generation : ℕ) : List DiskEffect :=
  ([generation - 1, generation - 2].filter (0 < ·)).flatMap removeGeneration

/-- `write`: state, manifest, pointer, cleanup. -/
def write (io : Io B V S) (nonce : Nonce) (pointer : Pointer) (snapshot : S) : Plan :=
  match io.formats.encodeSnapshot snapshot with
  | .error e =>
    { effects := [], error := some ⟨.failed, "the kernel state could not be written: " ++ e⟩ }
  | .ok plain =>
    match io.dek.sealed io.aead nonce plain (utf8 io.id) with
    | .error e => { effects := [], error := some e }
    | .ok state =>
      match io.formats.encodeManifest ⟨pointer.generation, io.formats.digest state⟩ with
      | .error e =>
        { effects := []
          error := some ⟨.failed, "the checkpoint manifest could not be written: " ++ e⟩ }
      | .ok manifest =>
        let unwritten := ⟨.failed, "this device's state could not be written"⟩
        { effects :=
            [.write (.state pointer.generation) state unwritten,
              .write (.manifest pointer.generation) manifest unwritten,
              io.commitPointer pointer] ++ cleanup pointer.generation }

end Io

/-- What one call of `write_persistence` is to commit: the device metadata when it was asked
for, and the delta the engine prepared, with the nonces the two seals draw. -/
structure Persist (B V S : Type) where
  metadata : Option S
  prepared : Option (EngineDelta B V)
  recordNonce : Nonce
  stateNonce : Nonce

/-- The pointer a persist commits, from the counters in memory. -/
def Persist.pointer (p : Persist B V S) (memory : Pointer) : Pointer where
  generation := memory.generation + if p.metadata.isSome then 1 else 0
  engineHead := memory.engineHead + if p.prepared.isSome then 1 else 0

/-- The effects of `write_persistence` up to the acknowledgement. -/
def Io.writePersistence (io : Io B V S) (memory : Pointer) (p : Persist B V S) : Plan :=
  let pointer := p.pointer memory
  let record : Plan :=
    match p.prepared with
    | some delta => io.writeEngine p.recordNonce pointer.engineHead delta
    | none => { effects := [] }
  record.andThen <|
    match p.metadata with
    | some snapshot => io.write p.stateNonce pointer snapshot
    | none => if p.prepared.isSome then { effects := [io.commitPointer pointer] }
      else { effects := [] }

/-- The committed state with one persist on top. -/
def Committed.commit (c : Committed B V S) (p : Persist B V S) : Committed B V S where
  pointer := p.pointer c.pointer
  snapshot := p.metadata.or c.snapshot
  journal := match p.prepared with
    | some delta => c.journal.apply delta
    | none => c.journal

/-! ## The machine -/

/-- A device: what is on its disk, and the two counters it holds in memory. -/
structure Machine where
  disk : Disk
  memory : Pointer

/-- One persist and what becomes of each of its effects. -/
structure Attempt (B V S : Type) where
  persist : Persist B V S
  fates : List (Fate Bytes)

namespace Machine

/-- Boot from disk. -/
def boot (io : Io B V S) (m : Machine) (disk : Disk) : Machine :=
  match io.loadJournal disk with
  | .ok c => { disk, memory := c.pointer }
  | .error _ => { m with disk }

/-- One persist, answering whether its caller was told `Ok`. -/
def persist (io : Io B V S) (m : Machine) (a : Attempt B V S) : Machine × Bool :=
  let plan := io.writePersistence m.memory a.persist
  match execute m.disk plan.effects a.fates with
  | (disk, .completed) =>
    match plan.error with
    | none => ({ disk, memory := a.persist.pointer m.memory }, true)
    | some _ => ({ m with disk }, false)
  | (disk, .failed _) => ({ m with disk }, false)
  | (disk, .crashed) => (m.boot io disk, false)

/-- The machine: one persist after another. -/
def step (io : Io B V S) (m : Machine) (a : Attempt B V S) : Machine :=
  (m.persist io a).1

end Machine

/-! ## What a load depends on -/

/-- The files a load under this pointer reads. -/
def Pointer.Reads (pointer : Pointer) : Path → Prop
  | .state generation => generation = pointer.generation
  | .manifest generation => generation = pointer.generation
  | .engine sequence => 1 ≤ sequence ∧ sequence ≤ pointer.engineHead

namespace Io

/-- `load` succeeds on this disk with this answer, taken apart. -/
structure Loads (io : Io B V S) (disk : Disk) (c : Committed B V S) : Prop where
  pointer : ∃ found, io.pointer disk = .ok found ∧ c.pointer = found.getD {}
  snapshot : c.snapshot = io.readSnapshot disk c.pointer.generation
  verified : c.pointer.generation ≠ 0 → c.snapshot.isSome
  journal : io.readRecords disk c.pointer.engineHead = .ok c.journal

theorem loadJournal_eq_ok_iff (io : Io B V S) (disk : Disk) (c : Committed B V S) :
    io.loadJournal disk = .ok c ↔ io.Loads disk c := by
  constructor
  · intro h
    rw [loadJournal] at h
    rcases hp : io.pointer disk with e | found
    · rw [hp] at h
      cases h
    rw [hp] at h
    simp only [bind, Except.bind, pure, Except.pure] at h
    by_cases hbad : (found.getD {}).generation ≠ 0 ∧
        (io.readSnapshot disk (found.getD {}).generation).isNone
    · rw [if_pos hbad] at h
      cases h
    rw [if_neg hbad] at h
    rcases hj : io.readRecords disk (found.getD {}).engineHead with e | journal
    · simp only [hj] at h
      cases h
    simp only [hj] at h
    cases h
    refine ⟨⟨found, hp, rfl⟩, rfl, fun hgen => ?_, hj⟩
    by_contra hnone
    exact hbad ⟨hgen, by simpa using hnone⟩
  · rintro ⟨⟨found, hp, hpointer⟩, hsnapshot, hverified, hj⟩
    obtain ⟨pointer, snapshot, journal⟩ := c
    dsimp only at hpointer hsnapshot hverified hj
    subst hpointer hsnapshot
    have hgood : ¬ ((found.getD {}).generation ≠ 0 ∧
        (io.readSnapshot disk (found.getD {}).generation).isNone) := by
      rintro ⟨hgen, hnone⟩
      have hsome := hverified hgen
      rw [Option.isNone_iff_eq_none.mp hnone] at hsome
      cases hsome
    rw [loadJournal, hp]
    simp only [bind, Except.bind, pure, Except.pure]
    rw [if_neg hgood]
    simp only [hj]

theorem readRecords_congr (io : Io B V S) {disk disk' : Disk} {head : ℕ}
    (h : ∀ n, 1 ≤ n → n ≤ head → disk'.files (.engine n) = disk.files (.engine n)) :
    io.readRecords disk' head = io.readRecords disk head := by
  induction head with
  | zero => rfl
  | succ head ih =>
    have hlast : disk'.files (.engine (head + 1)) = disk.files (.engine (head + 1)) :=
      h (head + 1) (by omega) le_rfl
    rw [readRecords, readRecords, ih fun n h₁ hn => h n h₁ (by omega), readRecord, readRecord,
      hlast]

theorem readSnapshot_congr (io : Io B V S) {disk disk' : Disk} {generation : ℕ}
    (hm : disk'.files (.manifest generation) = disk.files (.manifest generation))
    (hs : disk'.files (.state generation) = disk.files (.state generation)) :
    io.readSnapshot disk' generation = io.readSnapshot disk generation := by
  rw [readSnapshot, readSnapshot, readGeneration, readGeneration, hm, hs]

/-- A load reads the pointer and what it points to, and nothing else. -/
theorem loadJournal_agree (io : Io B V S) {disk disk' : Disk} {c : Committed B V S}
    (h : Agree c.pointer.Reads (· = pointerKey io.id) disk disk') (hload : io.Loads disk c) :
    io.Loads disk' c := by
  obtain ⟨⟨found, hp, hpointer⟩, hsnapshot, hverified, hj⟩ := hload
  refine ⟨⟨found, ?_, hpointer⟩, ?_, hverified, ?_⟩
  · rw [← hp, pointer, pointer, h.cells _ rfl]
  · rw [hsnapshot, io.readSnapshot_congr (h.files _ rfl) (h.files _ rfl)]
  · rw [← hj]
    exact io.readRecords_congr fun n h₁ hn => h.files _ ⟨h₁, hn⟩

/-- A disk whose pointer moved on by one persist, and which holds what that persist wrote beside
what was committed, loads as the committed state with the persist on top. -/
theorem loads_commit {io : Io B V S} (hformats : io.formats.Lawful) {disk disk' : Disk}
    {c : Committed B V S} (p : Persist B V S) (hload : io.Loads disk c)
    (hcell : disk'.cells (pointerKey io.id) =
      some (io.formats.encodePointer (p.pointer c.pointer)))
    (hfiles : ∀ path, c.pointer.Reads path → disk'.files path = disk.files path)
    (hmetadata : ∀ snapshot, p.metadata = some snapshot →
      io.readGeneration disk' (c.pointer.generation + 1) = some snapshot)
    (hrecord : ∀ delta, p.prepared = some delta →
      io.readRecord disk' (c.pointer.engineHead + 1) = .ok delta) :
    io.Loads disk' (c.commit p) := by
  obtain ⟨-, hsnapshot, hverified, hj⟩ := hload
  have hj' : io.readRecords disk' c.pointer.engineHead = .ok c.journal := by
    rw [← hj]
    exact io.readRecords_congr fun n h₁ hn => hfiles _ ⟨h₁, hn⟩
  refine ⟨⟨some (p.pointer c.pointer), ?_, rfl⟩, ?_, ?_, ?_⟩
  · rw [pointer, hcell]
    simp only [hformats.pointer]
  · rcases hm : p.metadata with _ | snapshot
    · -- no new generation: the committed one is still what is read
      simp only [Committed.commit, Persist.pointer, hm, Option.none_or, Option.isSome_none,
        Bool.false_eq_true, if_false, Nat.add_zero]
      rw [hsnapshot, io.readSnapshot_congr (hfiles _ rfl) (hfiles _ rfl)]
    · simp [Committed.commit, Persist.pointer, readSnapshot, hm, hmetadata snapshot hm]
  · rcases hm : p.metadata with _ | snapshot
    · simpa [Committed.commit, Persist.pointer, hm] using hverified
    · simp [Committed.commit, hm]
  · rcases hr : p.prepared with _ | delta
    · simpa [Committed.commit, Persist.pointer, hr] using hj'
    · simp [Committed.commit, Persist.pointer, hr, readRecords, hj', hrecord delta hr, bind,
        Except.bind, pure, Except.pure]

/-! ## What each write leaves -/

/-- A sealed record reads back as the delta it carries. -/
theorem readRecord_of_sealed {io : Io B V S} (haead : io.aead.Lawful)
    (hformats : io.formats.Lawful) {disk : Disk} {nonce : Nonce} {sequence : ℕ}
    {delta : EngineDelta B V} {plain blob : Bytes}
    (hencode : io.formats.encodeDelta delta = .ok plain)
    (hsealed : io.dek.sealed io.aead nonce plain (journalAad io.id sequence) = .ok blob)
    (hfile : disk.files (.engine sequence) = some blob) :
    io.readRecord disk sequence = .ok delta := by
  rw [readRecord, hfile]
  simp only [Dek.opened_sealed haead hsealed, hformats.delta hencode]

/-- A sealed state with its manifest reads back as the snapshot it carries. -/
theorem readGeneration_of_sealed {io : Io B V S} (haead : io.aead.Lawful)
    (hformats : io.formats.Lawful) {disk : Disk} {nonce : Nonce} {generation : ℕ} {snapshot : S}
    {plain state manifest : Bytes} (hencode : io.formats.encodeSnapshot snapshot = .ok plain)
    (hsealed : io.dek.sealed io.aead nonce plain (utf8 io.id) = .ok state)
    (hmanifest : io.formats.encodeManifest ⟨generation, io.formats.digest state⟩ = .ok manifest)
    (hstateFile : disk.files (.state generation) = some state)
    (hmanifestFile : disk.files (.manifest generation) = some manifest) :
    io.readGeneration disk generation = some snapshot := by
  simp [readGeneration, hstateFile, hmanifestFile, hformats.manifest hmanifest,
    Dek.opened_sealed haead hsealed, hformats.snapshot hencode, Except.toOption]

/-- `write_engine` gives up before its first effect, or writes one record that reads back. -/
theorem writeEngine_cases {io : Io B V S} (haead : io.aead.Lawful) (hformats : io.formats.Lawful)
    (nonce : Nonce) (sequence : ℕ) (delta : EngineDelta B V) :
    (∃ e, io.writeEngine nonce sequence delta = ⟨[], some e⟩) ∨
      ∃ blob e, io.writeEngine nonce sequence delta = ⟨[.write (.engine sequence) blob e], none⟩ ∧
        ∀ disk : Disk, disk.files (.engine sequence) = some blob →
          io.readRecord disk sequence = .ok delta := by
  rw [writeEngine]
  rcases hencode : io.formats.encodeDelta delta with e | plain
  · exact .inl ⟨_, rfl⟩
  rcases hsealed : io.dek.sealed io.aead nonce plain (journalAad io.id sequence) with e | blob
  · exact .inl ⟨e, by simp only [hsealed]⟩
  refine .inr ⟨blob, ⟨.failed, "this device's history could not be written"⟩, ?_, ?_⟩
  · simp only [hsealed]
  · intro disk hfile
    exact readRecord_of_sealed haead hformats hencode hsealed hfile

/-- `write` gives up before its first effect, or writes a generation that reads back, the
pointer and the cleanup. -/
theorem write_cases {io : Io B V S} (haead : io.aead.Lawful) (hformats : io.formats.Lawful)
    (nonce : Nonce) (pointer : Pointer) (snapshot : S) :
    (∃ e, io.write nonce pointer snapshot = ⟨[], some e⟩) ∨
      ∃ state manifest e, io.write nonce pointer snapshot =
          ⟨.write (.state pointer.generation) state e ::
            .write (.manifest pointer.generation) manifest e ::
            io.commitPointer pointer :: cleanup pointer.generation, none⟩ ∧
        ∀ disk : Disk, disk.files (.state pointer.generation) = some state →
          disk.files (.manifest pointer.generation) = some manifest →
          io.readGeneration disk pointer.generation = some snapshot := by
  rw [write]
  rcases hencode : io.formats.encodeSnapshot snapshot with e | plain
  · exact .inl ⟨_, rfl⟩
  rcases hsealed : io.dek.sealed io.aead nonce plain (utf8 io.id) with e | state
  · exact .inl ⟨e, by simp only [hsealed]⟩
  rcases hmanifest : io.formats.encodeManifest ⟨pointer.generation, io.formats.digest state⟩
    with e | manifest
  · exact .inl ⟨_, by simp only [hsealed, hmanifest]; rfl⟩
  refine .inr ⟨state, manifest, ⟨.failed, "this device's state could not be written"⟩, ?_, ?_⟩
  · simp only [hsealed, hmanifest, List.cons_append, List.nil_append]
  · intro disk hstateFile hmanifestFile
    exact readGeneration_of_sealed haead hformats hencode hsealed hmanifest hstateFile
      hmanifestFile

/-- The cleanup removes nothing of the generation just committed, and goes unnoticed. -/
theorem cleanup_avoids (io : Io B V S) (pointer : Pointer) (e : DiskEffect)
    (he : e ∈ cleanup pointer.generation) :
    ¬ e.Noticed ∧ e.Avoids pointer.Reads (· = pointerKey io.id) := by
  simp only [cleanup, List.mem_flatMap, List.mem_filter, List.mem_cons, List.not_mem_nil,
    or_false, decide_eq_true_eq] at he
  obtain ⟨old, ⟨hold, hpos⟩, he⟩ := he
  have hne : old ≠ pointer.generation := by
    rcases hold with rfl | rfl <;> omega
  simp only [removeGeneration, List.mem_cons, List.not_mem_nil, or_false] at he
  rcases he with rfl | rfl
  · exact ⟨not_false, hne⟩
  · exact ⟨not_false, hne⟩

/-! ## One persist -/

/-- A program that moves the pointer: what it writes before, and what it removes after. -/
structure Commits (io : Io B V S) (memory : Pointer) (p : Persist B V S)
    (pre post : List DiskEffect) : Prop where
  /-- What comes before touches nothing a load under the old pointer reads. -/
  before : ∀ e ∈ pre, e.Noticed ∧ e.Avoids memory.Reads (· = pointerKey io.id)
  /-- What comes after touches nothing a load under the new pointer reads. -/
  after : ∀ e ∈ post, ¬ e.Noticed ∧ e.Avoids (p.pointer memory).Reads (· = pointerKey io.id)
  /-- Once the pointer moves, what is written is what is committed. -/
  loads : ∀ (disk : Disk) (c : Committed B V S), c.pointer = memory → io.Loads disk c →
    io.Loads ((pre.foldl (fun s e => e.apply s) disk).setCell (pointerKey io.id)
      (some (io.formats.encodePointer (p.pointer memory)))) (c.commit p)

/-- A program whose writes beside the committed state read back as the metadata and the record of
the persist commits it. -/
theorem commits_of_written {io : Io B V S} (hformats : io.formats.Lawful) {memory : Pointer}
    {p : Persist B V S} {pre post : List DiskEffect}
    (hpre : ∀ e ∈ pre, e.Noticed ∧ e.Avoids memory.Reads (· = pointerKey io.id))
    (hpost : ∀ e ∈ post, ¬ e.Noticed ∧ e.Avoids (p.pointer memory).Reads (· = pointerKey io.id))
    (hmetadata : ∀ disk : Disk, ∀ snapshot, p.metadata = some snapshot →
      io.readGeneration ((pre.foldl (fun s e => e.apply s) disk).setCell (pointerKey io.id)
        (some (io.formats.encodePointer (p.pointer memory)))) (memory.generation + 1) =
          some snapshot)
    (hrecord : ∀ disk : Disk, ∀ delta, p.prepared = some delta →
      io.readRecord ((pre.foldl (fun s e => e.apply s) disk).setCell (pointerKey io.id)
        (some (io.formats.encodePointer (p.pointer memory)))) (memory.engineHead + 1) =
          .ok delta) :
    io.Commits memory p pre post := by
  refine ⟨hpre, hpost, fun disk c hc hload => ?_⟩
  subst hc
  refine loads_commit hformats p hload (by simp) (fun path hpath => ?_) (hmetadata disk)
    (hrecord disk)
  have hagree := agree_foldl_apply (s := disk) fun e he => (hpre e he).2
  exact hagree.files path hpath

/-- A persist either touches nothing that is committed, and is then told an error unless it had
nothing to write, or it is a program that moves the pointer. -/
theorem writePersistence_cases {io : Io B V S} (haead : io.aead.Lawful)
    (hformats : io.formats.Lawful) (memory : Pointer) (p : Persist B V S) :
    ((∀ e ∈ (io.writePersistence memory p).effects,
          e.Avoids memory.Reads (· = pointerKey io.id)) ∧
        ((io.writePersistence memory p).error = none → p.metadata = none ∧ p.prepared = none)) ∨
      ∃ pre post, io.Commits memory p pre post ∧
        io.writePersistence memory p =
          ⟨pre ++ io.commitPointer (p.pointer memory) :: post, none⟩ := by
  have hengine : ∀ blob e, (Effect.write (.engine (memory.engineHead + 1)) blob e :
      DiskEffect).Avoids memory.Reads (· = pointerKey io.id) := by
    rintro blob e ⟨-, hle⟩
    omega
  have hstate : ∀ state e, (Effect.write (.state (memory.generation + 1)) state e :
      DiskEffect).Avoids memory.Reads (· = pointerKey io.id) := by
    intro state e h
    change memory.generation + 1 = memory.generation at h
    omega
  have hmanifest : ∀ manifest e, (Effect.write (.manifest (memory.generation + 1)) manifest e :
      DiskEffect).Avoids memory.Reads (· = pointerKey io.id) := by
    intro manifest e h
    change memory.generation + 1 = memory.generation at h
    omega
  obtain ⟨metadata, prepared, recordNonce, stateNonce⟩ := p
  rcases prepared with _ | delta
  · rcases metadata with _ | snapshot
    · -- nothing to write
      left
      simp [writePersistence, Plan.andThen]
    · rcases write_cases haead hformats stateNonce
          (Persist.pointer (⟨some snapshot, none, recordNonce, stateNonce⟩ : Persist B V S) memory)
          snapshot with ⟨e, he⟩ | ⟨state, manifest, e, he, hread⟩
      · left
        simp [writePersistence, Plan.andThen, he]
      · right
        refine ⟨[.write (.state (memory.generation + 1)) state e,
          .write (.manifest (memory.generation + 1)) manifest e], _,
          commits_of_written hformats ?_ (cleanup_avoids io _) ?_ ?_, ?_⟩
        · simp only [List.forall_mem_cons, List.not_mem_nil, false_imp_iff, implies_true, and_true]
          exact ⟨⟨trivial, hstate state e⟩, ⟨trivial, hmanifest manifest e⟩⟩
        · rintro disk _ ⟨⟩
          exact hread _ (by simp [Effect.apply, Persist.pointer])
            (by simp [Effect.apply, Persist.pointer])
        · rintro disk _ ⟨⟩
        · simp only [Persist.pointer, Option.isSome_some, Option.isSome_none, if_true,
            Bool.false_eq_true, if_false, Nat.add_zero] at he
          simp [writePersistence, Plan.andThen, he, Persist.pointer]
  · rcases writeEngine_cases haead hformats recordNonce (memory.engineHead + 1) delta with
      ⟨e, he⟩ | ⟨blob, e, he, hrecord⟩
    · left
      simp [writePersistence, Plan.andThen, Persist.pointer, he]
    rcases metadata with _ | snapshot
    · right
      refine ⟨[.write (.engine (memory.engineHead + 1)) blob e], [],
        commits_of_written hformats ?_ (by simp) ?_ ?_, ?_⟩
      · simp only [List.forall_mem_cons, List.not_mem_nil, false_imp_iff, implies_true, and_true]
        exact ⟨trivial, hengine blob e⟩
      · rintro disk _ ⟨⟩
      · rintro disk _ ⟨⟩
        exact hrecord _ (by simp [Effect.apply])
      · simp [writePersistence, Plan.andThen, Persist.pointer, he]
    · rcases write_cases haead hformats stateNonce
          (Persist.pointer (⟨some snapshot, some delta, recordNonce, stateNonce⟩ : Persist B V S)
            memory) snapshot with ⟨e', he'⟩ | ⟨state, manifest, e', he', hread⟩
      · -- the record is on disk, but no pointer reaches it
        left
        simp only [Persist.pointer, Option.isSome_some, if_true] at he'
        simp [writePersistence, Plan.andThen, Persist.pointer, he, he', hengine]
      · right
        refine ⟨[.write (.engine (memory.engineHead + 1)) blob e,
          .write (.state (memory.generation + 1)) state e',
          .write (.manifest (memory.generation + 1)) manifest e'], _,
          commits_of_written hformats ?_ (cleanup_avoids io _) ?_ ?_, ?_⟩
        · simp only [List.forall_mem_cons, List.not_mem_nil, false_imp_iff, implies_true, and_true]
          exact ⟨⟨trivial, hengine blob e⟩, ⟨trivial, hstate state e'⟩,
            ⟨trivial, hmanifest manifest e'⟩⟩
        · rintro disk _ ⟨⟩
          exact hread _ (by simp [Effect.apply, Persist.pointer])
            (by simp [Effect.apply, Persist.pointer])
        · rintro disk _ ⟨⟩
          exact hrecord _ (by simp [Effect.apply])
        · simp only [Persist.pointer, Option.isSome_some, if_true] at he'
          simp [writePersistence, Plan.andThen, Persist.pointer, he, he']

end Io

/-! ## Rounds of persists and crashes -/

namespace Machine

/-- The memory of a running device names the state that is committed on its disk. -/
structure Holds (io : Io B V S) (m : Machine) (c : Committed B V S) : Prop where
  disk : io.loadJournal m.disk = .ok c
  memory : m.memory = c.pointer

/-- Booting reads the counters that are committed. -/
theorem holds_boot {io : Io B V S} (m : Machine) {disk : Disk} {c : Committed B V S}
    (h : io.Loads disk c) : (m.boot io disk).Holds io c := by
  have hload := (io.loadJournal_eq_ok_iff disk c).mpr h
  rw [boot, hload]
  exact ⟨hload, rfl⟩

/-- What becomes of one persist: the state that is committed afterwards is `c` or `c'`, and it is
`c'` if the persist was told `Ok`. -/
def Outcome (io : Io B V S) (m : Machine) (a : Attempt B V S) (c c' : Committed B V S) : Prop :=
  ∃ d, (m.persist io a).1.Holds io d ∧ (d = c ∨ d = c') ∧ ((m.persist io a).2 = true → d = c')

/-- A program that touches nothing committed leaves the committed state in place. -/
theorem loads_execute {io : Io B V S} {m : Machine} {c : Committed B V S} (h : m.Holds io c)
    {es : List DiskEffect} (hes : ∀ e ∈ es, e.Avoids m.memory.Reads (· = pointerKey io.id))
    (fates : List (Fate Bytes)) : io.Loads (execute m.disk es fates).1 c := by
  refine io.loadJournal_agree (execute_agree (fun e he => ?_) fates)
    ((io.loadJournal_eq_ok_iff _ _).mp h.disk)
  rw [← h.memory]
  exact hes e he

/-- A disk on which everything committed is in place, with the counters still in memory. -/
theorem holds_of_loads {io : Io B V S} {m : Machine} {c : Committed B V S} (h : m.Holds io c)
    {disk : Disk} (hload : io.Loads disk c) : ({ m with disk } : Machine).Holds io c :=
  ⟨(io.loadJournal_eq_ok_iff _ _).mpr hload, h.memory⟩

/-- A persist that does not get as far as the pointer. -/
theorem outcome_aside {io : Io B V S} {m : Machine} {c : Committed B V S} (h : m.Holds io c)
    (a : Attempt B V S)
    (havoid : ∀ e ∈ (io.writePersistence m.memory a.persist).effects,
      e.Avoids m.memory.Reads (· = pointerKey io.id))
    (herror : (io.writePersistence m.memory a.persist).error = none →
      a.persist.metadata = none ∧ a.persist.prepared = none) :
    Outcome io m a c (c.commit a.persist) := by
  have hload := loads_execute h havoid a.fates
  rw [Outcome, persist]
  rcases hexec : execute m.disk (io.writePersistence m.memory a.persist).effects a.fates with
    ⟨disk, _ | e | _⟩
  · rw [hexec] at hload
    rcases he : (io.writePersistence m.memory a.persist).error with _ | e
    · -- there was nothing to write, so committing it changes nothing
      obtain ⟨hm, hr⟩ := herror he
      have hsame : c.commit a.persist = c := by
        simp [Committed.commit, Persist.pointer, hm, hr]
      have hmem : a.persist.pointer m.memory = m.memory := by
        simp [Persist.pointer, hm, hr]
      simp only [hmem]
      exact ⟨c, holds_of_loads h hload, .inl rfl, fun _ => hsame.symm⟩
    · exact ⟨c, holds_of_loads h hload, .inl rfl, fun h => by cases h⟩
  · rw [hexec] at hload
    exact ⟨c, holds_of_loads h hload, .inl rfl, fun h => by cases h⟩
  · rw [hexec] at hload
    exact ⟨c, holds_boot m hload, .inl rfl, fun h => by cases h⟩

/-- A persist that moves the pointer on the way. -/
theorem outcome_commits {io : Io B V S} {m : Machine} {c : Committed B V S} (h : m.Holds io c)
    (a : Attempt B V S) {pre post : List DiskEffect}
    (hcommits : io.Commits m.memory a.persist pre post)
    (hplan : io.writePersistence m.memory a.persist =
      ⟨pre ++ io.commitPointer (a.persist.pointer m.memory) :: post, none⟩) :
    Outcome io m a c (c.commit a.persist) := by
  have hload := loads_execute h (fun e he => (hcommits.before e he).2) a.fates
  rw [Outcome, persist, hplan]
  simp only [execute_append]
  rcases hexec : execute m.disk pre a.fates with ⟨disk, _ | e | _⟩
  · -- everything before the pointer was written
    have hwritten := execute_completed (fun e he => (hcommits.before e he).1)
      (congrArg Prod.snd hexec)
    rw [hexec] at hload hwritten
    dsimp only at hload hwritten
    rcases hfates : a.fates.drop pre.length with _ | ⟨fate, fates⟩
    · exact ⟨c, holds_boot m hload, .inl rfl, fun h => by cases h⟩
    cases fate with
    | failed left => exact ⟨c, holds_boot m hload, .inl rfl, fun h => by cases h⟩
    | crashed left => exact ⟨c, holds_boot m hload, .inl rfl, fun h => by cases h⟩
    | done =>
      -- the pointer moved, so from here on only the cleanup runs
      have hpointer : (c.commit a.persist).pointer = a.persist.pointer m.memory := by
        rw [h.memory]
        rfl
      have hnew := hcommits.loads m.disk c h.memory.symm
        ((io.loadJournal_eq_ok_iff _ _).mp h.disk)
      rw [← hwritten] at hnew
      have hafter : ∀ e ∈ post,
          e.Avoids (c.commit a.persist).pointer.Reads (· = pointerKey io.id) := by
        rw [hpointer]
        exact fun e he => (hcommits.after e he).2
      have hnew' := io.loadJournal_agree (execute_agree hafter fates) hnew
      simp only [Io.commitPointer, execute, Effect.apply]
      rcases hexec' : execute (disk.setCell (pointerKey io.id)
          (some (io.formats.encodePointer (a.persist.pointer m.memory)))) post fates with
        ⟨disk', _ | e | _⟩
      · rw [hexec'] at hnew'
        exact ⟨c.commit a.persist, ⟨(io.loadJournal_eq_ok_iff _ _).mpr hnew', hpointer.symm⟩,
          .inr rfl, fun _ => rfl⟩
      · have hnever := execute_ne_failed (fun e he => (hcommits.after e he).1) fates e
          (s := disk.setCell (pointerKey io.id)
            (some (io.formats.encodePointer (a.persist.pointer m.memory))))
        exact absurd (congrArg Prod.snd hexec') hnever
      · rw [hexec'] at hnew'
        exact ⟨c.commit a.persist, holds_boot m hnew', .inr rfl, fun h => by cases h⟩
  · rw [hexec] at hload
    exact ⟨c, holds_of_loads h hload, .inl rfl, fun h => by cases h⟩
  · rw [hexec] at hload
    exact ⟨c, holds_boot m hload, .inl rfl, fun h => by cases h⟩

/-- Whatever becomes of one persist, what is committed afterwards is what was committed before or
that with the persist on top, and the latter if the persist was told `Ok`. -/
theorem persist_step {io : Io B V S} (haead : io.aead.Lawful) (hformats : io.formats.Lawful)
    {m : Machine} {c : Committed B V S} (h : m.Holds io c) (a : Attempt B V S) :
    Outcome io m a c (c.commit a.persist) := by
  rcases Io.writePersistence_cases haead hformats m.memory a.persist with
    ⟨havoid, herror⟩ | ⟨pre, post, hcommits, hplan⟩
  · exact outcome_aside h a havoid herror
  · exact outcome_commits h a hcommits hplan

/-- Some committed state is on disk, and the memory names it. -/
def Recoverable (io : Io B V S) (m : Machine) : Prop :=
  ∃ c, m.Holds io c

theorem recoverable_step {io : Io B V S} (haead : io.aead.Lawful) (hformats : io.formats.Lawful)
    (m : Machine) (a : Attempt B V S) (h : m.Recoverable io) : (m.step io a).Recoverable io := by
  obtain ⟨c, h⟩ := h
  obtain ⟨c', h', -⟩ := persist_step haead hformats h a
  exact ⟨c', h'⟩

/-- Start from any committed state that loads, and run any persists under any fates, booting
again after every crash. At every point what is on disk loads without an error, the counters in
memory are those that are committed, and whatever becomes of the next persist, a load answers
exactly the state committed before it or exactly the one it was committing, and the latter if the
persist was told `Ok`. -/
theorem load_after_persists {io : Io B V S} (haead : io.aead.Lawful)
    (hformats : io.formats.Lawful) (sha : Sha256) (m₀ : Machine) (c₀ : Committed B V S)
    (h₀ : m₀.Holds io c₀) (attempts : List (Attempt B V S)) (a : Attempt B V S) :
    let m := Transition.run (step io) m₀ attempts
    ∃ c, m.Holds io c ∧ io.load sha m.disk = .ok (c.loaded sha) ∧
      ∃ c', (m.step io a).Holds io c' ∧
        io.load sha (m.step io a).disk = .ok (c'.loaded sha) ∧
        (c' = c ∨ c' = c.commit a.persist) ∧
        ((m.persist io a).2 = true → c' = c.commit a.persist) := by
  intro m
  have hinv : m.Recoverable io :=
    Transition.run_preserves (recoverable_step haead hformats) ⟨c₀, h₀⟩ attempts
  obtain ⟨c, h⟩ := hinv
  obtain ⟨c', h', hcases, hok⟩ := persist_step haead hformats h a
  refine ⟨c, h, ?_, c', h', ?_, hcases, hok⟩
  · rw [Io.load, h.disk]
    rfl
  · rw [Io.load, step, h'.disk]
    rfl

end Machine

/-! ## A device to run it on

An authenticated encryption that appends its key, nonce and associated data as the tag, and
formats that write counters in unary and know one record, are enough to run a device. -/

/-- Append the tag; strip it only if it is the expected one. -/
def tagAead : Aead where
  encrypt key nonce plain aad := some (plain ++ (key ++ nonce ++ aad))
  decrypt key nonce ct aad :=
    if key ++ nonce ++ aad <:+ ct then some (ct.take (ct.length - (key ++ nonce ++ aad).length))
    else none

theorem tagAead_lawful : tagAead.Lawful where
  decrypt_encrypt := by
    rintro key nonce plain aad _ ⟨⟩
    simp [tagAead]

/-- A record that changes nothing. -/
def emptyDelta : EngineDelta Unit Unit := ⟨⟨[], none, none⟩, []⟩

/-- The characters of a byte string. -/
def latin1 (bytes : Bytes) : String :=
  String.ofList (bytes.map fun b => Char.ofNat b.toNat)

/-- Counters in unary, texts in Latin-1, the metadata as it is and one known record. -/
def unaryFormats : Formats Unit Unit Bytes where
  encodeSnapshot := .ok
  decodeSnapshot := some
  encodeManifest m :=
    if m.sha256 = latin1 (m.sha256.toList.map fun c => UInt8.ofNat c.toNat) then
      .ok (List.replicate m.generation 0 ++
        1 :: m.sha256.toList.map fun c => UInt8.ofNat c.toNat)
    else .error "not Latin-1"
  decodeManifest bytes :=
    some ⟨bytes.idxOf 1, latin1 (bytes.drop (bytes.idxOf 1 + 1))⟩
  encodePointer p := List.replicate p.generation 0 ++ 1 :: List.replicate p.engineHead 0
  decodePointer bytes := some ⟨bytes.idxOf 1, bytes.length - (bytes.idxOf 1 + 1)⟩
  encodeDelta d := if d = emptyDelta then .ok [] else .error "unknown record"
  decodeDelta _ := some emptyDelta
  digest := latin1

theorem idxOf_replicate_append (n : ℕ) (rest : Bytes) :
    (List.replicate n 0 ++ 1 :: rest).idxOf 1 = n := by
  induction n with
  | zero => simp
  | succ n ih =>
    rw [List.replicate_succ, List.cons_append, List.idxOf_cons_ne _ (by decide), ih]

theorem unaryFormats_lawful : unaryFormats.Lawful where
  snapshot := by
    rintro snapshot _ ⟨⟩
    rfl
  manifest := by
    intro manifest bytes h
    obtain ⟨generation, sha⟩ := manifest
    simp only [unaryFormats] at h
    split_ifs at h with htext
    cases h
    have hdrop : (List.replicate generation (0 : UInt8) ++
        1 :: sha.toList.map fun c => UInt8.ofNat c.toNat).drop (generation + 1) =
          sha.toList.map fun c => UInt8.ofNat c.toNat := by
      rw [List.drop_append]
      simp
    simp only [unaryFormats, idxOf_replicate_append, hdrop, ← htext]
  pointer := by
    rintro ⟨generation, head⟩
    simp only [unaryFormats, idxOf_replicate_append, List.length_append, List.length_replicate,
      List.length_cons]
    congr 2
    omega
  delta := by
    intro delta bytes h
    simp only [unaryFormats] at h
    split_ifs at h with hdelta
    rw [hdelta]
    rfl

/-- A data key of zeros. -/
def zeroDek : Dek := ⟨List.replicate dekLen 0, List.length_replicate⟩

/-- A nonce of zeros. -/
def zeroNonce : Nonce := ⟨List.replicate nonceLen 0, length_zeros⟩

/-- The device `d`. -/
def exampleIo : Io Unit Unit Bytes := ⟨tagAead, unaryFormats, zeroDek, "d"⟩

/-- A disk nothing was ever written to. -/
def emptyDisk : Disk := ⟨fun _ => none, fun _ => none⟩

/-- A checkpoint of metadata and one record, under the given fates. -/
def exampleAttempt (fates : List (Fate Bytes)) : Attempt Unit Unit Bytes :=
  ⟨⟨some [1, 2], some emptyDelta, zeroNonce, zeroNonce⟩, fates⟩

/-- One checkpoint goes through, the next one fails at its state file. -/
def exampleRun : Machine :=
  Transition.run (Machine.step exampleIo) ⟨emptyDisk, {}⟩
    [exampleAttempt (List.replicate 4 .done), exampleAttempt [.done, .failed (some [9])]]

/-- The checkpoint after that stops while its manifest is being written. -/
theorem load_after_persists_torn_manifest :
    ∃ c, exampleRun.Holds exampleIo c ∧
      exampleIo.load (fun _ => 0) exampleRun.disk = .ok (c.loaded fun _ => 0) ∧
      ∃ c', (exampleRun.step exampleIo
          (exampleAttempt [.done, .done, .crashed (some [9])])).Holds exampleIo c' ∧
        exampleIo.load (fun _ => 0) (exampleRun.step exampleIo
          (exampleAttempt [.done, .done, .crashed (some [9])])).disk =
            .ok (c'.loaded fun _ => 0) ∧
        (c' = c ∨ c' = c.commit (exampleAttempt []).persist) ∧
        ((exampleRun.persist exampleIo
          (exampleAttempt [.done, .done, .crashed (some [9])])).2 = true →
            c' = c.commit (exampleAttempt []).persist) :=
  Machine.load_after_persists tagAead_lawful unaryFormats_lawful (fun _ => 0) ⟨emptyDisk, {}⟩ {}
    ⟨rfl, rfl⟩
    [exampleAttempt (List.replicate 4 .done), exampleAttempt [.done, .failed (some [9])]]
    (exampleAttempt [.done, .done, .crashed (some [9])])

end Polyvisor
