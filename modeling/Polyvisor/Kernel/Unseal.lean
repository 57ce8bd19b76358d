import Polyvisor.Kernel.Checkpoint

/-!
# The counters of an open device

`unseal`, `persist`, `write_persistence` and `erase` of `kernel/src/lib.rs`, and the adoption of
`kernel/src/pairing.rs` that holds the persistence lock over its own `write_persistence`, one
step for each stretch between two awaits. Every other exported call reaches the two counters
through `persist` only, so `keep`, the mutations and the background persists are all the label
`persist`.

`unseal` checks that the device is sealed, awaits the load, and then installs the pointer the
load read, without a second check and without the persistence lock. Two calls that both found
the device sealed therefore install one after the other.

## Main results

* `Inv`: the invariant, and `inv_step`: every step keeps it in which no unseal installs a
  pointer that has been overtaken.
* `committed_history_grows`: in a run of such steps the committed pointer never decreases, no
  committed record is rewritten and an open device counts from the committed pointer.
* `overtaken_unseal_regresses`: a run with an overtaken unseal in which all three fail.
-/

namespace Polyvisor

/-- Both counters are at most the other's. -/
instance : LE Pointer where
  le p q := p.generation ≤ q.generation ∧ p.engineHead ≤ q.engineHead

instance (p q : Pointer) : Decidable (p ≤ q) :=
  inferInstanceAs (Decidable (_ ∧ _))

theorem Pointer.le_refl (p : Pointer) : p ≤ p := ⟨Nat.le_refl _, Nat.le_refl _⟩

/-- What one run of `write_persistence` read before its first write. -/
structure Commit where
  /-- Whether it writes a metadata generation. -/
  metadata : Bool
  /-- Whether the engine prepared a record. -/
  prepared : Bool
  /-- The pointer it will commit. -/
  pointer : Pointer
  deriving DecidableEq, Repr

/-- How far the holder of the persistence lock got. -/
inductive Writer where
  /-- It awaits `prepare_persistence`. -/
  | preparing (metadata : Bool)
  /-- It is about to write the record, the generation, or the pointer. -/
  | record (commit : Commit)
  | generation (commit : Commit)
  | pointer (commit : Commit)
  /-- The pointer landed, the counters in memory are next. -/
  | acknowledge (commit : Commit)
  /-- `erase` removes the namespace, and then has removed it. -/
  | erasing
  | removed
  deriving DecidableEq, Repr

/-- The fields of the kernel that the counters depend on, and the calls in flight. -/
structure Kernel where
  erased : Bool := false
  -- whether `DeviceState::dek` is `Some`
  dek : Bool
  memory : Pointer := {}
  adopting : Bool := false
  -- the key/value cell that commits
  committed : Option Pointer
  -- the holder of `persistence_write`
  writer : Option Writer := none
  -- the calls of `unseal` past their first check, with the pointer each has loaded
  unseals : List (Option Pointer) := []
  deriving DecidableEq, Repr

/-- What can happen next. -/
inductive KernelLabel where
  /-- `unseal` is called. -/
  | beginUnseal (passphraseOpens : Bool)
  /-- The load of an unseal in flight reads the pointer. -/
  | load (task : ℕ)
  /-- An unseal in flight fails. -/
  | refuse (task : ℕ)
  /-- An unseal in flight installs what it loaded. -/
  | install (task : ℕ)
  /-- `persist` gets the lock. -/
  | persist (metadata : Bool)
  /-- A pairing gets the lock and starts to adopt an identity. -/
  | adopt
  /-- `prepare_persistence` answers. -/
  | prepare (prepared : Bool)
  /-- The holder of the lock gives up before its first write. -/
  | giveUp
  /-- The next write of the holder of the lock lands, or is reported as failed. -/
  | write (ok : Bool)
  /-- `erase` gets the lock. -/
  | erase
  /-- `erase` takes its next step. -/
  | destroy
  /-- The process stops and boots again. -/
  | reboot (passphrase : Bool)
  deriving DecidableEq, Repr

namespace Kernel

/-- The gate `open`. -/
def isOpen (k : Kernel) : Bool := !k.erased && k.dek

/-- `state() == State::Sealed`. -/
def isSealed (k : Kernel) : Bool := !k.erased && !k.dek

/-- The counters of an open device. Between the pointer's write and the acknowledgement, the
persist that made it holds them. -/
def counters (k : Kernel) : Pointer :=
  match k.writer with
  | some (.acknowledge commit) => commit.pointer
  | _ => k.memory

/-- What `write_persistence` reads once the engine answered. -/
def commitOf (k : Kernel) (metadata prepared : Bool) : Commit where
  metadata := metadata
  prepared := prepared
  pointer :=
    { generation := k.memory.generation + metadata.toNat
      engineHead := k.memory.engineHead + prepared.toNat }

/-- The next write of the holder of the lock. -/
def writeNext (k : Kernel) (ok : Bool) : Kernel :=
  match k.writer with
  | some (.record commit) =>
    if commit.prepared && !ok then { k with writer := none }
    else { k with writer := some (.generation commit) }
  | some (.generation commit) =>
    if commit.metadata && !ok then { k with writer := none }
    else { k with writer := some (.pointer commit) }
  | some (.pointer commit) =>
    if commit.metadata || commit.prepared then
      { k with committed := some commit.pointer, writer := some (.acknowledge commit) }
    else { k with writer := some (.acknowledge commit) }
  | some (.acknowledge commit) =>
    { k with memory := commit.pointer, writer := none, adopting := false }
  | _ => k

/-- One step of the kernel. A label that does not apply changes nothing. -/
def step (k : Kernel) : KernelLabel → Kernel
  | .beginUnseal passphraseOpens =>
    if k.isSealed && passphraseOpens then { k with unseals := k.unseals ++ [none] } else k
  | .load task =>
    match k.unseals[task]? with
    | some none => { k with unseals := k.unseals.set task (some (k.committed.getD {})) }
    | _ => k
  | .refuse task => { k with unseals := k.unseals.eraseIdx task }
  | .install task =>
    match k.unseals[task]? with
    | some (some pointer) =>
      -- a device without a generation has no anchor, and `open_or_mint` refuses it
      if pointer.generation = 0 then k
      else { k with memory := pointer, dek := true, unseals := k.unseals.eraseIdx task }
    | _ => k
  | .persist metadata =>
    if k.writer.isNone && k.isOpen && !k.adopting then
      { k with writer := some (.preparing metadata) }
    else k
  | .adopt =>
    if k.writer.isNone && k.isOpen && !k.adopting then
      { k with writer := some (.preparing true), adopting := true }
    else k
  | .prepare prepared =>
    match k.writer with
    | some (.preparing metadata) =>
      { k with writer := some (.record (k.commitOf metadata prepared)) }
    | _ => k
  | .giveUp =>
    match k.writer with
    | some (.preparing _) | some .erasing => { k with writer := none }
    | _ => k
  | .write ok => k.writeNext ok
  | .erase => if k.writer.isNone && !k.erased then { k with writer := some .erasing } else k
  | .destroy =>
    match k.writer with
    | some .erasing => { k with committed := none, writer := some .removed }
    | some .removed => { k with erased := true, dek := false, writer := none }
    | _ => k
  | .reboot passphrase =>
    { dek := !passphrase
      memory := if passphrase then {} else k.committed.getD {}
      committed := k.committed }

/-- A kernel that has just booted: sealed with no counters, or open with the committed ones. -/
structure Booted (k : Kernel) : Prop where
  memory : k.dek = true → k.memory = k.committed.getD {}
  erased : k.erased = false
  writer : k.writer = none
  unseals : k.unseals = []

/-- The record file the step writes to, whether the write lands or not. -/
def recordWritten (k : Kernel) : KernelLabel → Option ℕ
  | .write _ =>
    match k.writer with
    | some (.record commit) => if commit.prepared then some commit.pointer.engineHead else none
    | _ => none
  | _ => none

/-- What must not happen to the committed history, in a state and in the step from it. -/
structure Grows (k : Kernel) (l : KernelLabel) : Prop where
  /-- An open device does not count from below the committed pointer. -/
  counters : k.isOpen = true → ∀ q ∈ k.committed, q ≤ k.counters
  /-- The committed pointer does not decrease. -/
  pointer : ∀ q ∈ k.committed, ∀ q' ∈ (k.step l).committed, q ≤ q'
  /-- No committed record is written to. -/
  record : ∀ q ∈ k.committed, ∀ n ∈ k.recordWritten l, q.engineHead < n

/-- An unseal that installs a pointer finds it still committed. -/
def InstallsCommitted (k : Kernel) : KernelLabel → Prop
  | .install task => ∀ p, k.unseals[task]? = some (some p) → ∀ q ∈ k.committed, p = q
  | _ => True

/-! ## The invariant -/

/-- What the holder of the lock knows. -/
def WriterInv (k : Kernel) : Option Writer → Prop
  | none | some .erasing => True
  | some (.preparing _) => k.isOpen = true
  | some (.record commit) | some (.generation commit) | some (.pointer commit) =>
    k.isOpen = true ∧ ∀ q ∈ k.committed,
      commit.pointer = ⟨q.generation + commit.metadata.toNat, q.engineHead + commit.prepared.toNat⟩
  | some (.acknowledge commit) => k.isOpen = true ∧ ∀ q ∈ k.committed, q = commit.pointer
  | some .removed => k.committed = none

/-- The invariant of every run without an overtaken unseal. -/
structure Inv (k : Kernel) : Prop where
  /-- An open device counts from the committed pointer. -/
  counters : k.isOpen = true → ∀ q ∈ k.committed, k.counters = q
  writer : k.WriterInv k.writer

theorem inv_booted {k : Kernel} (h : k.Booted) : k.Inv := by
  refine ⟨fun hopen q hq => ?_, by rw [h.writer]; trivial⟩
  have hdek : k.dek = true := by
    simp only [isOpen, Bool.and_eq_true] at hopen
    exact hopen.2
  rw [Option.mem_def] at hq
  rw [counters, h.writer, h.memory hdek, hq]
  rfl

/-- Only the gates of an open device are passed. -/
theorem isOpen_of_gate {k : Kernel} (h : (k.writer.isNone && k.isOpen && !k.adopting) = true) :
    k.writer = none ∧ k.isOpen = true := by
  simp only [Bool.and_eq_true, Option.isNone_iff_eq_none] at h
  exact h.1

/-- What the holder of the lock knows outlives any change that neither closes the device nor
moves the pointer. -/
theorem WriterInv.mono {k k' : Kernel} (hopen : k.isOpen = true → k'.isOpen = true)
    (hcommitted : k'.committed = k.committed) {w : Option Writer} (h : k.WriterInv w) :
    k'.WriterInv w := by
  rcases w with _ | w
  · trivial
  cases w with
  | preparing metadata => exact hopen h
  | record commit => exact ⟨hopen h.1, hcommitted ▸ h.2⟩
  | generation commit => exact ⟨hopen h.1, hcommitted ▸ h.2⟩
  | pointer commit => exact ⟨hopen h.1, hcommitted ▸ h.2⟩
  | acknowledge commit => exact ⟨hopen h.1, hcommitted ▸ h.2⟩
  | erasing => trivial
  | removed => exact hcommitted.trans h

theorem inv_install {k : Kernel} {p : Pointer} {task : ℕ} (hinv : k.Inv)
    (hp : ∀ q ∈ k.committed, p = q) :
    ({ k with memory := p, dek := true, unseals := k.unseals.eraseIdx task } : Kernel).Inv := by
  obtain ⟨-, hwriter⟩ := hinv
  refine ⟨fun _ q hq => ?_, WriterInv.mono (fun h => ?_) ?_ hwriter⟩
  · -- a persist past its pointer holds the counters already
    rcases hw : k.writer with _ | w
    · exact hp q hq
    cases w with
    | acknowledge commit =>
      rw [hw] at hwriter
      exact (hwriter.2 q hq).symm
    | _ => exact hp q hq
  · simp only [isOpen, Bool.and_eq_true] at h ⊢
    exact ⟨h.1, trivial⟩
  · rfl

theorem inv_writeNext {k : Kernel} (ok : Bool) (hinv : k.Inv) : (k.writeNext ok).Inv := by
  have ⟨hcounters, hwriter⟩ := hinv
  rw [writeNext]
  rcases hw : k.writer with _ | w
  · exact hinv
  rw [counters, hw] at hcounters
  rw [hw] at hwriter
  cases w with
  | record commit =>
    dsimp only
    split
    · exact ⟨hcounters, trivial⟩
    · exact ⟨hcounters, hwriter⟩
  | generation commit =>
    dsimp only
    split
    · exact ⟨hcounters, trivial⟩
    · exact ⟨hcounters, hwriter⟩
  | pointer commit =>
    dsimp only
    split
    · refine ⟨?_, hwriter.1, ?_⟩
      · rintro - q ⟨⟩
        rfl
      · rintro q ⟨⟩
        rfl
    next hnothing =>
      -- neither a generation nor a record, so the pointer it read is the one committed
      have hsame : ∀ q ∈ k.committed, q = commit.pointer := by
        intro q hq
        simp only [Bool.or_eq_true, not_or, Bool.not_eq_true] at hnothing
        rw [hwriter.2 q hq, hnothing.1, hnothing.2]
        rfl
      exact ⟨fun _ q hq => (hsame q hq).symm, hwriter.1, hsame⟩
  | acknowledge commit =>
    exact ⟨fun _ q hq => (hwriter.2 q hq).symm, trivial⟩
  | preparing metadata => exact hinv
  | erasing => exact hinv
  | removed => exact hinv

/-- Every step keeps the invariant in which no unseal installs a pointer that was overtaken. -/
theorem inv_step (k : Kernel) (l : KernelLabel) (hl : k.InstallsCommitted l) (hinv : k.Inv) :
    (k.step l).Inv := by
  cases l with
  | beginUnseal passphraseOpens =>
    rw [step]
    split
    · exact ⟨hinv.counters, hinv.writer⟩
    · exact hinv
  | load task =>
    rw [step]
    split
    · exact ⟨hinv.counters, hinv.writer⟩
    · exact hinv
  | refuse task => exact ⟨hinv.counters, hinv.writer⟩
  | install task =>
    rw [step]
    split
    next p htask =>
      split
      · exact hinv
      · exact inv_install hinv (hl p htask)
    next => exact hinv
  | persist metadata =>
    rw [step]
    split
    next hgate =>
      obtain ⟨hw, hopen⟩ := isOpen_of_gate hgate
      refine ⟨fun _ q hq => ?_, hopen⟩
      rw [← hinv.counters hopen q hq, counters, counters, hw]
    next => exact hinv
  | adopt =>
    rw [step]
    split
    next hgate =>
      obtain ⟨hw, hopen⟩ := isOpen_of_gate hgate
      refine ⟨fun _ q hq => ?_, hopen⟩
      rw [← hinv.counters hopen q hq, counters, counters, hw]
    next => exact hinv
  | prepare prepared =>
    rw [step]
    split
    next metadata hw =>
      have hopen : k.isOpen = true := by
        have hwriter := hinv.writer
        rw [hw] at hwriter
        exact hwriter
      have hmemory : ∀ q ∈ k.committed, k.memory = q := by
        intro q hq
        rw [← hinv.counters hopen q hq, counters, hw]
      refine ⟨fun _ q hq => hmemory q hq, hopen, fun q hq => ?_⟩
      rw [← hmemory q hq]
      rfl
    next => exact hinv
  | giveUp =>
    rw [step]
    split
    next metadata hw =>
      refine ⟨fun hopen q hq => ?_, trivial⟩
      rw [← hinv.counters hopen q hq, counters, counters, hw]
    next hw =>
      refine ⟨fun hopen q hq => ?_, trivial⟩
      rw [← hinv.counters hopen q hq, counters, counters, hw]
    next => exact hinv
  | write ok => exact inv_writeNext ok hinv
  | erase =>
    rw [step]
    split
    next hgate =>
      simp only [Bool.and_eq_true, Option.isNone_iff_eq_none] at hgate
      refine ⟨fun hopen q hq => ?_, trivial⟩
      rw [← hinv.counters hopen q hq, counters, counters, hgate.1]
    next => exact hinv
  | destroy =>
    rw [step]
    split
    · refine ⟨fun _ q hq => ?_, rfl⟩
      cases hq
    · refine ⟨fun hopen => ?_, trivial⟩
      cases hopen
    · exact hinv
  | reboot passphrase =>
    refine inv_booted ⟨fun hdek => ?_, rfl, rfl, rfl⟩
    cases passphrase
    · rfl
    · cases hdek

/-! ## Committed history -/

/-- Only the pointer's write and `erase` touch the committed pointer. -/
theorem committed_step {k : Kernel} {l : KernelLabel} (hinv : k.Inv) {q q' : Pointer}
    (hq : q ∈ k.committed) (hq' : q' ∈ (k.step l).committed) : q ≤ q' := by
  have hself : ∀ {r : Pointer}, r ∈ k.committed → q ≤ r := by
    intro r hr
    rw [Option.mem_unique hq hr]
    exact r.le_refl
  have hwriter := hinv.writer
  cases l with
  | write ok =>
    rw [step, writeNext] at hq'
    rcases hw : k.writer with _ | w
    · rw [hw] at hq'
      exact hself hq'
    rw [hw] at hq' hwriter
    cases w with
    | pointer commit =>
      dsimp only at hq'
      split at hq'
      · cases hq'
        rw [hwriter.2 q hq]
        exact ⟨Nat.le_add_right _ _, Nat.le_add_right _ _⟩
      · exact hself hq'
    | record commit =>
      dsimp only at hq'
      split at hq' <;> exact hself hq'
    | generation commit =>
      dsimp only at hq'
      split at hq' <;> exact hself hq'
    | _ => exact hself hq'
  | destroy =>
    rw [step] at hq'
    split at hq'
    · cases hq'
    · exact hself hq'
    · exact hself hq'
  | refuse task => exact hself hq'
  | reboot passphrase => exact hself hq'
  | install task =>
    rw [step] at hq'
    split at hq'
    · split at hq' <;> exact hself hq'
    · exact hself hq'
  | _ =>
    rw [step] at hq'
    split at hq' <;> exact hself hq'

/-- A record is written behind the committed ones. -/
theorem recordWritten_gt {k : Kernel} {l : KernelLabel} (hinv : k.Inv) {q : Pointer}
    (hq : q ∈ k.committed) {n : ℕ} (hn : n ∈ k.recordWritten l) : q.engineHead < n := by
  cases l with
  | write ok =>
    rw [recordWritten] at hn
    split at hn
    next commit hw =>
      split at hn
      next hprepared =>
        cases hn
        have hwriter := hinv.writer
        rw [hw] at hwriter
        rw [hwriter.2 q hq, hprepared]
        exact Nat.lt_succ_self _
      next => cases hn
    next => cases hn
  | _ => cases hn

theorem grows_of_inv {k : Kernel} (l : KernelLabel) (hinv : k.Inv) : k.Grows l where
  counters hopen q hq := by
    rw [hinv.counters hopen q hq]
    exact q.le_refl
  pointer _ hq _ hq' := committed_step hinv hq hq'
  record _ hq _ hn := recordWritten_gt hinv hq hn

/-- In a run in which every unseal that installs a pointer finds it still committed, no step
takes the committed history back. -/
theorem committed_history_grows (k₀ : Kernel) (h₀ : k₀.Booted) (ls : List KernelLabel)
    (hls : Transition.Meets step InstallsCommitted k₀ ls) (l : KernelLabel) :
    (Transition.run step k₀ ls).Grows l :=
  grows_of_inv l (Transition.run_preserves_of_meets inv_step hls (inv_booted h₀))

/-- A sealed device with one generation and one record. -/
def sealedKernel : Kernel := { dek := false, committed := some ⟨1, 1⟩ }

/-- One unseal, and a mutation on its way to disk. -/
def unsealRun : List KernelLabel :=
  [.beginUnseal true, .load 0, .install 0, .persist false, .prepare true, .write true, .write true]

theorem committed_history_grows_unsealRun :
    (Transition.run step sealedKernel unsealRun).Grows (.write true) := by
  refine committed_history_grows sealedKernel ⟨fun h => ?_, rfl, rfl, rfl⟩ unsealRun ?_ _
  · cases h
  · refine ⟨trivial, trivial, ?_, trivial, trivial, trivial, trivial, trivial⟩
    rintro p ⟨⟩ q ⟨⟩
    rfl

/-- Two unseals find the device sealed and read the same pointer; the device of the first commits
two records, and then the second installs what it read. -/
def overtakenRun : List KernelLabel :=
  [.beginUnseal true, .beginUnseal true, .load 0, .load 1, .install 0,
    .persist false, .prepare true, .write true, .write true, .write true, .write true,
    .persist false, .prepare true, .write true, .write true, .write true, .write true,
    .install 0]

/-- The next persist of that device. -/
def overtakenPersist : List KernelLabel :=
  overtakenRun ++ [.persist false, .prepare true]

/-- The device counts from below the committed pointer, its next persist writes its record over a
committed one, and takes the pointer back. -/
theorem overtaken_unseal_regresses :
    sealedKernel.Booted ∧
      ¬ (∀ ls l, (Transition.run step sealedKernel ls).Grows l) ∧
      ((Transition.run step sealedKernel overtakenRun).isOpen = true ∧
        (Transition.run step sealedKernel overtakenRun).writer = none ∧
        (Transition.run step sealedKernel overtakenRun).memory = ⟨1, 1⟩ ∧
        (Transition.run step sealedKernel overtakenRun).committed = some ⟨1, 3⟩) ∧
      (Transition.run step sealedKernel overtakenPersist).recordWritten (.write true) = some 2 ∧
      (Transition.run step sealedKernel
        (overtakenPersist ++ [.write true, .write true, .write true])).committed =
          some ⟨1, 2⟩ := by
  refine ⟨⟨fun h => ?_, rfl, rfl, rfl⟩, fun hall => ?_, by decide, by decide, by decide⟩
  · cases h
  · have hlow := (hall overtakenRun (.reboot true)).counters (by decide) ⟨1, 3⟩ (by decide)
    revert hlow
    decide

end Kernel

end Polyvisor
