import Mathlib.Logic.Function.Basic
import Polyvisor.Engine.Item
import Polyvisor.Kernel.Seal
import Polyvisor.Lib.Transition

/-!
# Installing root custody

`root_backup_import` of `kernel/src/lib.rs` and `receive_root_transfer` of
`kernel/src/root_transfer.rs`, beside every other persist of the device. Both calls check a seed,
put it in memory and checkpoint; when the checkpoint fails they put back what was in memory before
and checkpoint once more. Persists take turns behind one lock. They copy the metadata once they hold
it, and a failed one may have committed all the same.

The seed of a root is a value of type `S`. The user's identity does not change in these runs.

## Main results

* `inv_step`: what memory, disk and the checkpoint under way hold around one call.
* `sim_step`: the run beside the one in which a call was never made.
* `custody_durable`: an acknowledged seed stays on disk, and a call that returns an error leaves
  custody as if it had not been made, in runs whose calls take turns and whose rollbacks reach the
  disk.
-/

namespace Polyvisor.RootCustody

variable {S : Type}

/-! ## What the calls accept -/

/-- The root and the group of the user. -/
structure Identity where
  root : Bytes32
  group : Bytes32
  deriving DecidableEq

/-- What a call is given, once its transport or its envelope was read. -/
inductive Request (S : Type) where
  /-- `Frame::Transfer`, or any other frame or none. -/
  | transfer (frame : Option (Identity × S))
  /-- The identity an envelope is for, and what it opens to under the passphrase. -/
  | backup (header : Identity) (opened : Option S)

/-- The checks of `receive_root_transfer` and of `root_backup_import`. -/
def accept (publicKey : S → Bytes32) (identity : Identity) : Request S → Except Error S
  | .transfer none => .error ⟨.refused, "invalid root transfer frame"⟩
  | .transfer (some (named, seed)) =>
    if named = identity ∧ publicKey seed = identity.root then .ok seed
    else .error ⟨.refused, "transferred custody does not match this user's identity"⟩
  | .backup header opened =>
    if header ≠ identity then .error ⟨.refused, "that backup is not for this user"⟩
    else
      match opened with
      | none => .error ⟨.refused, "that backup did not open for this user"⟩
      | some seed =>
        if publicKey seed = header.root then .ok seed
        else .error ⟨.refused, "that backup did not open for this user"⟩

theorem publicKey_of_accept {publicKey : S → Bytes32} {identity : Identity} {request : Request S}
    {seed : S} (h : accept publicKey identity request = .ok seed) :
    publicKey seed = identity.root := by
  rcases request with (_ | ⟨named, offered⟩) | ⟨header, _ | opened⟩ <;> simp only [accept] at h
  · exact nomatch h
  · split at h
    · next hsame =>
      obtain rfl := Except.ok.inj h
      exact hsame.2
    · exact nomatch h
  · split at h
    · exact nomatch h
    · exact nomatch h
  · split at h
    · exact nomatch h
    next hheader =>
    split at h
    · next hkey =>
      obtain rfl := Except.ok.inj h
      rw [hkey, not_ne_iff.1 hheader]
    · exact nomatch h

/-! ## The machine -/

/-- Where a call stands. -/
inductive Call (S : Type) where
  | idle
  /-- Its seed is in memory, and it waits for its checkpoint. -/
  | saving (previous : Option S)
  /-- Its checkpoint failed, the seed before is back in memory, and it waits for the second one. -/
  | rolling (previous : Option S)
  | returned (ok : Bool)

/-- Between its install and its answer. -/
def Call.Running : Call S → Prop
  | .saving _ | .rolling _ => True
  | .idle | .returned _ => False

/-- Whose persist it is. Any other persist commits the metadata or leaves it as it is. -/
inductive Owner where
  | call (id : ℕ)
  | other (metadata : Bool)
  deriving DecidableEq

/-- The persist that holds the lock, and the custody it copied. -/
structure Writer (S : Type) where
  owner : Owner
  snapshot : Option (Option S) := none

structure Device (S : Type) where
  memory : Option S
  committed : Option S
  writer : Option (Writer S) := none
  calls : ℕ → Call S := fun _ => .idle

/-- How a persist ends. A failed one may still have moved the pointer. -/
inductive Outcome where
  | ok
  | failed (landed : Bool)
  deriving DecidableEq

/-- Whether the pointer was moved. -/
def Outcome.Lands : Outcome → Prop
  | .ok => True
  | .failed landed => landed

instance (outcome : Outcome) : Decidable outcome.Lands :=
  match outcome with
  | .ok => inferInstanceAs (Decidable True)
  | .failed landed => inferInstanceAs (Decidable (landed = true))

inductive Label (S : Type) where
  /-- A call is given its request: it is refused or installs its seed. -/
  | begin (id : ℕ) (request : Request S)
  /-- A persist gets the lock. -/
  | lock (owner : Owner)
  /-- It prepares the journal record and copies the metadata. -/
  | copy (owner : Owner)
  /-- It ends, and whose it is goes on. -/
  | finish (owner : Owner) (outcome : Outcome)

/-- Whose step it is. -/
def Label.owner : Label S → Owner
  | .begin id _ => .call id
  | .lock owner | .copy owner | .finish owner _ => owner

namespace Device

variable (publicKey : S → Bytes32) (identity : Identity)

/-- A call up to its first checkpoint. -/
def begin (e : Device S) (id : ℕ) (request : Request S) : Device S :=
  match accept publicKey identity request with
  | .error _ => { e with calls := Function.update e.calls id (.returned false) }
  | .ok seed =>
    -- `install_root_seed`, which remembers what it replaces
    { e with
      memory := some seed
      calls := Function.update e.calls id (.saving e.memory) }

/-- What the end of a persist moves onto the disk. -/
def land (e : Device S) (w : Writer S) (outcome : Outcome) : Device S :=
  match w.snapshot with
  | none => e
  | some custody =>
    if outcome.Lands ∧ w.owner ≠ .other false then { e with committed := custody } else e

/-- What a call does when its checkpoint returns. -/
def resume (e : Device S) (owner : Owner) (outcome : Outcome) : Device S :=
  match owner with
  | .other _ => e
  | .call id =>
    match e.calls id, outcome with
    | .saving _, .ok => { e with calls := Function.update e.calls id (.returned true) }
    | .saving previous, .failed _ =>
      { e with
        memory := previous
        calls := Function.update e.calls id (.rolling previous) }
    -- how the second checkpoint ended is not looked at
    | .rolling _, _ => { e with calls := Function.update e.calls id (.returned false) }
    | _, _ => e

/-- The end of a persist. -/
def finish (e : Device S) (w : Writer S) (outcome : Outcome) : Device S :=
  { e.land w outcome with writer := none }.resume w.owner outcome

/-- Whether a label can be taken. -/
def Enabled (e : Device S) : Label S → Prop
  | .begin id _ => e.calls id = .idle
  | .lock owner => e.writer.isNone ∧ ∀ id, owner = .call id → (e.calls id).Running
  | .copy owner => ∃ w, e.writer = some w ∧ w.owner = owner ∧ w.snapshot = none
  | .finish owner outcome => ∃ w, e.writer = some w ∧ w.owner = owner ∧
      (outcome.Lands → w.snapshot.isSome)

/-- One step. -/
def step (e : Device S) : Label S → Device S
  | .begin id request => e.begin publicKey identity id request
  | .lock owner => { e with writer := some { owner } }
  | .copy owner => { e with writer := some { owner, snapshot := some e.memory } }
  | .finish _ outcome =>
    match e.writer with
    | none => e
    | some w => e.finish w outcome

end Device

/-! ## What a run keeps -/

variable {publicKey : S → Bytes32} {identity : Identity}

/-- The seed of the identity's root is held. -/
def Valid (publicKey : S → Bytes32) (identity : Identity) (custody : Option S) : Prop :=
  ∃ seed, custody = some seed ∧ publicKey seed = identity.root

/-- No call is between its install and its answer. -/
def Device.Quiet (e : Device S) : Prop :=
  ∀ id, ¬ (e.calls id).Running

/-- The condition on a step: an installing call finds no other one running, and a call whose
checkpoint failed does not return while something else than the custody it put back is on disk and
its second checkpoint does not reach the disk either. -/
def Calm (publicKey : S → Bytes32) (identity : Identity) (e : Device S) : Label S → Prop
  | .begin _ request => (∃ seed, accept publicKey identity request = .ok seed) → e.Quiet
  | .finish (.call id) outcome => ∀ previous, e.calls id = .rolling previous →
      outcome.Lands ∨ e.committed = previous
  | _ => True

/-- What memory, disk and the copied metadata hold while the call that is running stands at `call`.
-/
def Around (publicKey : S → Bytes32) (identity : Identity) (e : Device S) : Call S → Prop
  | .saving previous => Valid publicKey identity e.memory ∧
      (e.committed = previous ∨ e.committed = e.memory) ∧
      ∀ w ∈ e.writer, ∀ custody ∈ w.snapshot, custody = previous ∨ custody = e.memory
  | .rolling previous => e.memory = previous ∧
      (e.committed = previous ∨ Valid publicKey identity e.committed) ∧
      ∀ w ∈ e.writer, ∀ custody ∈ w.snapshot, custody = previous
  | .idle | .returned _ => e.memory = e.committed ∧
      ∀ w ∈ e.writer, ∀ custody ∈ w.snapshot, custody = e.memory

/-- The call whose turn it is. -/
def Device.current (e : Device S) (turn : Option ℕ) : Call S :=
  turn.elim .idle e.calls

/-- Calls take turns, and the state is as the call whose turn it is left it. -/
structure Inv (publicKey : S → Bytes32) (identity : Identity) (e : Device S) (turn : Option ℕ) :
    Prop where
  turns : ∀ id, (e.calls id).Running ↔ turn = some id
  writer : ∀ w ∈ e.writer, ∀ id, w.owner = .call id → turn = some id
  /-- A call that checkpoints commits what it installed, or what it put back. -/
  own : ∀ w ∈ e.writer, ∀ id, w.owner = .call id → ∀ custody ∈ w.snapshot, custody = e.memory
  around : Around publicKey identity e (e.current turn)
  /-- Once a call returned `Ok`, the root is held. -/
  acknowledged : (∃ id, e.calls id = .returned true) →
    Valid publicKey identity e.memory ∧ Valid publicKey identity e.committed ∧
      ∀ previous, e.current turn = .saving previous → Valid publicKey identity previous

theorem inv_start (custody : Option S) :
    Inv publicKey identity { memory := custody, committed := custody } none where
  turns _ := ⟨False.elim, fun h => nomatch h⟩
  writer _ h := nomatch h
  own _ h := nomatch h
  around := ⟨rfl, fun _ h => nomatch h⟩
  acknowledged := fun ⟨_, h⟩ => nomatch h

section Steps

variable {e : Device S} {turn : Option ℕ}

/-- What another call's step does to the calls, the call whose turn it is does not see. -/
theorem current_update {call : Call S} {id : ℕ} (hother : turn ≠ some id) :
    (turn.elim .idle (Function.update e.calls id call) : Call S) = e.current turn := by
  rcases turn with _ | id'
  · rfl
  · have hne : id' ≠ id := fun heq => hother (congrArg some heq)
    exact Function.update_of_ne hne ..

theorem inv_begin (h : Inv publicKey identity e turn) {id : ℕ} {request : Request S}
    (henabled : e.calls id = .idle) (hcalm : Calm publicKey identity e (.begin id request)) :
    ∃ turn', Inv publicKey identity (e.begin publicKey identity id request) turn' := by
  have hidle : turn ≠ some id := fun hturn => by
    have hrunning := (h.turns id).2 hturn
    rw [henabled] at hrunning
    exact hrunning
  -- the other calls stand where they stood
  have hacknowledged : ∀ call : Call S, call ≠ .returned true →
      (∃ id', Function.update e.calls id call id' = .returned true) →
        ∃ id', e.calls id' = .returned true := by
    rintro call hcall ⟨id', hid'⟩
    by_cases hsame : id' = id
    · rw [hsame, Function.update_self] at hid'
      exact absurd hid' hcall
    · rw [Function.update_of_ne hsame] at hid'
      exact ⟨id', hid'⟩
  rw [Device.begin]
  split
  · refine ⟨turn, fun id' => ?_, h.writer, h.own, ?_, fun hok => ?_⟩
    · by_cases hsame : id' = id
      · subst hsame
        simp only [Function.update_self]
        exact ⟨False.elim, fun hturn => absurd hturn hidle⟩
      · simp only [Function.update_of_ne hsame]
        exact h.turns id'
    · show Around publicKey identity _ (turn.elim .idle (Function.update e.calls id _))
      rw [current_update hidle]
      exact h.around
    · obtain ⟨hmemory, hcommitted, hprevious⟩ :=
        h.acknowledged (hacknowledged _ (by simp) hok)
      refine ⟨hmemory, hcommitted, fun previous hsaving => hprevious previous ?_⟩
      rw [← hsaving]
      exact (current_update hidle).symm
  · next seed haccept =>
    have hnone : turn = none := by
      rcases turn with _ | id'
      · rfl
      · exact absurd ((h.turns id').2 rfl) (hcalm ⟨seed, haccept⟩ id')
    subst hnone
    obtain ⟨hsame, hwriter⟩ := h.around
    refine ⟨some id, fun id' => ?_, fun w hw id' howner => ?_, fun w hw id' howner => ?_, ?_,
      fun hok => ?_⟩
    · by_cases heq : id' = id
      · subst heq
        simp only [Function.update_self, iff_true]
        trivial
      · simp only [Function.update_of_ne heq, h.turns id', reduceCtorEq, Option.some.injEq,
          false_iff]
        exact fun heq' => heq heq'.symm
    · exact nomatch h.writer w hw id' howner
    · exact nomatch h.writer w hw id' howner
    · show Around publicKey identity _ (Function.update e.calls id _ id)
      rw [Function.update_self]
      exact ⟨⟨seed, rfl, publicKey_of_accept haccept⟩, .inl hsame.symm,
        fun w hw custody hcustody => .inl (hwriter w hw custody hcustody)⟩
    · obtain ⟨hmemory, hcommitted, -⟩ := h.acknowledged (hacknowledged _ (by simp) hok)
      refine ⟨⟨seed, rfl, publicKey_of_accept haccept⟩, hcommitted, fun previous hsaving => ?_⟩
      replace hsaving : Function.update e.calls id _ id = _ := hsaving
      rw [Function.update_self] at hsaving
      exact Call.saving.inj hsaving ▸ hmemory

theorem inv_lock (h : Inv publicKey identity e turn) {owner : Owner}
    (henabled : e.Enabled (.lock owner)) :
    Inv publicKey identity { e with writer := some { owner } } turn where
  turns := h.turns
  writer w hw id howner := by
    obtain rfl := Option.mem_some.1 hw
    exact (h.turns id).1 (henabled.2 id howner)
  own w hw _ _ custody hcustody := by
    obtain rfl := Option.mem_some.1 hw
    exact nomatch hcustody
  around := by
    have haround := h.around
    have hnone : ∀ w ∈ (some { owner } : Option (Writer S)), ∀ custody, custody ∉ w.snapshot := by
      intro w hw custody hcustody
      obtain rfl := Option.mem_some.1 hw
      exact nomatch hcustody
    show Around publicKey identity _ (e.current turn)
    generalize e.current turn = call at haround ⊢
    rcases call with _ | previous | previous | ok
    · exact ⟨haround.1, fun w hw custody hc => absurd hc (hnone w hw custody)⟩
    · exact ⟨haround.1, haround.2.1, fun w hw custody hc => absurd hc (hnone w hw custody)⟩
    · exact ⟨haround.1, haround.2.1, fun w hw custody hc => absurd hc (hnone w hw custody)⟩
    · exact ⟨haround.1, fun w hw custody hc => absurd hc (hnone w hw custody)⟩
  acknowledged := h.acknowledged

theorem inv_copy (h : Inv publicKey identity e turn) {owner : Owner}
    (henabled : e.Enabled (.copy owner)) :
    Inv publicKey identity { e with writer := some { owner, snapshot := some e.memory } } turn := by
  obtain ⟨held, hheld, rfl, -⟩ := henabled
  have hcopied : ∀ w ∈ (some { owner := held.owner, snapshot := some e.memory } :
      Option (Writer S)), ∀ custody ∈ w.snapshot, custody = e.memory := by
    intro w hw custody hcustody
    obtain rfl := Option.mem_some.1 hw
    exact (Option.mem_some.1 hcustody).symm
  refine ⟨h.turns, fun w hw id howner => ?_, fun w hw _ _ => hcopied w hw, ?_, h.acknowledged⟩
  · obtain rfl := Option.mem_some.1 hw
    exact h.writer held hheld id howner
  · have haround := h.around
    show Around publicKey identity _ (e.current turn)
    generalize e.current turn = call at haround ⊢
    rcases call with _ | previous | previous | ok
    · exact ⟨haround.1, hcopied⟩
    · exact ⟨haround.1, haround.2.1, fun w hw custody hc => .inr (hcopied w hw custody hc)⟩
    · exact ⟨haround.1, haround.2.1,
        fun w hw custody hc => (hcopied w hw custody hc).trans haround.1⟩
    · exact ⟨haround.1, hcopied⟩

/-- What a persist leaves behind, before whose it is goes on. -/
theorem land_cases (e : Device S) (w : Writer S) (outcome : Outcome) :
    e.land w outcome = e ∨
      ∃ custody ∈ w.snapshot, e.land w outcome = { e with committed := custody } := by
  rw [Device.land]
  split
  · exact .inl rfl
  · next custody hsnapshot =>
    split
    · exact .inr ⟨custody, hsnapshot, rfl⟩
    · exact .inl rfl

theorem land_of_call {w : Writer S} {id : ℕ} {outcome : Outcome} {custody : Option S}
    (howner : w.owner = .call id) (hsnapshot : w.snapshot = some custody)
    (hlands : outcome.Lands) : e.land w outcome = { e with committed := custody } := by
  rw [Device.land, hsnapshot, howner]
  exact if_pos ⟨hlands, nofun⟩

/-- A landed persist and a free lock keep the state as the current call left it. -/
theorem around_land {w : Writer S} (outcome : Outcome) (hw : w ∈ e.writer) {call : Call S}
    (h : Around publicKey identity e call) :
    Around publicKey identity { e.land w outcome with writer := none } call := by
  have hfree : ∀ w ∈ (none : Option (Writer S)), ∀ custody ∈ w.snapshot, ∀ P : Prop, P :=
    fun w hw => nomatch hw
  rcases land_cases e w outcome with hland | ⟨custody, hcustody, hland⟩ <;> rw [hland] <;>
    rcases call with _ | previous | previous | ok
  · exact ⟨h.1, fun w hw custody hc => hfree w hw custody hc _⟩
  · exact ⟨h.1, h.2.1, fun w hw custody hc => hfree w hw custody hc _⟩
  · exact ⟨h.1, h.2.1, fun w hw custody hc => hfree w hw custody hc _⟩
  · exact ⟨h.1, fun w hw custody hc => hfree w hw custody hc _⟩
  · exact ⟨(h.2 w hw custody hcustody).symm, fun w hw custody hc => hfree w hw custody hc _⟩
  · exact ⟨h.1, h.2.2 w hw custody hcustody, fun w hw custody hc => hfree w hw custody hc _⟩
  · exact ⟨h.1, .inl (h.2.2 w hw custody hcustody), fun w hw custody hc => hfree w hw custody hc _⟩
  · exact ⟨(h.2 w hw custody hcustody).symm, fun w hw custody hc => hfree w hw custody hc _⟩

/-- What a landed persist leaves is valid if what was there and what was copied are. -/
theorem inv_land (h : Inv publicKey identity e turn) {w : Writer S} (hw : w ∈ e.writer)
    (outcome : Outcome) :
    Inv publicKey identity { e.land w outcome with writer := none } turn := by
  have hkept : (e.land w outcome).memory = e.memory ∧ (e.land w outcome).calls = e.calls := by
    rcases land_cases e w outcome with hland | ⟨custody, -, hland⟩ <;> rw [hland] <;>
      exact ⟨rfl, rfl⟩
  have haround := around_land outcome hw h.around
  refine ⟨fun id => ?_, (fun _ hw => nomatch hw), (fun _ hw => nomatch hw), ?_, fun hok => ?_⟩
  · rw [hkept.2]
    exact h.turns id
  · rw [Device.current, hkept.2]
    exact haround
  · dsimp only at hok
    rw [hkept.2] at hok
    obtain ⟨hmemory, hcommitted, hprevious⟩ := h.acknowledged hok
    rw [Device.current, hkept.1, hkept.2]
    refine ⟨hmemory, ?_, hprevious⟩
    rcases land_cases e w outcome with hland | ⟨custody, hcustody, hland⟩
    · rw [hland]
      exact hcommitted
    · -- what was copied is what memory holds, or what the current call put away
      rw [hland]
      have hcall := h.around
      generalize hcurrent : e.current turn = call at hcall
      rcases call with _ | previous | previous | ok
      · rw [hcall.2 w hw custody hcustody]
        exact hmemory
      · rcases hcall.2.2 w hw custody hcustody with heq | heq
        · exact heq ▸ hprevious previous hcurrent
        · exact heq ▸ hmemory
      · rw [hcall.2.2 w hw custody hcustody, ← hcall.1]
        exact hmemory
      · rw [hcall.2 w hw custody hcustody]
        exact hmemory

/-- The current call goes on after its checkpoint. What went through committed what memory holds,
and a call that put its predecessor back returns with that on disk. -/
theorem inv_resume {id : ℕ} (h : Inv publicKey identity e (some id)) (hfree : e.writer = none)
    {outcome : Outcome} (hok : outcome = .ok → e.committed = e.memory)
    (hrolled : ∀ previous, e.calls id = .rolling previous → e.committed = previous) :
    ∃ turn', Inv publicKey identity (e.resume (.call id) outcome) turn' := by
  have hrunning := (h.turns id).2 rfl
  have haround : Around publicKey identity e (e.calls id) := h.around
  have hwriter : ∀ w ∈ e.writer, ∀ P : Prop, P := by
    rw [hfree]
    exact fun w hw => nomatch hw
  -- nobody else is running
  have hreturned : ∀ ok id', (Function.update e.calls id (.returned ok) id').Running ↔
      (none : Option ℕ) = some id' := by
    intro ok id'
    refine ⟨fun hid' => ?_, fun hnone => nomatch hnone⟩
    by_cases hsame : id' = id
    · rw [hsame, Function.update_self] at hid'
      exact hid'.elim
    · rw [Function.update_of_ne hsame] at hid'
      exact absurd (Option.some.inj ((h.turns id').1 hid')).symm hsame
  have hbefore : ∀ call : Call S, call ≠ .returned true →
      (∃ id', Function.update e.calls id call id' = .returned true) →
        ∃ id', e.calls id' = .returned true := by
    rintro call hcall ⟨id', hid'⟩
    by_cases hsame : id' = id
    · rw [hsame, Function.update_self] at hid'
      exact absurd hid' hcall
    · rw [Function.update_of_ne hsame] at hid'
      exact ⟨id', hid'⟩
  unfold Device.resume
  dsimp only
  rcases hcall : e.calls id with _ | previous | previous | ok <;> rw [hcall] at haround hrunning
  · exact hrunning.elim
  · obtain ⟨hvalid, hcommitted, -⟩ := haround
    rcases outcome with _ | landed
    · have hsame := hok rfl
      refine ⟨none, hreturned true, fun w hw => hwriter w hw _, fun w hw => hwriter w hw _,
        ⟨hsame.symm, fun w hw => hwriter w hw _⟩, fun _ => ⟨hvalid, ?_, fun _ h => nomatch h⟩⟩
      show Valid publicKey identity e.committed
      rw [hsame]
      exact hvalid
    · -- the seed before is put back
      refine ⟨some id, fun id' => ?_, fun w hw => hwriter w hw _, fun w hw => hwriter w hw _, ?_,
        fun hacknowledged => ?_⟩
      · by_cases hsame : id' = id
        · subst hsame
          simp only [Function.update_self, iff_true]
          trivial
        · simp only [Function.update_of_ne hsame]
          exact h.turns id'
      · show Around publicKey identity _ (Function.update e.calls id _ id)
        rw [Function.update_self]
        refine ⟨rfl, ?_, fun w hw => hwriter w hw _⟩
        rcases hcommitted with heq | heq
        · exact .inl heq
        · refine .inr ?_
          show Valid publicKey identity e.committed
          rw [heq]
          exact hvalid
      · obtain ⟨-, hdisk, hprevious⟩ := h.acknowledged (hbefore _ (by simp) hacknowledged)
        refine ⟨hprevious previous hcall, hdisk, fun previous' hsaving => ?_⟩
        replace hsaving : Function.update e.calls id (.rolling previous) id =
          .saving previous' := hsaving
        rw [Function.update_self] at hsaving
        exact nomatch hsaving
  · have hdisk := hrolled previous hcall
    have hreturn : Inv publicKey identity
        { e with calls := Function.update e.calls id (.returned false) } none := by
      refine ⟨hreturned false, fun w hw => hwriter w hw _, fun w hw => hwriter w hw _,
        ⟨haround.1.trans hdisk.symm, fun w hw => hwriter w hw _⟩, fun hacknowledged => ?_⟩
      obtain ⟨hmemory, hcommitted, -⟩ := h.acknowledged (hbefore _ (by simp) hacknowledged)
      exact ⟨hmemory, hcommitted, fun _ hsaving => nomatch hsaving⟩
    rcases outcome with _ | landed
    · exact ⟨none, hreturn⟩
    · exact ⟨none, hreturn⟩
  · exact hrunning.elim

theorem inv_finish (h : Inv publicKey identity e turn) {w : Writer S} (hw : w ∈ e.writer)
    {outcome : Outcome} (hcopied : outcome.Lands → w.snapshot.isSome)
    (hcalm : Calm publicKey identity e (.finish w.owner outcome)) :
    ∃ turn', Inv publicKey identity (e.finish w outcome) turn' := by
  have hland := inv_land h hw outcome
  rw [Device.finish]
  rcases howner : w.owner with id | metadata
  swap
  · exact ⟨turn, hland⟩
  obtain rfl := h.writer w hw id howner
  have hkept : (e.land w outcome).calls = e.calls ∧ (e.land w outcome).memory = e.memory := by
    rcases land_cases e w outcome with heq | ⟨custody, -, heq⟩ <;> rw [heq] <;> exact ⟨rfl, rfl⟩
  refine inv_resume hland rfl (fun hok => ?_) fun previous hrolling => ?_
  · -- what it committed is what memory holds
    subst hok
    obtain ⟨custody, hsnapshot⟩ := Option.isSome_iff_exists.1 (hcopied trivial)
    have hlands : Outcome.ok.Lands := trivial
    dsimp only
    rw [land_of_call howner hsnapshot hlands]
    exact h.own w hw id howner custody hsnapshot
  · dsimp only at hrolling ⊢
    rw [hkept.1] at hrolling
    have haround : Around publicKey identity e (e.calls id) := h.around
    rw [hrolling] at haround
    rw [howner] at hcalm
    rcases hcalm previous hrolling with hlands | hdisk
    · obtain ⟨custody, hsnapshot⟩ := Option.isSome_iff_exists.1 (hcopied hlands)
      rw [land_of_call howner hsnapshot hlands]
      exact haround.2.2 w hw custody hsnapshot
    · rcases land_cases e w outcome with heq | ⟨custody, hcustody, heq⟩ <;> rw [heq]
      · exact hdisk
      · exact haround.2.2 w hw custody hcustody

/-- Every step of a calm run leaves the state as the call whose turn it then is left it. -/
theorem inv_step (h : Inv publicKey identity e turn) {label : Label S}
    (henabled : e.Enabled label) (hcalm : Calm publicKey identity e label) :
    ∃ turn', Inv publicKey identity (e.step publicKey identity label) turn' := by
  rcases label with ⟨id, request⟩ | owner | owner | ⟨owner, outcome⟩
  · exact inv_begin h henabled hcalm
  · exact ⟨turn, inv_lock h henabled⟩
  · exact ⟨turn, inv_copy h henabled⟩
  · obtain ⟨w, hw, rfl, hcopied⟩ := henabled
    rw [Device.step, hw]
    exact inv_finish h hw hcopied hcalm

end Steps

/-! ## The run without a call -/

/-- The steps of everyone else. -/
def without (id : ℕ) (labels : List (Label S)) : List (Label S) :=
  labels.filter fun label => label.owner ≠ .call id

/-- While a call is running, the run without it holds the custody it found, and the same persists
are under way but for its own. -/
structure Beside (id : ℕ) (previous : Option S) (e e' : Device S) : Prop where
  memory : e'.memory = previous
  committed : e'.committed = previous
  calls : e'.calls = Function.update e.calls id .idle
  free : (∀ w ∈ e.writer, w.owner = .call id) → e'.writer = none
  writer : ∀ w ∈ e.writer, w.owner ≠ .call id →
    e'.writer = some { w with snapshot := w.snapshot.map fun _ => previous }

/-- The state of a run, and that of the run without a call, up to its answer. -/
def Sim (id : ℕ) (e e' : Device S) : Prop :=
  match e.calls id with
  | .idle => e' = e
  | .saving previous | .rolling previous => Beside id previous e e'
  | .returned _ => True

section Sim

variable {e e' : Device S} {turn : Option ℕ} {id : ℕ}

/-- What is said of a call that is running, whichever checkpoint it waits for. -/
theorem sim_of_beside {previous : Option S}
    (hcall : e.calls id = .saving previous ∨ e.calls id = .rolling previous)
    (h : Beside id previous e e') : Sim id e e' := by
  rcases hcall with hcall | hcall <;> (rw [Sim, hcall]; exact h)

/-- A persist that copied nothing else. -/
theorem copied_eq {w : Writer S} {previous : Option S}
    (h : ∀ custody ∈ w.snapshot, custody = previous) :
    { w with snapshot := w.snapshot.map fun _ => previous } = w := by
  obtain ⟨owner, _ | custody⟩ := w
  · rfl
  · obtain rfl := h custody rfl
    rfl

/-- The call begins: the run without it stays behind. -/
theorem sim_begin (h : Inv publicKey identity e turn) {request : Request S}
    (henabled : e.calls id = .idle) (hcalm : Calm publicKey identity e (.begin id request)) :
    Sim id (e.begin publicKey identity id request) e := by
  rw [Device.begin]
  split
  · rw [Sim]
    simp only [Function.update_self]
  · next seed haccept =>
    obtain rfl : turn = none := by
      rcases turn with _ | id'
      · rfl
      · exact absurd ((h.turns id').2 rfl) (hcalm ⟨seed, haccept⟩ id')
    obtain ⟨hsame, hcopied⟩ := h.around
    refine sim_of_beside (.inl (Function.update_self ..)) ⟨rfl, hsame.symm, ?_, ?_, ?_⟩
    · rw [Function.update_idem, ← henabled, Function.update_eq_self]
    · intro howner
      rcases hw : e.writer with _ | w
      · rfl
      · exact nomatch h.writer w hw id (howner w hw)
    · intro w hw _
      rw [copied_eq (hcopied w hw)]
      exact hw

variable {previous : Option S}

/-- Another call that is refused changes neither run's custody. -/
theorem Beside.begin_other (h : Beside id previous e e') {other : ℕ} {request : Request S}
    (hother : other ≠ id) (hrefused : ¬ ∃ seed, accept publicKey identity request = .ok seed) :
    Beside id previous (e.begin publicKey identity other request)
      (e'.begin publicKey identity other request) := by
  rw [Device.begin, Device.begin]
  rcases haccept : accept publicKey identity request with error | seed
  · exact ⟨h.memory, h.committed, by
      show Function.update e'.calls _ _ = _
      rw [h.calls, Function.update_comm hother], h.free, h.writer⟩
  · exact absurd ⟨seed, haccept⟩ hrefused

theorem Beside.lock_other (h : Beside id previous e e') {owner : Owner}
    (hother : owner ≠ .call id) :
    Beside id previous { e with writer := some { owner } }
      { e' with writer := some { owner } } where
  memory := h.memory
  committed := h.committed
  calls := h.calls
  free hfree := absurd (hfree _ rfl) hother
  writer w hw _ := by
    obtain rfl := Option.mem_some.1 hw
    rfl

theorem Beside.copy_other (h : Beside id previous e e') {owner : Owner}
    (hother : owner ≠ .call id) :
    Beside id previous { e with writer := some { owner, snapshot := some e.memory } }
      { e' with writer := some { owner, snapshot := some e'.memory } } where
  memory := h.memory
  committed := h.committed
  calls := h.calls
  free hfree := absurd (hfree _ rfl) hother
  writer w hw _ := by
    obtain rfl := Option.mem_some.1 hw
    rw [h.memory]
    rfl

theorem finish_of_other {w : Writer S} {metadata : Bool} (howner : w.owner = .other metadata)
    (outcome : Outcome) : e.finish w outcome = { e.land w outcome with writer := none } := by
  rw [Device.finish, howner, Device.resume]

/-- A persist of nobody's: in the run without the call it commits what was there anyway. -/
theorem Beside.finish_other (h : Beside id previous e e') {w : Writer S} (hw : w ∈ e.writer)
    {metadata : Bool} (howner : w.owner = .other metadata) (outcome : Outcome) :
    ∃ w' ∈ e'.writer, Beside id previous (e.finish w outcome) (e'.finish w' outcome) := by
  have hother : w.owner ≠ .call id := by
    rw [howner]
    exact nofun
  refine ⟨_, h.writer w hw hother, ?_⟩
  have hcalls : (e.land w outcome).calls = e.calls := by
    rcases land_cases e w outcome with heq | ⟨custody, -, heq⟩ <;> rw [heq]
  have hland : (e'.land { w with snapshot := w.snapshot.map fun _ => previous } outcome).memory =
      previous ∧ (e'.land { w with snapshot := w.snapshot.map fun _ => previous }
        outcome).committed = previous ∧
      (e'.land { w with snapshot := w.snapshot.map fun _ => previous } outcome).calls =
        e'.calls := by
    rcases land_cases e' { w with snapshot := w.snapshot.map fun _ => previous } outcome with
      heq | ⟨custody, hcustody, heq⟩ <;> rw [heq]
    · exact ⟨h.memory, h.committed, rfl⟩
    · obtain ⟨_, -, rfl⟩ := Option.mem_map.1 hcustody
      exact ⟨h.memory, rfl, rfl⟩
  rw [finish_of_other howner, finish_of_other (by exact howner)]
  exact ⟨hland.1, hland.2.1, by rw [hland.2.2, h.calls, hcalls], fun _ => rfl,
    fun _ hw => nomatch hw⟩

/-- The call's own persists are missing in the run without it. -/
theorem Beside.lock_own (h : Beside id previous e e') (hfree : e.writer = none) :
    Beside id previous { e with writer := some { owner := .call id } } e' where
  memory := h.memory
  committed := h.committed
  calls := h.calls
  free _ := h.free (by rw [hfree]; exact fun _ hw => nomatch hw)
  writer w hw hother := by
    obtain rfl := Option.mem_some.1 hw
    exact absurd rfl hother

theorem Beside.copy_own (h : Beside id previous e e') {w : Writer S} (hw : e.writer = some w)
    (howner : w.owner = .call id) (custody : Option S) :
    Beside id previous { e with writer := some { owner := .call id, snapshot := some custody } }
      e' where
  memory := h.memory
  committed := h.committed
  calls := h.calls
  free _ := h.free fun w' hw' => by
    obtain rfl := Option.some.inj (hw.symm.trans hw')
    exact howner
  writer w hw hother := by
    obtain rfl := Option.mem_some.1 hw
    exact absurd rfl hother

/-- The call's checkpoint ends: it returns, or it failed and the one before is put back. -/
theorem Beside.finish_own (h : Beside id previous e e') {w : Writer S} (hw : w ∈ e.writer)
    (howner : w.owner = .call id)
    (hcall : e.calls id = .saving previous ∨ e.calls id = .rolling previous) (outcome : Outcome) :
    Sim id (e.finish w outcome) e' := by
  have hland : (e.land w outcome).calls = e.calls := by
    rcases land_cases e w outcome with heq | ⟨custody, -, heq⟩ <;> rw [heq]
  have hfree : e'.writer = none := h.free fun w' hw' => by
    obtain rfl := Option.some.inj (hw.symm.trans hw')
    exact howner
  rw [Device.finish, howner]
  unfold Device.resume
  dsimp only
  rw [hland]
  rcases hcall with hcall | hcall <;> rw [hcall]
  · rcases outcome with _ | landed
    · rw [Sim]
      simp only [Function.update_self]
    · refine sim_of_beside (.inr (Function.update_self ..)) ⟨h.memory, h.committed, ?_,
        fun _ => hfree, fun _ hw => nomatch hw⟩
      rw [Function.update_idem]
      exact h.calls
  · rcases outcome with _ | landed <;>
    · rw [Sim]
      simp only [Function.update_self]

/-- Everyone else's steps leave a call where it stands. -/
theorem calls_step {label : Label S} (henabled : e.Enabled label)
    (howner : label.owner ≠ .call id) :
    (e.step publicKey identity label).calls id = e.calls id := by
  rcases label with ⟨other, request⟩ | owner | owner | ⟨owner, outcome⟩
  · have hne : id ≠ other := fun heq => howner (congrArg Owner.call heq.symm)
    rw [Device.step, Device.begin]
    split <;> exact Function.update_of_ne hne ..
  · rfl
  · rfl
  · obtain ⟨w, hw, hwriter, -⟩ := henabled
    have hland : (e.land w outcome).calls = e.calls := by
      rcases land_cases e w outcome with heq | ⟨custody, -, heq⟩ <;> rw [heq]
    rw [Device.step, hw]
    show (e.finish w outcome).calls id = e.calls id
    rcases hother : w.owner with other | metadata
    · have hne : id ≠ other := by
        rintro rfl
        exact howner (hwriter.symm.trans hother)
      rw [Device.finish, hother]
      unfold Device.resume
      dsimp only
      rw [hland]
      split
      · exact Function.update_of_ne hne ..
      · exact Function.update_of_ne hne ..
      · exact Function.update_of_ne hne ..
      · rfl
    · rw [finish_of_other hother]
      exact congrFun hland id

/-- A step beside a call that is running. -/
theorem sim_step_running (h : Inv publicKey identity e turn)
    (hcall : e.calls id = .saving previous ∨ e.calls id = .rolling previous)
    (hbeside : Beside id previous e e') {label : Label S} (henabled : e.Enabled label)
    (hcalm : Calm publicKey identity e label) :
    Sim id (e.step publicKey identity label)
      (if label.owner = .call id then e' else e'.step publicKey identity label) := by
  have hrunning : (e.calls id).Running := by
    rcases hcall with hcall | hcall <;> (rw [hcall]; trivial)
  have hturn := (h.turns id).1 hrunning
  by_cases howner : label.owner = .call id
  · rw [if_pos howner]
    rcases label with ⟨other, request⟩ | owner | owner | ⟨owner, outcome⟩
    · -- it has begun already
      obtain rfl := Owner.call.inj howner
      rw [show e.calls other = .idle from henabled] at hrunning
      exact hrunning.elim
    · obtain rfl : owner = .call id := howner
      exact sim_of_beside hcall (hbeside.lock_own (Option.isNone_iff_eq_none.1 henabled.1))
    · obtain rfl : owner = .call id := howner
      obtain ⟨w, hw, hwriter, -⟩ := henabled
      exact sim_of_beside hcall (hbeside.copy_own hw hwriter e.memory)
    · obtain rfl : owner = .call id := howner
      obtain ⟨w, hw, hwriter, -⟩ := henabled
      rw [Device.step, hw]
      exact hbeside.finish_own hw hwriter hcall outcome
  · rw [if_neg howner]
    have hstays : (e.step publicKey identity label).calls id = .saving previous ∨
        (e.step publicKey identity label).calls id = .rolling previous := by
      rw [calls_step henabled howner]
      exact hcall
    refine sim_of_beside hstays ?_
    rcases label with ⟨other, request⟩ | owner | owner | ⟨owner, outcome⟩
    · have hne : other ≠ id := fun heq => howner (congrArg Owner.call heq)
      exact hbeside.begin_other hne fun haccept => hcalm haccept id hrunning
    · exact hbeside.lock_other howner
    · exact hbeside.copy_other howner
    · obtain ⟨w, hw, rfl, -⟩ := henabled
      rcases hwriter : w.owner with other | metadata
      · -- a call that checkpoints is the one that is running
        have hsame := (h.writer w hw other hwriter).symm.trans hturn
        obtain rfl := Option.some.inj hsame
        exact absurd hwriter howner
      · obtain ⟨w', hw', hfinish⟩ := hbeside.finish_other hw hwriter outcome
        rw [Device.step, Device.step, hw, show e'.writer = some w' from hw']
        exact hfinish

/-- The steps of a call, which the run without it lacks, and everyone else's, which it has. -/
theorem sim_step (h : Inv publicKey identity e turn) (hsim : Sim id e e') {label : Label S}
    (henabled : e.Enabled label) (hcalm : Calm publicKey identity e label)
    (hcalls : ∀ ok, e.calls id ≠ .returned ok) :
    Sim id (e.step publicKey identity label)
      (if label.owner = .call id then e' else e'.step publicKey identity label) := by
  rcases hcall : e.calls id with _ | previous | previous | ok
  · -- the call did not begin
    rw [Sim, hcall] at hsim
    subst hsim
    by_cases howner : label.owner = .call id
    · rw [if_pos howner]
      rcases label with ⟨other, request⟩ | owner | owner | ⟨owner, outcome⟩
      · obtain rfl := Owner.call.inj howner
        exact sim_begin h hcall hcalm
      · have hrunning := henabled.2 id howner
        rw [hcall] at hrunning
        exact hrunning.elim
      · obtain ⟨w, hw, rfl, -⟩ := henabled
        have hrunning := (h.turns id).2 (h.writer w hw id howner)
        rw [hcall] at hrunning
        exact hrunning.elim
      · obtain ⟨w, hw, rfl, -⟩ := henabled
        have hrunning := (h.turns id).2 (h.writer w hw id howner)
        rw [hcall] at hrunning
        exact hrunning.elim
    · rw [if_neg howner, Sim, calls_step henabled howner, hcall]
  · rw [Sim, hcall] at hsim
    exact sim_step_running h (.inl hcall) hsim henabled hcalm
  · rw [Sim, hcall] at hsim
    exact sim_step_running h (.inr hcall) hsim henabled hcalm
  · exact absurd hcall (hcalls ok)

/-- A call that returns an error in this step leaves the custody of the run without it. -/
theorem custody_of_error (h : Inv publicKey identity e turn) (hsim : Sim id e e')
    {label : Label S} (henabled : e.Enabled label) (hcalm : Calm publicKey identity e label)
    (hbefore : ∀ ok, e.calls id ≠ .returned ok)
    (hafter : (e.step publicKey identity label).calls id = .returned false) :
    label.owner = .call id ∧ (e.step publicKey identity label).memory = e'.memory ∧
      (e.step publicKey identity label).committed = e'.committed := by
  have howner : label.owner = .call id := by
    by_contra hne
    rw [calls_step henabled hne] at hafter
    exact hbefore false hafter
  refine ⟨howner, ?_⟩
  rcases label with ⟨other, request⟩ | owner | owner | ⟨owner, outcome⟩
  · obtain rfl := Owner.call.inj howner
    rw [Sim, show e.calls other = .idle from henabled] at hsim
    subst hsim
    rw [Device.step, Device.begin] at hafter ⊢
    split
    · exact ⟨rfl, rfl⟩
    · next seed haccept =>
      rw [haccept] at hafter
      dsimp only at hafter
      rw [Function.update_self] at hafter
      exact nomatch hafter
  · exact absurd hafter (hbefore false)
  · exact absurd hafter (hbefore false)
  · obtain rfl : owner = .call id := howner
    obtain ⟨w, hw, hwriter, hcopied⟩ := henabled
    have hturn := h.writer w hw id hwriter
    have hrunning := (h.turns id).2 hturn
    have hkept : (e.land w outcome).calls = e.calls ∧ (e.land w outcome).memory = e.memory := by
      rcases land_cases e w outcome with heq | ⟨custody, -, heq⟩ <;> rw [heq] <;> exact ⟨rfl, rfl⟩
    rw [Device.step, hw] at hafter ⊢
    dsimp only at hafter ⊢
    rw [Device.finish, hwriter] at hafter ⊢
    unfold Device.resume at hafter ⊢
    dsimp only at hafter ⊢
    rw [hkept.1] at hafter ⊢
    subst hturn
    have haround : Around publicKey identity e (e.calls id) := h.around
    rcases hcall : e.calls id with _ | previous | previous | ok <;>
      rw [hcall] at haround hrunning hafter
    · exact hrunning.elim
    · -- a first checkpoint returns `Ok` or leads to the second one
      rcases outcome with _ | landed <;> simp at hafter
    · rw [Sim, hcall] at hsim
      have hdisk : (e.land w outcome).committed = previous := by
        rcases hcalm previous hcall with hlands | hdisk
        · obtain ⟨custody, hsnapshot⟩ := Option.isSome_iff_exists.1 (hcopied hlands)
          rw [land_of_call hwriter hsnapshot hlands]
          exact haround.2.2 w hw custody hsnapshot
        · rcases land_cases e w outcome with heq | ⟨custody, hcustody, heq⟩ <;> rw [heq]
          · exact hdisk
          · exact haround.2.2 w hw custody hcustody
      rw [hsim.memory, hsim.committed]
      rcases outcome with _ | landed <;> exact ⟨hkept.2.trans haround.1, hdisk⟩
    · exact hrunning.elim

end Sim

/-! ## Runs -/

/-- The condition on a step of a run: it can be taken, and it is calm. -/
def Orderly (publicKey : S → Bytes32) (identity : Identity) (e : Device S) (label : Label S) :
    Prop :=
  e.Enabled label ∧ Calm publicKey identity e label

/-- A device that was loaded, with what is on disk in memory. -/
def Device.start (custody : Option S) : Device S := { memory := custody, committed := custody }

/-- The state after a run from there. -/
abbrev Device.after (publicKey : S → Bytes32) (identity : Identity) (custody : Option S)
    (labels : List (Label S)) : Device S :=
  Transition.run (Device.step publicKey identity) (.start custody) labels

/-- Every step of the run is orderly. -/
abbrev OrderlyRun (publicKey : S → Bytes32) (identity : Identity) (custody : Option S)
    (labels : List (Label S)) : Prop :=
  Transition.Meets (Device.step publicKey identity) (Orderly publicKey identity) (.start custody)
    labels

theorem inv_run (custody : Option S) {labels : List (Label S)}
    (h : OrderlyRun publicKey identity custody labels) :
    ∃ turn, Inv publicKey identity (.after publicKey identity custody labels) turn := by
  have hstep : ∀ e label, Orderly publicKey identity e label →
      (∃ turn, Inv publicKey identity e turn) →
        ∃ turn, Inv publicKey identity (Device.step publicKey identity e label) turn :=
    fun e label horderly ⟨turn, hinv⟩ => inv_step hinv horderly.1 horderly.2
  exact Transition.run_preserves_of_meets hstep h ⟨none, inv_start custody⟩

/-- A call that returned takes no more steps. -/
theorem returned_step {e : Device S} {turn : Option ℕ} (h : Inv publicKey identity e turn)
    {id : ℕ} {ok : Bool} {label : Label S} (henabled : e.Enabled label)
    (hcall : e.calls id = .returned ok) :
    (e.step publicKey identity label).calls id = .returned ok := by
  have hstopped : ¬ (e.calls id).Running := by
    rw [hcall]
    exact False.elim
  by_cases howner : label.owner = .call id
  · rcases label with ⟨other, request⟩ | owner | owner | ⟨owner, outcome⟩
    · obtain rfl := Owner.call.inj howner
      rw [show e.calls other = .idle from henabled] at hcall
      exact nomatch hcall
    · exact absurd (henabled.2 id howner) hstopped
    · obtain ⟨w, hw, rfl, -⟩ := henabled
      exact absurd ((h.turns id).2 (h.writer w hw id howner)) hstopped
    · obtain ⟨w, hw, rfl, -⟩ := henabled
      exact absurd ((h.turns id).2 (h.writer w hw id howner)) hstopped
  · rw [calls_step henabled howner]
    exact hcall

theorem without_append (id : ℕ) (labels : List (Label S)) (label : Label S) :
    without id (labels ++ [label]) =
      without id labels ++ if label.owner = .call id then [] else [label] := by
  rw [without, List.filter_append]
  by_cases howner : label.owner = .call id
  · rw [List.filter_cons_of_neg (by simpa using howner), if_pos howner]
    rfl
  · rw [List.filter_cons_of_pos (by simpa using howner), if_neg howner]
    rfl

/-- The run without a call goes along until the call's answer. -/
theorem sim_run (custody : Option S) (id : ℕ) {labels : List (Label S)}
    (h : OrderlyRun publicKey identity custody labels)
    (hcalls : ∀ ok, (Device.after publicKey identity custody labels).calls id ≠ .returned ok) :
    Sim id (.after publicKey identity custody labels)
      (.after publicKey identity custody (without id labels)) := by
  induction labels using List.reverseRecOn with
  | nil => rfl
  | append_singleton labels label ih =>
    obtain ⟨hbefore, ⟨henabled, hcalm⟩, -⟩ := Transition.meets_append.1 h
    obtain ⟨turn, hinv⟩ := inv_run custody hbefore
    rw [Device.after, Transition.run_append] at hcalls ⊢
    have hnot : ∀ ok, (Transition.run (Device.step publicKey identity) (.start custody)
        labels).calls id ≠ .returned ok :=
      fun ok hcall => hcalls ok (returned_step hinv henabled hcall)
    have hstep := sim_step hinv (ih hbefore hnot) henabled hcalm hnot
    rw [without_append, Device.after, Transition.run_append]
    by_cases howner : label.owner = .call id
    · rw [if_pos howner] at hstep ⊢
      exact hstep
    · rw [if_neg howner] at hstep ⊢
      exact hstep

/-- Over every run whose steps are orderly: while a call was answered with `Ok` or `Persisted`, a
seed of the identity's root is on disk; and a call that returns an error leaves memory and disk with
the custody they have in the same run without its steps. -/
theorem custody_durable (custody : Option S) {labels : List (Label S)}
    (h : OrderlyRun publicKey identity custody labels) :
    ((∃ id, (Device.after publicKey identity custody labels).calls id = .returned true) →
      Valid publicKey identity (Device.after publicKey identity custody labels).committed) ∧
    ∀ id before label, before ++ [label] <+: labels →
      (∀ ok, (Device.after publicKey identity custody before).calls id ≠ .returned ok) →
      (Device.after publicKey identity custody (before ++ [label])).calls id = .returned false →
      (Device.after publicKey identity custody (before ++ [label])).memory =
        (Device.after publicKey identity custody (without id (before ++ [label]))).memory ∧
      (Device.after publicKey identity custody (before ++ [label])).committed =
        (Device.after publicKey identity custody (without id (before ++ [label]))).committed := by
  obtain ⟨turn, hinv⟩ := inv_run custody h
  refine ⟨fun hok => (hinv.acknowledged hok).2.1, ?_⟩
  rintro id before label ⟨rest, rfl⟩ hnot hreturned
  obtain ⟨hbefore, ⟨henabled, hcalm⟩, -⟩ :=
    Transition.meets_append.1 (Transition.meets_append.1 h).1
  obtain ⟨turn', hinv'⟩ := inv_run custody hbefore
  rw [Device.after, Transition.run_append] at hreturned
  rw [Device.after, Transition.run_append]
  obtain ⟨howner, hmemory, hdisk⟩ :=
    custody_of_error hinv' (sim_run custody id hbefore hnot) henabled hcalm hnot hreturned
  rw [without_append, if_pos howner, List.append_nil]
  exact ⟨hmemory, hdisk⟩

/-! ## Two calls at a time -/

/-- A seed is the number of its root. -/
def exampleKey (seed : ℕ) : Bytes32 := BitVec.ofNat 256 seed

/-- A backup is imported, and while its checkpoint is written a transfer brings the same seed. That
checkpoint fails, and the one of the transfer goes through. -/
def overlapping : List (Label ℕ) :=
  [.begin 0 (.backup ⟨5, 2⟩ (some 5)), .lock (.call 0), .copy (.call 0),
    .begin 1 (.transfer (some (⟨5, 2⟩, 5))), .finish (.call 0) (.failed false), .lock (.call 1),
    .copy (.call 1), .finish (.call 1) .ok]

/-- The transfer is answered with `Persisted`, and no seed is on disk or in memory. -/
theorem acknowledged_seed_erased :
    Transition.Meets (Device.step exampleKey ⟨5, 2⟩) Device.Enabled (.start none) overlapping ∧
      (Device.after exampleKey ⟨5, 2⟩ none overlapping).calls 1 = .returned true ∧
      (Device.after exampleKey ⟨5, 2⟩ none overlapping).memory = none ∧
      ¬ Valid exampleKey ⟨5, 2⟩ (Device.after exampleKey ⟨5, 2⟩ none overlapping).committed := by
  refine ⟨⟨rfl, ⟨rfl, ?_⟩, ⟨_, rfl, rfl, rfl⟩, rfl, ⟨_, rfl, rfl, fun _ => rfl⟩, ⟨rfl, ?_⟩,
    ⟨_, rfl, rfl, rfl⟩, ⟨_, rfl, rfl, fun _ => rfl⟩, trivial⟩, rfl, rfl, ?_⟩
  · rintro id ⟨⟩
    trivial
  · rintro id ⟨⟩
    trivial
  · rintro ⟨seed, hseed, -⟩
    exact nomatch hseed

/-- One after the other: the import fails and is rolled back, and then the transfer goes through. -/
def inTurn : List (Label ℕ) :=
  [.begin 0 (.backup ⟨5, 2⟩ (some 5)), .lock (.call 0), .copy (.call 0),
    .finish (.call 0) (.failed false), .lock (.call 0), .copy (.call 0),
    .finish (.call 0) .ok, .begin 1 (.transfer (some (⟨5, 2⟩, 5))), .lock (.call 1),
    .copy (.call 1), .finish (.call 1) .ok]

theorem inTurn_orderly : OrderlyRun exampleKey ⟨5, 2⟩ none inTurn := by
  have hcall : ∀ {owner : ℕ} {e : Device ℕ}, (e.calls owner).Running →
      ∀ id, Owner.call owner = .call id → (e.calls id).Running := by
    rintro owner e hrunning id ⟨⟩
    exact hrunning
  refine ⟨⟨rfl, fun _ id => ?_⟩, ⟨⟨rfl, hcall trivial⟩, trivial⟩, ⟨⟨_, rfl, rfl, rfl⟩, trivial⟩,
    ⟨⟨_, rfl, rfl, fun _ => rfl⟩, fun _ h => nomatch h⟩, ⟨⟨rfl, hcall trivial⟩, trivial⟩,
    ⟨⟨_, rfl, rfl, rfl⟩, trivial⟩, ⟨⟨_, rfl, rfl, fun _ => rfl⟩, fun _ _ => .inl trivial⟩,
    ⟨rfl, fun _ id => ?_⟩, ⟨⟨rfl, hcall trivial⟩, trivial⟩, ⟨⟨_, rfl, rfl, rfl⟩, trivial⟩,
    ⟨⟨_, rfl, rfl, fun _ => rfl⟩, fun _ h => nomatch h⟩, trivial⟩
  · exact False.elim
  · -- the first call returned, and nobody else has begun
    rcases id with _ | id
    · exact False.elim
    · exact False.elim

theorem custody_durable_inTurn :
    Valid exampleKey ⟨5, 2⟩ (Device.after exampleKey ⟨5, 2⟩ none inTurn).committed :=
  (custody_durable none inTurn_orderly).1 ⟨1, rfl⟩

end Polyvisor.RootCustody
