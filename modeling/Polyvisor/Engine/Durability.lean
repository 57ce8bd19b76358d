import Polyvisor.Engine.Operations
import Mathlib.Logic.Function.Basic

/-!
# Acknowledged operations are durable

Any number of calls of the engine's operations, each performing its effects one at a time among
those of every other task, and `write_persistence` of `kernel/src/lib.rs` beside them: it prepares a
delta, writes it and acknowledges it, or finds nothing to write. What it covers is everything before
the settled mark, so a call is covered from its last settle on.

Which call recorded a mutation, and which calls had returned when a delta was cut, is bookkeeping
that no code reads.

## Main results

* `Inv` and `inv_step`: how far the settled mark, the outstanding delta and the acknowledged ones
  reach into what each call recorded.
* `operations_durable`: once a persist that began after a call's `Ok` has succeeded, the committed
  journal has every mutation the call made.
* `contacts_not_committed`: the last adoption of a pairing is not covered by the persist after it.
-/

namespace Polyvisor

variable {B V : Type}

namespace JournalledEngine

/-- How many of the recorded mutations the acknowledged deltas carry. -/
def acknowledgedCount (e : JournalledEngine B V) : ℕ :=
  (e.acknowledged.flatMap (·.mutations)).length

/-- How many of them are settled. -/
def settledCount (e : JournalledEngine B V) : ℕ :=
  e.acknowledgedCount + e.persistence.storage.settled

end JournalledEngine

/-- The labels of the machine under the operations that are steps of `write_persistence`. -/
def JournalLabel.isPersist : JournalLabel B V → Bool
  | .cut | .prepare _ | .acknowledge | .abandon => true
  | _ => false

/-- The engine, the calls made on it, and how far they got. -/
structure Durability (B V : Type) where
  engine : JournalledEngine B V
  /-- The calls made so far, each with the effects it has still to perform: none once it has
  returned `Ok`. -/
  calls : ℕ → Option (Operation B × List (OpEffect B)) := fun _ => none
  /-- Who recorded each mutation: a call, or another task. -/
  authors : List (Option ℕ) := []
  /-- The calls that had returned when the outstanding delta was cut. -/
  atCut : ℕ → Bool := fun _ => false
  /-- The calls that had returned before a persist began that has succeeded since. -/
  persisted : ℕ → Bool := fun _ => false

/-- What can happen next. -/
inductive DurableLabel (B V : Type) where
  | call (id : ℕ) (op : Operation B)
  /-- A call performs its next effect. -/
  | advance (id : ℕ)
  /-- Another task stores, prunes, forgets or settles. -/
  | other (l : JournalLabel B V)
  /-- `write_persistence` reads the settled mark, or finds nothing to write and succeeds. -/
  | cut
  | prepare (control : EngineControl V)
  /-- The prepared delta is committed and acknowledged. -/
  | acknowledge
  /-- `write_persistence` fails. -/
  | abandon

namespace Durability

/-- Whether a call has returned `Ok`. -/
def returned (s : Durability B V) (id : ℕ) : Bool :=
  match s.calls id with
  | some (_, []) => true
  | _ => false

/-- Go on with the engine as `who` left it. -/
def perform (s : Durability B V) (who : Option ℕ) (engine : JournalledEngine B V) :
    Durability B V :=
  { s with
    engine := engine
    authors := s.authors ++
      List.replicate (engine.recorded.length - s.engine.recorded.length) who }

/-- Record how far a call got. -/
def setCall (s : Durability B V) (id : ℕ) (op : Operation B) (rest : List (OpEffect B)) :
    Durability B V :=
  { s with calls := Function.update s.calls id (some (op, rest)) }

variable (codec : Codec B) (sha : Sha256)

/-- One step. A label that does not apply changes nothing. -/
def step (s : Durability B V) : DurableLabel B V → Durability B V
  | .call id op =>
    match s.calls id with
    | some _ => s
    | none => s.setCall id op (op.effects sha)
  | .advance id =>
    match s.calls id with
    | some (op, effect :: rest) =>
      (s.perform (some id) (effect.run codec s.engine)).setCall id op rest
    | _ => s
  | .other l => if l.isPersist then s else s.perform none (s.engine.step codec l)
  | .cut =>
    match s.engine.outstanding, s.engine.persistence.cut with
    | .idle, some _ => { s with engine := s.engine.step codec .cut, atCut := s.returned }
    | .idle, none => { s with persisted := fun id => s.persisted id || s.returned id }
    | _, _ => s
  | .prepare control => { s with engine := s.engine.step codec (.prepare control) }
  | .acknowledge =>
    match s.engine.outstanding with
    | .prepared _ =>
      { s with
        engine := s.engine.step codec .acknowledge
        persisted := fun id => s.persisted id || s.atCut id }
    | _ => s
  | .abandon => { s with engine := s.engine.step codec .abandon }

/-- Every mutation of a call is among the first `n`. -/
def Covered (s : Durability B V) (id n : ℕ) : Prop :=
  ∀ i, s.authors[i]? = some (some id) → i < n

/-- When a persist reads the settled mark, something has settled since the last mutation of each
`adopt_us`, each `document_adopt` of a private partition and each overtaken call without a commit
that has returned. -/
def SettledBeforeCut (s : Durability B V) (l : DurableLabel B V) : Prop :=
  l = .cut → ∀ id op, s.calls id = some (op, []) → op.SettlesEarly →
    s.Covered id s.engine.settledCount

end Durability

/-! ## The engine under the calls -/

namespace JournalledEngine

/-- A step that leaves the persist alone and takes nothing back. -/
structure Extends (e e' : JournalledEngine B V) : Prop where
  acknowledged : e'.acknowledged = e.acknowledged
  outstanding : e'.outstanding = e.outstanding
  recorded : e.recorded <+: e'.recorded
  settled : e.settledCount ≤ e'.settledCount

theorem Extends.acknowledgedCount {e e' : JournalledEngine B V} (h : e.Extends e') :
    e'.acknowledgedCount = e.acknowledgedCount := by
  rw [JournalledEngine.acknowledgedCount, h.acknowledged]
  rfl

theorem JournalInv.recorded_length {e : JournalledEngine B V} (h : e.JournalInv) :
    e.recorded.length = e.acknowledgedCount + e.persistence.storage.pending.length := by
  rw [h.recorded, List.length_append]
  rfl

theorem JournalInv.settledCount_le {e : JournalledEngine B V} (h : e.JournalInv) :
    e.settledCount ≤ e.recorded.length := by
  rw [h.recorded_length]
  exact Nat.add_le_add_left h.settled _

theorem extends_refl (e : JournalledEngine B V) : e.Extends e :=
  ⟨rfl, rfl, List.prefix_rfl, le_rfl⟩

theorem extends_mutated (e : JournalledEngine B V) {storage : SnapshotStorage B}
    (hw : ∃ ms, e.persistence.storage.Writes storage ms) : e.Extends (e.mutated storage) := by
  obtain ⟨ms, hw⟩ := hw
  refine ⟨rfl, rfl, List.prefix_append _ _, ?_⟩
  show e.acknowledgedCount + e.persistence.storage.settled ≤ e.acknowledgedCount + storage.settled
  rw [hw.settled]

theorem settledCount_settle (codec : Codec B) {e : JournalledEngine B V} (h : e.JournalInv) :
    (e.step codec .settle).settledCount = (e.step codec .settle).recorded.length :=
  h.recorded_length.symm

theorem extends_step (codec : Codec B) {e : JournalledEngine B V} (h : e.JournalInv)
    {l : JournalLabel B V} (hl : l.isPersist = false) : e.Extends (e.step codec l) := by
  cases l with
  | persistItems t commits fragments =>
    exact e.extends_mutated (SnapshotStorage.writes_persistItems codec _ t commits fragments)
  | restore t commits fragments =>
    exact e.extends_mutated (SnapshotStorage.writes_restore codec _ t commits fragments)
  | prune t => exact e.extends_mutated (SnapshotStorage.writes_prune codec _ t)
  | forgetTree t => exact e.extends_mutated ⟨_, SnapshotStorage.writes_forgetTree _ t⟩
  | deleteTree t => exact e.extends_mutated ⟨_, SnapshotStorage.writes_forgetTree _ t⟩
  | admission lifecycle shared => exact ⟨rfl, rfl, List.prefix_rfl, le_rfl⟩
  | settle =>
    refine ⟨rfl, rfl, List.prefix_rfl, ?_⟩
    rw [settledCount_settle codec h]
    exact h.settledCount_le
  | cut => cases hl
  | prepare control => cases hl
  | acknowledge => cases hl
  | abandon => cases hl

/-- An effect is a step that leaves the persist alone, or nothing. -/
theorem run_cases (codec : Codec B) (e : JournalledEngine B V) (effect : OpEffect B) :
    (∃ l : JournalLabel B V, l.isPersist = false ∧ effect.run codec e = e.step codec l) ∨
      effect.run codec e = e := by
  cases effect with
  | persistItems t commits fragments => exact .inl ⟨.persistItems t commits fragments, rfl, rfl⟩
  | restore t commits fragments => exact .inl ⟨.restore t commits fragments, rfl, rfl⟩
  | prune t => exact .inl ⟨.prune t, rfl, rfl⟩
  | forgetTree t => exact .inl ⟨.forgetTree t, rfl, rfl⟩
  | deleteTree t => exact .inl ⟨.deleteTree t, rfl, rfl⟩
  | settle => exact .inl ⟨.settle, rfl, rfl⟩
  | settleUnsettled =>
    rw [OpEffect.run]
    split
    · exact .inl ⟨.settle, rfl, rfl⟩
    · exact .inr rfl

theorem extends_run (codec : Codec B) {e : JournalledEngine B V} (h : e.JournalInv)
    (effect : OpEffect B) : e.Extends (effect.run codec e) := by
  rcases run_cases codec e effect with ⟨l, hl, heq⟩ | heq
  · rw [heq]
    exact extends_step codec h hl
  · rw [heq]
    exact e.extends_refl

theorem journalInv_run (codec : Codec B) {e : JournalledEngine B V} (h : e.JournalInv)
    (effect : OpEffect B) : (effect.run codec e).JournalInv := by
  rcases run_cases codec e effect with ⟨l, -, heq⟩ | heq
  · rw [heq]
    exact journalInv_step codec e l h
  · rwa [heq]

/-- After an effect that settles, everything recorded is settled. -/
theorem settledCount_run (codec : Codec B) {e : JournalledEngine B V} (h : e.JournalInv)
    {effect : OpEffect B} (hsettles : effect.settles = true) :
    (effect.run codec e).settledCount = (effect.run codec e).recorded.length := by
  cases effect with
  | settle => exact settledCount_settle codec h
  | settleUnsettled =>
    rw [OpEffect.run]
    split
    · exact settledCount_settle codec h
    next hnone =>
      have hle := h.settled
      have hnot : ¬ e.persistence.storage.settled < e.persistence.storage.pending.length := by
        simpa [SnapshotStorage.hasUnsettled] using hnone
      rw [h.recorded_length, settledCount]
      omega
  | persistItems t commits fragments => cases hsettles
  | restore t commits fragments => cases hsettles
  | prune t => cases hsettles
  | forgetTree t => cases hsettles
  | deleteTree t => cases hsettles

end JournalledEngine

namespace Durability

variable {codec : Codec B} {sha : Sha256} {s s' : Durability B V}

/-! ## Who recorded what -/

theorem Covered.mono {id n n' : ℕ} (h : s.Covered id n) (hle : n ≤ n') : s.Covered id n' :=
  fun i hi => (h i hi).trans_le hle

/-- What another task or another call records is not the call's. -/
theorem Covered.perform {id n : ℕ} (h : s.Covered id n) {who : Option ℕ} (hwho : who ≠ some id)
    (engine : JournalledEngine B V) : (s.perform who engine).Covered id n := by
  intro i hi
  rcases lt_or_ge i s.authors.length with hlt | hge
  · rw [Durability.perform, List.getElem?_append_left hlt] at hi
    exact h i hi
  · rw [Durability.perform, List.getElem?_append_right hge, List.getElem?_replicate] at hi
    split at hi
    · exact absurd (Option.some.inj hi) hwho
    · cases hi

/-- Every recorded mutation is among the recorded ones. -/
theorem covered_length (h : s.authors.length = s.engine.recorded.length) (id : ℕ) :
    s.Covered id s.engine.recorded.length := by
  intro i hi
  obtain ⟨hlt, -⟩ := List.getElem?_eq_some_iff.1 hi
  rwa [h] at hlt

theorem authors_length_perform (h : s.authors.length = s.engine.recorded.length) (who : Option ℕ)
    {engine : JournalledEngine B V} (hrecorded : s.engine.recorded <+: engine.recorded) :
    (s.perform who engine).authors.length = engine.recorded.length := by
  have hle := hrecorded.length_le
  rw [perform, List.length_append, List.length_replicate, h]
  omega

/-! ## What is kept -/

/-- How far the outstanding delta reaches. -/
def cutCount (e : JournalledEngine B V) : Option ℕ :=
  match e.outstanding with
  | .idle => none
  | .cut mark => some (e.acknowledgedCount + mark.1)
  | .prepared prepared => some (e.acknowledgedCount + prepared.pending)

/-- What a call that settles last has still to do covers what it has recorded. -/
def Progress (s : Durability B V) (id : ℕ) (rest : List (OpEffect B)) : Prop :=
  settledAfter false rest = true ∨
    s.Covered id s.engine.settledCount ∧ settledAfter true rest = true

/-- What every step keeps. -/
structure Inv (s : Durability B V) : Prop where
  journal : s.engine.JournalInv
  authors : s.authors.length = s.engine.recorded.length
  uncalled : ∀ id, s.calls id = none → s.Covered id 0
  progress : ∀ id op rest, s.calls id = some (op, rest) → ¬ op.SettlesEarly → s.Progress id rest
  atCut : ∀ id, s.atCut id = true → s.returned id = true ∧
    ∀ n, cutCount s.engine = some n → s.Covered id n
  persisted : ∀ id, s.persisted id = true → s.returned id = true ∧
    s.Covered id s.engine.acknowledgedCount

theorem Progress.covered {id : ℕ} (h : s.Progress id []) : s.Covered id s.engine.settledCount := by
  rcases h with h | ⟨h, -⟩
  · cases h
  · exact h

theorem cutCount_of_extends {e e' : JournalledEngine B V} (h : e.Extends e') :
    cutCount e' = cutCount e := by
  rw [cutCount, cutCount, h.outstanding, h.acknowledgedCount]

/-- A call has returned when its effects are done. -/
theorem returned_iff {id : ℕ} : s.returned id = true ↔ ∃ op, s.calls id = some (op, []) := by
  rw [returned]
  constructor
  · intro h
    split at h
    next op hcalls => exact ⟨op, hcalls⟩
    next => cases h
  · rintro ⟨op, hcalls⟩
    rw [hcalls]

/-- Another task works. -/
theorem Inv.performOther (h : s.Inv) {engine : JournalledEngine B V}
    (hextends : s.engine.Extends engine) (hjournal : engine.JournalInv) :
    (s.perform none engine).Inv where
  journal := hjournal
  authors := authors_length_perform h.authors none hextends.recorded
  uncalled id hid := (h.uncalled id hid).perform (by simp) engine
  progress id op rest hid hop := by
    refine (h.progress id op rest hid hop).imp_right fun ⟨hcovered, hrest⟩ => ⟨?_, hrest⟩
    exact (hcovered.perform (by simp) engine).mono hextends.settled
  atCut id hid := by
    refine ⟨(h.atCut id hid).1, fun n hn => ?_⟩
    have hn : cutCount s.engine = some n := cutCount_of_extends hextends ▸ hn
    exact ((h.atCut id hid).2 n hn).perform (by simp) engine
  persisted id hid := by
    refine ⟨(h.persisted id hid).1, ?_⟩
    show (s.perform none engine).Covered id engine.acknowledgedCount
    rw [hextends.acknowledgedCount]
    exact (h.persisted id hid).2.perform (by simp) engine

@[simp]
theorem calls_setCall_self (id : ℕ) (op : Operation B) (rest : List (OpEffect B)) :
    (s.setCall id op rest).calls id = some (op, rest) :=
  Function.update_self _ _ _

@[simp]
theorem calls_setCall_of_ne {id id' : ℕ} (hne : id' ≠ id) (op : Operation B)
    (rest : List (OpEffect B)) : (s.setCall id op rest).calls id' = s.calls id' :=
  Function.update_of_ne hne _ _

theorem returned_setCall_of_ne {id id' : ℕ} (hne : id' ≠ id) (op : Operation B)
    (rest : List (OpEffect B)) : (s.setCall id op rest).returned id' = s.returned id' := by
  rw [returned, returned, calls_setCall_of_ne hne]

/-- A call begins. -/
theorem inv_call (h : s.Inv) {id : ℕ} (hid : s.calls id = none) (op : Operation B) :
    (s.setCall id op (op.effects sha)).Inv := by
  -- a call that has returned is another one
  have hne {id' : ℕ} (hreturned : s.returned id' = true) : id' ≠ id := by
    rintro rfl
    obtain ⟨op', hcalls⟩ := returned_iff.1 hreturned
    rw [hid] at hcalls
    cases hcalls
  refine ⟨h.journal, h.authors, fun id' hid' => ?_, fun id' op' rest hid' hop => ?_,
    fun id' hcut => ?_, fun id' hpersisted => ?_⟩
  · rcases eq_or_ne id' id with rfl | hne
    · exact h.uncalled id' hid
    · rw [calls_setCall_of_ne hne] at hid'
      exact h.uncalled id' hid'
  · rcases eq_or_ne id' id with rfl | hne
    · rw [calls_setCall_self] at hid'
      cases hid'
      exact .inr ⟨(h.uncalled id' hid).mono (Nat.zero_le _), settled_effects hop⟩
    · rw [calls_setCall_of_ne hne] at hid'
      exact h.progress id' op' rest hid' hop
  · obtain ⟨hreturned, hcovered⟩ := h.atCut id' hcut
    exact ⟨(returned_setCall_of_ne (hne hreturned) _ _).trans hreturned, hcovered⟩
  · obtain ⟨hreturned, hcovered⟩ := h.persisted id' hpersisted
    exact ⟨(returned_setCall_of_ne (hne hreturned) _ _).trans hreturned, hcovered⟩

/-- A call performs its next effect. -/
theorem inv_advance (h : s.Inv) {id : ℕ} {op : Operation B} {effect : OpEffect B}
    {rest : List (OpEffect B)} (hid : s.calls id = some (op, effect :: rest)) :
    ((s.perform (some id) (effect.run codec s.engine)).setCall id op rest).Inv := by
  have hextends := JournalledEngine.extends_run codec h.journal effect
  have hlength := authors_length_perform h.authors (some id) hextends.recorded
  have hother {id' n : ℕ} (hne : id' ≠ id) (hcovered : s.Covered id' n) :
      (s.perform (some id) (effect.run codec s.engine)).Covered id' n :=
    hcovered.perform (fun heq => hne (Option.some.inj heq).symm) _
  have hne {id' : ℕ} (hreturned : s.returned id' = true) : id' ≠ id := by
    rintro rfl
    obtain ⟨op', hcalls⟩ := returned_iff.1 hreturned
    rw [hid] at hcalls
    cases hcalls
  refine ⟨JournalledEngine.journalInv_run codec h.journal effect, hlength, fun id' hid' => ?_,
    fun id' op' rest' hid' hop => ?_, fun id' hcut => ?_, fun id' hpersisted => ?_⟩
  · rcases eq_or_ne id' id with rfl | hne
    · rw [calls_setCall_self] at hid'
      cases hid'
    · rw [calls_setCall_of_ne hne] at hid'
      exact hother hne (h.uncalled id' hid')
  · rcases eq_or_ne id' id with rfl | hne
    · rw [calls_setCall_self] at hid'
      cases hid'
      have hrest : settledAfter effect.settles rest = true := by
        rcases h.progress id' op _ hid hop with hrest | ⟨-, hrest⟩
        · exact hrest
        · exact hrest
      cases hsettles : effect.settles with
      | false => exact .inl (hsettles ▸ hrest)
      | true =>
        refine .inr ⟨?_, hsettles ▸ hrest⟩
        have hall := JournalledEngine.settledCount_run codec h.journal hsettles
        intro i hi
        have hlt := covered_length hlength id' i hi
        exact hlt.trans_eq hall.symm
    · rw [calls_setCall_of_ne hne] at hid'
      refine (h.progress id' op' rest' hid' hop).imp_right fun ⟨hcovered, hrest⟩ => ⟨?_, hrest⟩
      exact (hother hne hcovered).mono hextends.settled
  · obtain ⟨hreturned, hcovered⟩ := h.atCut id' hcut
    refine ⟨(returned_setCall_of_ne (hne hreturned) _ _).trans hreturned, fun n hn => ?_⟩
    exact hother (hne hreturned) (hcovered n (cutCount_of_extends hextends ▸ hn))
  · obtain ⟨hreturned, hcovered⟩ := h.persisted id' hpersisted
    refine ⟨(returned_setCall_of_ne (hne hreturned) _ _).trans hreturned, ?_⟩
    have hmono := hother (hne hreturned) hcovered
    rwa [← hextends.acknowledgedCount] at hmono

/-- What has returned is settled when a persist looks. -/
theorem Inv.covered_of_returned (h : s.Inv) (hl : s.SettledBeforeCut .cut) {id : ℕ}
    (hreturned : s.returned id = true) : s.Covered id s.engine.settledCount := by
  obtain ⟨op, hcalls⟩ := returned_iff.1 hreturned
  by_cases hearly : op.SettlesEarly
  · exact hl rfl id op hcalls hearly
  · exact (h.progress id op [] hcalls hearly).covered

/-- A persist reads the settled mark, or finds nothing settled. -/
theorem cut_cases (p : Persistence B) :
    p.cut = none ∧ p.storage.settled = 0 ∨
      ∃ mark, p.cut = some mark ∧ mark.1 = p.storage.settled := by
  rw [Persistence.cut]
  split
  next hnothing => exact .inl ⟨rfl, hnothing.1⟩
  next => exact .inr ⟨_, rfl, rfl⟩

theorem inv_cut (h : s.Inv) (hl : s.SettledBeforeCut .cut) : (s.step codec sha .cut).Inv := by
  have hcovered {id : ℕ} (hid : s.returned id = true) := h.covered_of_returned hl hid
  rw [step]
  split
  next mark hidle hmark =>
    -- a delta is cut at the settled mark
    obtain ⟨hnone, -⟩ | ⟨mark', hsome, heq⟩ := cut_cases s.engine.persistence
    · rw [hnone] at hmark
      cases hmark
    rw [hsome] at hmark
    cases hmark
    have hengine : s.engine.step codec .cut =
        { s.engine with outstanding := .cut mark, sinceCut := [] } := by
      rw [JournalledEngine.step, hidle, hsome]
    have hjournal := JournalledEngine.journalInv_step codec s.engine .cut h.journal
    rw [hengine] at hjournal ⊢
    refine ⟨hjournal, h.authors, h.uncalled, h.progress, fun id hid => ⟨hid, fun n hn => ?_⟩,
      h.persisted⟩
    cases hn
    show s.Covered id (s.engine.acknowledgedCount + mark.1)
    rw [heq]
    exact hcovered hid
  next hidle hmark =>
    -- nothing is settled, so all that is was acknowledged
    obtain ⟨-, hzero⟩ | ⟨mark', hsome, -⟩ := cut_cases s.engine.persistence
    · refine ⟨h.journal, h.authors, h.uncalled, h.progress, h.atCut, fun id hid => ?_⟩
      rcases Bool.or_eq_true_iff.1 hid with hid | hid
      · exact h.persisted id hid
      · refine ⟨hid, ?_⟩
        have hall := hcovered hid
        rwa [JournalledEngine.settledCount, hzero, Nat.add_zero] at hall
    · rw [hsome] at hmark
      cases hmark
  next => exact h

/-- Copying the pending prefix leaves the cut where it was. -/
theorem inv_prepare (h : s.Inv) (control : EngineControl V) :
    (s.step codec sha (.prepare control)).Inv := by
  have hjournal := JournalledEngine.journalInv_step codec s.engine (.prepare control) h.journal
  rw [step]
  rw [JournalledEngine.step] at hjournal ⊢
  split at hjournal
  next mark hcut =>
    refine ⟨hjournal, h.authors, h.uncalled, h.progress, fun id hid => ⟨(h.atCut id hid).1, ?_⟩,
      h.persisted⟩
    intro n hn
    refine (h.atCut id hid).2 n ?_
    rw [cutCount, hcut]
    exact hn
  next => exact h

/-- Acknowledging a delta covers what had returned when it was cut. -/
theorem inv_acknowledge (h : s.Inv) : (s.step codec sha .acknowledge).Inv := by
  have hjournal := JournalledEngine.journalInv_step codec s.engine .acknowledge h.journal
  rw [step]
  split
  next prepared hout =>
    have hcut : cutCount s.engine = some (s.engine.acknowledgedCount + prepared.pending) := by
      rw [cutCount, hout]
    have ho := h.journal.outstanding
    rw [JournalledEngine.OutstandingInv, hout] at ho
    obtain ⟨⟨hlen, -⟩, htake⟩ := ho
    have hengine : s.engine.step codec .acknowledge =
        { s.engine with
          persistence := s.engine.persistence.acknowledgePersistence prepared
          journal := s.engine.journal.apply prepared.delta
          acknowledged := s.engine.acknowledged ++ [prepared.delta]
          outstanding := .idle } := by
      rw [JournalledEngine.step, hout]
    rw [hengine] at hjournal ⊢
    have hcount : ((s.engine.acknowledged ++ [prepared.delta]).flatMap (·.mutations)).length =
        s.engine.acknowledgedCount + prepared.pending := by
      rw [List.flatMap_append, List.flatMap_singleton, List.length_append, htake,
        List.length_take, min_eq_left (by omega)]
      rfl
    refine ⟨hjournal, h.authors, h.uncalled, fun id op rest hid hop => ?_,
      fun id hid => ⟨(h.atCut id hid).1, fun n hn => by cases hn⟩, fun id hid => ?_⟩
    · refine (h.progress id op rest hid hop).imp_right fun hboth => ⟨?_, hboth.2⟩
      -- what the delta takes off the mark, the acknowledged ones gain
      refine hboth.1.mono ?_
      show s.engine.acknowledgedCount + s.engine.persistence.storage.settled ≤
        List.length _ + (s.engine.persistence.storage.settled - prepared.pending)
      rw [hcount]
      omega
    · show s.returned id = true ∧ s.Covered id (List.length _)
      rw [hcount]
      rcases Bool.or_eq_true_iff.1 hid with hid | hid
      · obtain ⟨hreturned, hcovered⟩ := h.persisted id hid
        exact ⟨hreturned, hcovered.mono (Nat.le_add_right _ _)⟩
      · exact ⟨(h.atCut id hid).1, (h.atCut id hid).2 _ hcut⟩
  next => exact h

theorem inv_abandon (h : s.Inv) : (s.step codec sha .abandon).Inv :=
  ⟨JournalledEngine.journalInv_step codec s.engine .abandon h.journal, h.authors, h.uncalled,
    h.progress, fun id hid => ⟨(h.atCut id hid).1, fun _ hn => by cases hn⟩, h.persisted⟩

/-- Every step keeps the invariant. -/
theorem inv_step (l : DurableLabel B V) (hl : s.SettledBeforeCut l) (h : s.Inv) :
    (s.step codec sha l).Inv := by
  cases l with
  | call id op =>
    rw [step]
    split
    next => exact h
    next hid => exact inv_call h hid op
  | advance id =>
    rw [step]
    split
    next op effect rest hid => exact inv_advance h hid
    next => exact h
  | other l =>
    rw [step]
    split
    next => exact h
    next hpersist =>
      have hpersist : l.isPersist = false := by simpa using hpersist
      exact h.performOther (JournalledEngine.extends_step codec h.journal hpersist)
        (JournalledEngine.journalInv_step codec s.engine l h.journal)
  | cut => exact inv_cut h hl
  | prepare control => exact inv_prepare h control
  | acknowledge => exact inv_acknowledge h
  | abandon => exact inv_abandon h

theorem inv_initial {e₀ : JournalledEngine B V} (h : e₀.Initial) :
    Inv ({ engine := e₀ } : Durability B V) where
  journal := JournalledEngine.journalInv_initial h
  authors := by
    rw [h.recorded]
    rfl
  uncalled id _ i hi := by cases hi
  progress id op rest hid := by cases hid
  atCut id hid := by cases hid
  persisted id hid := by cases hid

/-! ## What is durable -/

/-- The engine stays as it is, or takes a step of its own. -/
theorem engine_step_cases (codec : Codec B) (sha : Sha256) (s : Durability B V)
    (l : DurableLabel B V) :
    (s.step codec sha l).engine = s.engine ∨
      ∃ l', (s.step codec sha l).engine = s.engine.step codec l' := by
  cases l with
  | call id op =>
    rw [step]
    split
    next => exact .inl rfl
    next => exact .inl rfl
  | advance id =>
    rw [step]
    split
    next op effect rest hid =>
      rcases JournalledEngine.run_cases codec s.engine effect with ⟨l', -, heq⟩ | heq
      · exact .inr ⟨l', heq⟩
      · exact .inl heq
    next => exact .inl rfl
  | other l' =>
    rw [step]
    split
    next => exact .inl rfl
    next => exact .inr ⟨l', rfl⟩
  | cut =>
    rw [step]
    split
    next => exact .inr ⟨.cut, rfl⟩
    next => exact .inl rfl
    next => exact .inl rfl
  | prepare control => exact .inr ⟨.prepare control, rfl⟩
  | acknowledge =>
    rw [step]
    split
    next => exact .inr ⟨.acknowledge, rfl⟩
    next => exact .inl rfl
  | abandon => exact .inr ⟨.abandon, rfl⟩

/-- The committed journal is the initial one with the acknowledged deltas applied. -/
theorem journalApplied_durable (journal : JournalState B V) (l : DurableLabel B V)
    (h : s.engine.JournalApplied journal) : (s.step codec sha l).engine.JournalApplied journal := by
  rcases engine_step_cases codec sha s l with heq | ⟨l', heq⟩
  · rwa [heq]
  · rw [heq]
    exact JournalledEngine.journalApplied_step codec journal s.engine l' h

/-- Every mutation the call made is in the committed journal, in its place: nothing that was
recorded before it is missing, and what it did to a key stands unless a later committed mutation
of that key undid it. -/
def Committed (s : Durability B V) (id : ℕ) : Prop :=
  ∀ i, s.authors[i]? = some (some id) → ∃ m later,
    s.engine.recorded[i]? = some m ∧
    s.engine.acknowledged.flatMap (·.mutations) = s.engine.recorded.take i ++ m :: later ∧
    ∀ k, m.Touches k → (∀ m' ∈ later, ¬ m'.Touches k) → s.engine.journal.contents k = m.leaves

/-- What the acknowledged deltas reach is committed. -/
theorem committed_of_covered (h : s.Inv) {journal : JournalState B V}
    (happlied : s.engine.JournalApplied journal) {id : ℕ}
    (hcovered : s.Covered id s.engine.acknowledgedCount) : s.Committed id := by
  intro i hi
  have hlt : i < (s.engine.acknowledged.flatMap (·.mutations)).length := hcovered i hi
  have hrecorded := h.journal.recorded
  have hcontents : s.engine.journal.contents =
      replay (s.engine.acknowledged.flatMap (·.mutations)) journal.contents := by
    rw [happlied, JournalState.contents_foldl_apply]
  generalize s.engine.acknowledged.flatMap (·.mutations) = committed at *
  obtain ⟨m, hm⟩ : ∃ m, committed[i]? = some m := ⟨_, List.getElem?_eq_getElem hlt⟩
  have hsplit : committed = s.engine.recorded.take i ++ m :: committed.drop (i + 1) := by
    rw [hrecorded, List.take_append_of_le_length hlt.le]
    conv_lhs => rw [← List.take_append_drop i committed]
    rw [List.drop_eq_getElem_cons hlt, (List.getElem?_eq_some_iff.1 hm).2]
  refine ⟨m, committed.drop (i + 1), ?_, hsplit, fun k hk hlater => ?_⟩
  · rw [hrecorded, List.getElem?_append_left hlt, hm]
  · rw [hcontents, hsplit]
    exact replay_of_touches hk hlater _

/-- Once a persist that began after a call's `Ok` has succeeded, the committed journal has every
mutation the call made, if something settles between the last mutation of each returned adoption
and the next persist. -/
theorem operations_durable (codec : Codec B) (sha : Sha256) (e₀ : JournalledEngine B V)
    (h₀ : e₀.Initial) (ls : List (DurableLabel B V))
    (hmeets : Transition.Meets (step codec sha) SettledBeforeCut { engine := e₀ } ls) (id : ℕ)
    (hid : (Transition.run (step codec sha) { engine := e₀ } ls).persisted id = true) :
    (Transition.run (step codec sha) { engine := e₀ } ls).returned id = true ∧
      (Transition.run (step codec sha) { engine := e₀ } ls).Committed id := by
  have hinv := Transition.run_preserves_of_meets (fun _ l hl h => inv_step l hl h) hmeets
    (inv_initial h₀)
  have happlied : (Transition.run (step codec sha) { engine := e₀ } ls).engine.JournalApplied
      e₀.journal := by
    refine @Transition.run_preserves _ _ (step codec sha)
      (fun s : Durability B V => s.engine.JournalApplied e₀.journal)
      (fun _ l h => journalApplied_durable e₀.journal l h) _ ?_ ls
    simp [JournalledEngine.JournalApplied, h₀.acknowledged]
  obtain ⟨hreturned, hcovered⟩ := hinv.persisted id hid
  exact ⟨hreturned, committed_of_covered hinv happlied hcovered⟩

/-! ## The last adoption of a pairing -/

section Pairing

/-- An engine that holds nothing. -/
def emptyEngine : JournalledEngine Unit Unit :=
  ⟨{}, {}, .idle, [], [], []⟩

theorem initial_emptyEngine : emptyEngine.Initial := by
  refine ⟨rfl, rfl, ?_, rfl, rfl, rfl, rfl⟩
  ext1 ⟨t, id, kind⟩
  cases kind with
  | commit => rfl
  | fragment => rfl

/-- A hash under which the names below have trees of their own. -/
def lengthHash : Sha256 := fun bytes => BitVec.ofNat 256 bytes.length

/-- Opening what is open already. -/
def alreadyOpen : OpenDocument Unit where
  opened := ⟨none, none⟩
  document := none

/-- The fragment over the whole of an adopted document. -/
def wholeFragment (tree : TreeId) : WholeFragment Unit where
  anchor := none
  install := some ⟨(⟨0, [], some ⟨tree, 7, [], [], ⟨0, 0⟩⟩⟩, ()), []⟩

/-- `document_adopt` of a private partition whose whole content is the adopted snapshot: no change
of the joiner's own. -/
def adoptPrivate (app : String) : Operation Unit :=
  .documentAdopt alreadyOpen
    ⟨alreadyOpen, documentTree lengthHash app, [], .keyhive [], ⟨[], 0⟩⟩
    (wholeFragment (documentTree lengthHash app))

/-- `write_persistence` runs through. -/
def persistRun : List (DurableLabel Unit Unit) :=
  [.cut, .prepare ⟨[], some (), none⟩, .acknowledge]

/-- A call runs through, with nothing in between. -/
def callRun (id : ℕ) (op : Operation Unit) : List (DurableLabel Unit Unit) :=
  .call id op :: (op.effects lengthHash).map fun _ => .advance id

/-- `adopt_pairing_payload`, and the `write_persistence` of `run_claimed` behind it. -/
def pairingRun : List (DurableLabel Unit Unit) :=
  callRun 0 (.adoptUs none [] [] (wholeFragment (usTree lengthHash))) ++
    callRun 1 (.adoptKeyhive ⟨none, none⟩ [] []) ++
    callRun 2 (adoptPrivate "polyvisor:visor") ++
    callRun 3 (.adoptSharedDocuments ⟨none, none⟩ []) ++
    callRun 4 (adoptPrivate "polyvisor:contacts") ++
    persistRun

/-- The contacts as the pairing stores them. -/
def contactsItem : StoreItem Unit :=
  ⟨documentTree lengthHash "polyvisor:contacts", 7, [], (), .fragment⟩

/-- Every call of the pairing returns and the persist after them succeeds, but the contacts the
last one adopted are in the storage only. -/
theorem contacts_not_committed :
    let s := Transition.run (step JournalledEngine.idleCodec lengthHash) { engine := emptyEngine }
      pairingRun
    s.persisted 4 = true ∧
      s.authors[4]? = some (some 4) ∧
      s.engine.recorded[4]? = some (.put contactsItem) ∧
      s.engine.persistence.storage.contents contactsItem.key = some contactsItem ∧
      s.engine.journal.contents contactsItem.key = none := by
  decide +kernel

/-- A pairing whose persist comes after the next settle. -/
def settledPairingRun : List (DurableLabel Unit Unit) :=
  callRun 4 (adoptPrivate "polyvisor:contacts") ++ [.other .settle] ++ persistRun

theorem operations_durable_settledPairing :
    (Transition.run (step JournalledEngine.idleCodec lengthHash) { engine := emptyEngine }
      settledPairingRun).Committed 4 := by
  refine (operations_durable JournalledEngine.idleCodec lengthHash emptyEngine initial_emptyEngine
    settledPairingRun
    ?_ 4 (by decide +kernel)).2
  have hlabels : settledPairingRun = [.call 4 (adoptPrivate "polyvisor:contacts"), .advance 4,
    .advance 4, .other .settle, .cut, .prepare ⟨[], some (), none⟩, .acknowledge] := rfl
  rw [hlabels]
  simp only [Transition.Meets]
  refine ⟨nofun, nofun, nofun, nofun, ?_, nofun, nofun, trivial⟩
  -- everything recorded is settled when the delta is cut
  intro _ id op hcalls _ i hi
  obtain ⟨hlt, -⟩ := List.getElem?_eq_some_iff.1 hi
  exact hlt.trans_le (by decide +kernel)

end Pairing

end Durability

end Polyvisor
