import Polyvisor.Engine.SnapshotPaths

/-!
# When an engine's snapshot is complete

Runs of the engine between two snapshots. A change of the `us` document mirrors its registers and
writes its tree in one step, as `us_mutate` does behind the lock that `control_barrier` waits for;
a step may also do the one without the other, as `adopt_us` does, which holds no such lock.

## Main results

* `sound_step`: an accepted step keeps what the engine holds in trees that something is bound to.
* `complete_of_accepted`: throughout a run of accepted steps the two snapshots restore the same.
* `unopened_tree_is_lost`: an item of a partition that is not open.
-/

open Std Transition

namespace Polyvisor.Live

variable {B V Us : Type} {sha : Sha256} {codec : Codec B} {s : Live B V Us} (docs : UsDocument B Us)

/-! ## Steps -/

/-- What may happen between two snapshots. -/
inductive Label (B V Us : Type) where
  /-- The storage or the journal; an admission moves no register. -/
  | storage (l : JournalLabel B V)
  /-- The `us` document becomes `us`, its registers are mirrored, and then its tree follows. -/
  | control (us : Us) (ls : List (JournalLabel B V))
  /-- A document is opened or changes. -/
  | document (partition : String) (doc : Bytes)
  /-- `adopt_us` drops a document. -/
  | removeDocument (partition : String)
  /-- The vault opens or moves on. -/
  | vault (vault : V)
  | nameKey (key : Bytes32)

/-- The registers as the `us` document has them. -/
def withRegisters (registers : ExtTreeMap SlotHash RegisterValue) (e : JournalledEngine B V) :
    JournalledEngine B V :=
  { e with persistence :=
    { e.persistence with storage :=
      { e.persistence.storage with lifecycle :=
        { e.persistence.storage.lifecycle with registers } } } }

/-- A step of the storage or the journal, which leaves the registers alone. -/
def journalStep (codec : Codec B) (registers : ExtTreeMap SlotHash RegisterValue)
    (e : JournalledEngine B V) (l : JournalLabel B V) : JournalledEngine B V :=
  withRegisters registers (e.step codec l)

variable (codec) in
def step (s : Live B V Us) : Label B V Us → Live B V Us
  | .storage l => { s with journalled := journalStep codec s.registers s.journalled l }
  | .control us ls =>
    let registers := docs.opaqueRegisters us
    { s with
      us := some us
      journalled := run (journalStep codec registers) (withRegisters registers s.journalled) ls }
  | .document p doc => { s with documents := s.documents.insert p doc }
  | .removeDocument p => { s with documents := s.documents.erase p }
  | .vault vault => { s with vault := some vault }
  | .nameKey key => { s with nameKey := some key }

/-- The tree that a label reads or writes. -/
def target : JournalLabel B V → Option TreeId
  | .persistItems t _ _ | .restore t _ _ | .prune t | .forgetTree t | .deleteTree t => some t
  | _ => none

variable (sha) in
/-- What a label stores is in an opaque tree or in one that something is bound to. -/
def StoresBound (s : Live B V Us) : JournalLabel B V → Prop
  | .persistItems t _ _ | .restore t _ _ => Opaque.isOpaqueTree t ∨ s.Bound sha t
  | _ => True

variable (sha codec) in
/-- The steps that keep the snapshot complete: items are stored in bound trees only, the `us`
document and its tree change together, and a document goes after its items. -/
def Accepted (s : Live B V Us) : Label B V Us → Prop
  | .storage l => s.StoresBound sha l ∧
    (target l = some (usTree sha) → (s.step codec docs (.storage l)).InStep sha codec docs)
  | .control us ls => (∀ l ∈ ls, ({ s with us := some us } : Live B V Us).StoresBound sha l) ∧
    (s.step codec docs (.control us ls)).InStep sha codec docs
  | .removeDocument p => s.storage.tree (documentTree sha p) = {} ∧
    s.storage.tree (sharedAuthorityTree sha p) = {}
  | _ => True

variable (sha codec) in
/-- What the accepted steps keep. -/
structure Sound (s : Live B V Us) : Prop where
  journal : s.journalled.JournalInv
  placed : ∀ t, Opaque.isOpaqueTree t = false → ¬ s.Bound sha t → s.storage.tree t = {}
  inStep : s.InStep sha codec docs

variable {docs}

/-! ## What one step does -/

theorem journalInv_journalStep (registers : ExtTreeMap SlotHash RegisterValue)
    (e : JournalledEngine B V) (l : JournalLabel B V) (h : e.JournalInv) :
    (journalStep codec registers e l).JournalInv :=
  -- the registers are no part of what the journal carries
  have hstep := JournalledEngine.journalInv_step codec e l h
  ⟨hstep.contents, hstep.settled, hstep.recorded, hstep.outstanding⟩

theorem tree_persistItems_of_ne {s : SnapshotStorage B} {t t' : TreeId} (hne : t' ≠ t)
    (commits : List (Signed LooseCommit × B)) (fragments : List (Signed Fragment × B)) :
    (s.persistItems codec t commits fragments).1.tree t' = s.tree t' :=
  SnapshotStorage.persistItems_induction (motive := fun s' => s'.tree t' = s.tree t') rfl
    (SnapshotStorage.tree_ensureTree _ _ _)
    (fun s' _ _ h _ _ _ => (SnapshotStorage.tree_write_of_ne s' _ _ hne).trans h)
    fun s' _ _ h _ _ _ => (SnapshotStorage.tree_write_of_ne s' _ _ hne).trans h

/-- A label leaves the other trees alone. -/
theorem tree_journalStep_of_ne (registers : ExtTreeMap SlotHash RegisterValue)
    (e : JournalledEngine B V) (l : JournalLabel B V) {t : TreeId} (h : target l ≠ some t) :
    (journalStep codec registers e l).persistence.storage.tree t =
      e.persistence.storage.tree t := by
  show (e.step codec l).persistence.storage.tree t = _
  cases l with
  | persistItems t' commits fragments =>
    exact tree_persistItems_of_ne (fun heq => h (congrArg some heq.symm)) commits fragments
  | restore t' commits fragments =>
    exact Replay.tree_restore_of_ne (fun heq => h (congrArg some heq.symm)) commits fragments
  | prune t' =>
    exact SnapshotStorage.tree_prune_of_ne codec _ fun heq => h (congrArg some heq.symm)
  | forgetTree t' =>
    exact SnapshotStorage.tree_forgetTree_of_ne _ fun heq => h (congrArg some heq.symm)
  | deleteTree t' =>
    exact SnapshotStorage.tree_forgetTree_of_ne _ fun heq => h (congrArg some heq.symm)
  | admission lifecycle shared => rfl
  | settle => rfl
  | cut =>
    rw [JournalledEngine.step]
    split <;> rfl
  | prepare control =>
    rw [JournalledEngine.step]
    split <;> rfl
  | acknowledge =>
    rw [JournalledEngine.step]
    split <;> rfl
  | abandon => rfl

theorem prune_of_tree_eq_empty {s : SnapshotStorage B} {t : TreeId} (h : (s.tree t).commits = ∅) :
    (s.prune codec t).1 = s := by
  have hdoomed : s.doomed codec t = [] := by
    rw [SnapshotStorage.doomed]
    simp only [h]
    split
    · rfl
    · simp
  rw [SnapshotStorage.prune, hdoomed]
  rfl

/-- Nothing appears in an empty tree that nothing is bound to. -/
theorem tree_journalStep_of_not_bound (registers : ExtTreeMap SlotHash RegisterValue)
    {e : JournalledEngine B V} {l : JournalLabel B V} (hstores : s.StoresBound sha l) {t : TreeId}
    (hplain : Opaque.isOpaqueTree t = false) (hbound : ¬ s.Bound sha t)
    (h : e.persistence.storage.tree t = {}) :
    (journalStep codec registers e l).persistence.storage.tree t = {} := by
  by_cases htarget : target l = some t
  · have hclosed : ¬ (Opaque.isOpaqueTree t ∨ s.Bound sha t) := by
      rw [hplain]
      exact fun h => h.elim Bool.noConfusion hbound
    cases l with
    | persistItems t' commits fragments =>
      obtain rfl := Option.some.inj htarget
      exact absurd hstores hclosed
    | restore t' commits fragments =>
      obtain rfl := Option.some.inj htarget
      exact absurd hstores hclosed
    | prune t' =>
      obtain rfl := Option.some.inj htarget
      have hsame : (e.persistence.storage.prune codec t').1 = e.persistence.storage :=
        prune_of_tree_eq_empty (congrArg Tree.commits h)
      exact (congrArg (fun s => SnapshotStorage.tree s t') hsame).trans h
    | forgetTree t' =>
      obtain rfl := Option.some.inj htarget
      exact SnapshotStorage.tree_forgetTree_self _ t'
    | deleteTree t' =>
      obtain rfl := Option.some.inj htarget
      exact SnapshotStorage.tree_forgetTree_self _ t'
    | _ => exact nomatch htarget
  · rw [tree_journalStep_of_ne registers e l htarget, h]

/-- An opaque tree gets its first item while its register names it. -/
theorem status_of_stored {registers : ExtTreeMap SlotHash RegisterValue}
    {e : JournalledEngine B V} {l : JournalLabel B V} {t : TreeId}
    (hopq : Opaque.isOpaqueTree t)
    (hempty : (e.persistence.storage.tree t).commits = ∅)
    (h : ((journalStep codec registers e l).persistence.storage.tree t).commits ≠ ∅) :
    Opaque.status e.persistence.storage.lifecycle t = some true := by
  by_cases htarget : target l = some t
  · by_contra hstatus
    refine h ?_
    show ((e.step codec l).persistence.storage.tree t).commits = ∅
    cases l with
    | persistItems t' commits fragments =>
      obtain rfl := Option.some.inj htarget
      have hsame : (e.persistence.storage.persistItems codec t' commits fragments).1 =
          e.persistence.storage := by
        rw [SnapshotStorage.persistItems, if_pos ⟨hopq, hstatus⟩]
      exact (congrArg (fun s => (SnapshotStorage.tree s t').commits) hsame).trans hempty
    | restore t' commits fragments =>
      obtain rfl := Option.some.inj htarget
      have hsame : e.persistence.storage.restore codec t' commits fragments =
          e.persistence.storage := by
        rw [SnapshotStorage.restore, if_pos ⟨hopq, .inl hstatus⟩]
      exact (congrArg (fun s => (SnapshotStorage.tree s t').commits) hsame).trans hempty
    | prune t' =>
      obtain rfl := Option.some.inj htarget
      have hsame : (e.persistence.storage.prune codec t').1 = e.persistence.storage :=
        prune_of_tree_eq_empty hempty
      exact (congrArg (fun s => (SnapshotStorage.tree s t').commits) hsame).trans hempty
    | forgetTree t' =>
      obtain rfl := Option.some.inj htarget
      exact congrArg Tree.commits (SnapshotStorage.tree_forgetTree_self _ t')
    | deleteTree t' =>
      obtain rfl := Option.some.inj htarget
      exact congrArg Tree.commits (SnapshotStorage.tree_forgetTree_self _ t')
    | _ => cases htarget
  · rw [tree_journalStep_of_ne registers e l htarget] at h
    exact absurd hempty h

theorem itemsOf_commit_eq_nil {s : SnapshotStorage B} {t : TreeId} :
    s.itemsOf t .commit = [] ↔ (s.tree t).commits = ∅ := by
  rw [SnapshotStorage.itemsOf, List.map_eq_nil_iff, SnapshotStorage.values_eq_map_snd,
    List.map_eq_nil_iff, ExtTreeMap.toList_eq_nil_iff]

/-- The `us` document stays in step while something else moves. -/
theorem InStep.of_same {s' : Live B V Us} (h : s.InStep sha codec docs) (hus : s'.us = s.us)
    (htree : s'.storage.tree (usTree sha) = s.storage.tree (usTree sha))
    (hcurrent : ∀ t, Opaque.isOpaqueTree t → s'.storage.itemsOf t .commit ≠ [] →
      s.storage.itemsOf t .commit ≠ [] ∨ Opaque.status s.storage.lifecycle t = some true)
    (hregisters : s'.registers = s.registers) : s'.InStep sha codec docs := by
  have hitems : ∀ kind,
      s'.storage.itemsOf (usTree sha) kind = s.storage.itemsOf (usTree sha) kind := by
    intro kind
    rcases kind with _ | _
    · rw [SnapshotStorage.itemsOf, htree]
      rfl
    · rw [SnapshotStorage.itemsOf, htree]
      rfl
  have hread : s'.readRegisters sha codec docs = s.readRegisters sha codec docs := by
    funext us
    rw [readRegisters, readRegisters, hitems, hitems]
  have hsaved : s'.savedRegisters sha codec docs = s.savedRegisters sha codec docs := by
    rw [savedRegisters, savedRegisters, hus, hread]
  have hstatus : ∀ t,
      Opaque.status s'.storage.lifecycle t = Opaque.status s.storage.lifecycle t := by
    intro t
    simp only [Opaque.status]
    rw [show s'.storage.lifecycle.registers = s.storage.lifecycle.registers from hregisters]
  refine ⟨?_, fun t hitems' hrestored => ?_⟩
  · rw [hsaved, h.same, storedRegisters, storedRegisters, hitems, hitems, hread]
  · rw [hsaved] at hrestored
    rw [hstatus]
    rcases hcurrent t (Opaque.isOpaqueTree_of_status hrestored) hitems' with hbefore | hbefore
    · exact h.current t hbefore hrestored
    · exact hbefore

/-! ## What a run keeps -/

/-- What a state holds in bound trees, one that binds more does. -/
theorem placed_of_bound {s' : Live B V Us}
    (h : ∀ t, Opaque.isOpaqueTree t = false → ¬ s.Bound sha t → s.storage.tree t = {})
    (hbound : ∀ t, s.Bound sha t → s'.Bound sha t) (htree : s'.storage = s.storage) :
    ∀ t, Opaque.isOpaqueTree t = false → ¬ s'.Bound sha t → s'.storage.tree t = {} := by
  intro t hplain hnot
  rw [htree]
  exact h t hplain fun hold => hnot (hbound t hold)

theorem bound_of_us {us : Us} {t : TreeId} (h : s.Bound sha t) :
    ({ s with us := some us } : Live B V Us).Bound sha t := by
  rcases h with hdocument | ⟨htree, -⟩ | hkeyhive
  · exact .inl hdocument
  · exact .inr (.inl ⟨htree, rfl⟩)
  · exact .inr (.inr hkeyhive)

theorem tree_run_of_not_bound (registers : ExtTreeMap SlotHash RegisterValue) {t : TreeId}
    (hplain : Opaque.isOpaqueTree t = false) (hbound : ¬ s.Bound sha t)
    {ls : List (JournalLabel B V)} (hstores : ∀ l ∈ ls, s.StoresBound sha l)
    {e : JournalledEngine B V} (h : e.persistence.storage.tree t = {}) :
    (run (journalStep codec registers) e ls).persistence.storage.tree t = {} := by
  induction ls generalizing e with
  | nil => exact h
  | cons l ls ih =>
    refine ih (fun l hl => hstores l (List.mem_cons_of_mem _ hl)) ?_
    exact tree_journalStep_of_not_bound registers (hstores l List.mem_cons_self) hplain hbound h

theorem inStep_storage (h : s.InStep sha codec docs) {l : JournalLabel B V}
    (htarget : target l ≠ some (usTree sha)) :
    (s.step codec docs (.storage l)).InStep sha codec docs := by
  refine h.of_same rfl (tree_journalStep_of_ne s.registers s.journalled l htarget) ?_ rfl
  intro t hopq hstored
  by_cases hempty : s.storage.itemsOf t .commit = []
  · rw [Ne, itemsOf_commit_eq_nil] at hstored
    exact .inr (status_of_stored hopq (itemsOf_commit_eq_nil.1 hempty) hstored)
  · exact .inl hempty

theorem sound_storage (h : s.Sound sha codec docs) {l : JournalLabel B V}
    (haccepted : s.Accepted sha codec docs (.storage l)) :
    (s.step codec docs (.storage l)).Sound sha codec docs where
  journal := journalInv_journalStep s.registers s.journalled l h.journal
  placed := fun t hplain hbound =>
    tree_journalStep_of_not_bound s.registers haccepted.1 hplain hbound (h.placed t hplain hbound)
  inStep := by
    by_cases htarget : target l = some (usTree sha)
    · exact haccepted.2 htarget
    · exact inStep_storage h.inStep htarget

theorem sound_control (h : s.Sound sha codec docs) {us : Us} {ls : List (JournalLabel B V)}
    (haccepted : s.Accepted sha codec docs (.control us ls)) :
    (s.step codec docs (.control us ls)).Sound sha codec docs where
  journal := by
    refine run_preserves (journalInv_journalStep (docs.opaqueRegisters us)) ?_ ls
    exact ⟨h.journal.contents, h.journal.settled, h.journal.recorded, h.journal.outstanding⟩
  placed := fun t hplain hbound => by
    refine tree_run_of_not_bound (docs.opaqueRegisters us) hplain hbound haccepted.1 ?_
    exact h.placed t hplain fun hold => hbound (bound_of_us hold)
  inStep := haccepted.2

theorem sound_document (h : s.Sound sha codec docs) (p : String) (doc : Bytes) :
    (s.step codec docs (.document p doc)).Sound sha codec docs where
  journal := h.journal
  placed := by
    refine placed_of_bound h.placed (fun t hbound => ?_) rfl
    rcases hbound with ⟨q, hq, htree⟩ | hgroup
    · exact .inl ⟨q, ExtTreeMap.mem_insert.2 (.inr hq), htree⟩
    · exact .inr hgroup
  inStep := h.inStep.of_same rfl rfl (fun _ _ => .inl) rfl

theorem sound_removeDocument (h : s.Sound sha codec docs) {p : String}
    (haccepted : s.Accepted sha codec docs (.removeDocument p)) :
    (s.step codec docs (.removeDocument p)).Sound sha codec docs where
  journal := h.journal
  placed := by
    intro t hplain hnot
    show s.storage.tree t = {}
    by_cases hbound : s.Bound sha t
    · rcases hbound with ⟨q, hq, htree⟩ | hgroup
      · by_cases hqp : q = p
        · subst hqp
          rcases htree with rfl | ⟨-, rfl⟩
          · exact haccepted.1
          · exact haccepted.2
        · refine absurd (.inl ⟨q, ExtTreeMap.mem_erase.2 ⟨?_, hq⟩, htree⟩) hnot
          exact fun heq => hqp (LawfulEqOrd.compare_eq_iff_eq.1 heq).symm
      · exact absurd (.inr hgroup) hnot
    · exact h.placed t hplain hbound
  inStep := h.inStep.of_same rfl rfl (fun _ _ => .inl) rfl

theorem sound_vault (h : s.Sound sha codec docs) (vault : V) :
    (s.step codec docs (.vault vault)).Sound sha codec docs where
  journal := h.journal
  placed := by
    refine placed_of_bound h.placed (fun t hbound => ?_) rfl
    rcases hbound with hdocument | hus | ⟨htree, -⟩
    · exact .inl hdocument
    · exact .inr (.inl hus)
    · exact .inr (.inr ⟨htree, rfl⟩)
  inStep := h.inStep.of_same rfl rfl (fun _ _ => .inl) rfl

theorem sound_nameKey (h : s.Sound sha codec docs) (key : Bytes32) :
    (s.step codec docs (.nameKey key)).Sound sha codec docs where
  journal := h.journal
  placed := h.placed
  inStep := h.inStep.of_same rfl rfl (fun _ _ => .inl) rfl

/-- Every accepted step keeps what the engine holds in trees that something is bound to. -/
theorem sound_step (s : Live B V Us) (l : Label B V Us) (haccepted : s.Accepted sha codec docs l)
    (h : s.Sound sha codec docs) : (s.step codec docs l).Sound sha codec docs := by
  cases l with
  | storage l => exact sound_storage h haccepted
  | control us ls => exact sound_control h haccepted
  | document p doc => exact sound_document h p doc
  | removeDocument p => exact sound_removeDocument h haccepted
  | vault vault => exact sound_vault h vault
  | nameKey key => exact sound_nameKey h key

/-- The journal once all is written holds what the storage holds. -/
theorem contents_journal (h : s.journalled.JournalInv) :
    s.journal.contents = s.storage.contents :=
  (JournalState.contents_apply _ _).trans h.contents

/-- In a sound state the two snapshots agree. -/
theorem complete_of_sound (hroots : RootsPlain sha) (h : s.Sound sha codec docs) :
    s.Complete sha codec docs := by
  refine (complete_iff_bound hroots (contents_journal h.journal) h.inStep).2 ?_
  intro t hplain hdecodes
  by_contra hbound
  have htree := h.placed t hplain hbound
  rw [Decodes, itemsOf_of_tree_eq_empty htree, itemsOf_of_tree_eq_empty htree] at hdecodes
  exact hdecodes.elim (fun hne => hne rfl) fun hne => hne rfl

/-- An engine that was never persisted. -/
def fresh : Live B V Us where
  journalled := ⟨{}, {}, .idle, [], [], []⟩

theorem sound_fresh : (fresh : Live B V Us).Sound sha codec docs := by
  have hempty : ∀ t, (fresh : Live B V Us).storage.tree t = {} := by
    intro t
    simp [storage, fresh, SnapshotStorage.tree]
  have hitems : ∀ t kind, (fresh : Live B V Us).storage.itemsOf t kind = [] := fun t kind =>
    itemsOf_of_tree_eq_empty (hempty t) kind
  refine ⟨?_, fun t _ _ => hempty t, ?_, fun t hstored => absurd (hitems t _) hstored⟩
  · refine JournalledEngine.journalInv_initial ⟨rfl, rfl, ?_, rfl, rfl, rfl, rfl⟩
    ext1 ⟨t, id, kind⟩
    cases kind <;> simp [fresh, JournalState.contents, SnapshotStorage.contents,
      SnapshotStorage.treeItem, SnapshotStorage.tree]
  · rw [storedRegisters, if_pos ⟨hitems _ _, hitems _ _⟩]
    rfl

/-- In a run from a sound state whose steps are all accepted, the engine's own snapshot is complete
in every state reached. -/
theorem complete_of_accepted (hroots : RootsPlain sha) {s₀ : Live B V Us}
    (h₀ : s₀.Sound sha codec docs) {ls : List (Label B V Us)}
    (h : Meets (step codec docs) (Accepted sha codec docs) s₀ ls) :
    Throughout (step codec docs) (Complete sha codec docs) s₀ ls := by
  refine throughout_iff.2 fun ms hms => ?_
  obtain ⟨rest, rfl⟩ := hms
  exact complete_of_sound hroots (run_preserves_of_meets sound_step (meets_append.1 h).1 h₀)

/-! ## An item ahead of its document -/

/-- A digest that counts bytes, out of the reserved namespaces. -/
def rootedSha : Sha256 := fun bytes => BitVec.ofNat 256 (2 ^ 252 + bytes.length)

/-- A `us` document that names no slot. -/
def sampleDocs : UsDocument Bytes Unit where
  load _ := ()
  absorb _ _ _ := ()
  opaqueRegisters _ := ∅
  save _ := []

/-- A change of the partition `p` arrives. -/
def sampleArrival : JournalLabel Bytes Unit :=
  .persistItems 20 [(⟨7, [1], some ⟨20, 1, [], ⟨0, 0⟩⟩⟩, [])] []

theorem rootsPlain_rootedSha : RootsPlain rootedSha := by
  constructor <;> decide +kernel

theorem documentTree_rootedSha : documentTree rootedSha "p" = 20 := by
  decide +kernel

theorem target_sampleArrival : target sampleArrival ≠ some (usTree rootedSha) := by
  decide +kernel

theorem complete_of_accepted_opened :
    Throughout (step Replay.sampleCodec sampleDocs)
      (Complete rootedSha Replay.sampleCodec sampleDocs) fresh
      [.document "p" [], .storage sampleArrival] := by
  refine complete_of_accepted rootsPlain_rootedSha sound_fresh
    ⟨trivial, ⟨.inr (.inl ⟨"p", ?_, ?_⟩), fun htarget => ?_⟩, trivial⟩
  · exact ExtTreeMap.mem_insert_self
  · exact .inl documentTree_rootedSha.symm
  · exact absurd htarget target_sampleArrival

/-- It is lost where nobody has opened the partition: the journal brings it back, the engine's own
snapshot does not. -/
theorem unopened_tree_is_lost :
    ¬ (run (step Replay.sampleCodec sampleDocs) fresh [.storage sampleArrival]).Complete rootedSha
      Replay.sampleCodec sampleDocs := by
  have hsound : (fresh : Live Bytes Unit Unit).Sound rootedSha Replay.sampleCodec sampleDocs :=
    sound_fresh
  have hjournal : (run (step Replay.sampleCodec sampleDocs) fresh
      [.storage sampleArrival]).journalled.JournalInv :=
    journalInv_journalStep ∅ _ sampleArrival hsound.journal
  have hinStep := inStep_storage hsound.inStep target_sampleArrival
  intro hcomplete
  have hdecodes : (({} : SnapshotStorage Bytes).acceptedCommits Replay.sampleCodec 20
      ((run (step Replay.sampleCodec sampleDocs) fresh
        [.storage sampleArrival]).storage.itemsOf 20 .commit)).isEmpty = false := by
    decide +kernel
  have hbound := (complete_iff_bound rootsPlain_rootedSha (contents_journal hjournal) hinStep).1
    hcomplete 20 (by decide +kernel) (.inl fun hnil => by
      rw [hnil] at hdecodes
      exact Bool.noConfusion hdecodes)
  rcases hbound with ⟨p, hp, -⟩ | ⟨-, hus⟩ | ⟨-, hvault⟩
  · exact absurd hp ExtTreeMap.not_mem_empty
  · exact Bool.noConfusion hus
  · exact Bool.noConfusion hvault

end Polyvisor.Live
