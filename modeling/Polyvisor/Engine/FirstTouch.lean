import Polyvisor.Engine.Item
import Polyvisor.Lib.Transition
import Mathlib.Logic.Function.Basic

/-!
# First-touch initialisation

`hydrate`, `open_vault` and the start of `open_us` of `engine/src/lib.rs`, and the part of
`prepare_persistence` that reads the vault. Any number of calls run at once; a step of the
machine is what one of them does between two awaits. A restored vault's state has type `S`.

`hydrate` takes the list of restored trees out of its cell before it hands the first one over,
and `open_vault` takes the restored state before it rebuilds the vault. In between, another call
finds the cells empty, and after a failure every later call does.

## Main results

* `Inv` and `inv_step`: what every step keeps that does not meet another call in its window and
  in which neither the restore nor the hand-over of a tree fails.
* `vault_kept`: in a run of such steps the device's vault is never lost or replaced and an `Ok`
  means that every restored tree was handed over.
* `vault_replaced`: the other runs.
-/

namespace Polyvisor

variable {S : Type}

/-- Which keyhive a vault holds. -/
inductive VaultOrigin (S : Type) where
  /-- `Vault::restore` of a stored state. -/
  | restored (state : S)
  /-- `Vault::create`. -/
  | created
  deriving DecidableEq

/-- Who called `open_vault`. -/
inductive OpenVaultCaller where
  /-- `hydrate`, on behalf of an `open_us` or of a call that hydrates only. -/
  | hydrate (us : Bool)
  /-- `open_us` itself. -/
  | openUs
  deriving DecidableEq

/-- Where a call stands, by the await it is in. -/
inductive TouchPc (S : Type) where
  /-- Not running. -/
  | idle
  /-- In `hydrate`, awaiting the hand-over of the first of these trees. -/
  | handing (us : Bool) (trees : List TreeId)
  /-- In `open_vault`, awaiting `Vault::restore` of the state it took. -/
  | restoring (state : S) (caller : OpenVaultCaller)
  /-- In `open_vault`, awaiting `Vault::create`. -/
  | creating (caller : OpenVaultCaller)
  /-- In `hydrate`, absorbing the restored trees. -/
  | absorbing (us : Bool)
  /-- In `open_us`, past the vault. -/
  | rest
  deriving DecidableEq

/-- Between the take of the restored trees and the last hand-over. -/
def TouchPc.isHanding : TouchPc S → Bool
  | .handing _ _ => true
  | _ => false

/-- Between the look into `vault` and its installation. -/
def TouchPc.isOpening : TouchPc S → Bool
  | .restoring _ _ => true
  | .creating _ => true
  | _ => false

/-- The cells of first touch, the calls in flight, and what has happened to them. -/
structure Touch (S : Type) where
  vault : Option (VaultOrigin S) := none
  pendingVault : Option S
  pendingHydration : Option (List TreeId)
  calls : ℕ → TouchPc S := fun _ => .idle
  /-- The vault and the trees of the snapshot the engine was built from. -/
  snapshotVault : Option S
  snapshotTrees : List TreeId
  /-- The vaults installed so far. -/
  installed : List (VaultOrigin S) := []
  /-- The trees handed to the driver so far. -/
  handed : List TreeId := []
  /-- The vault each prepared delta recorded, and whether the device had one by then. -/
  recorded : List (Option (VaultOrigin S) × Bool) := []
  /-- Whether a call has answered `Ok`. -/
  answered : Bool := false

/-- What can happen next. -/
inductive TouchLabel where
  /-- A call starts: one that opens the group document, or one that hydrates only. -/
  | call (id : ℕ) (us : Bool)
  /-- What a call awaits succeeds, or fails. -/
  | resume (id : ℕ) (ok : Bool)
  /-- `prepare_persistence` records the vault. -/
  | prepare
  deriving DecidableEq

namespace Touch

/-- `Engine::new`: a snapshot's vault and trees wait for the first touch. -/
def new (snapshotVault : Option S) (snapshotTrees : List TreeId) : Touch S where
  pendingVault := snapshotVault
  pendingHydration := if snapshotTrees.isEmpty then none else some snapshotTrees
  snapshotVault := snapshotVault
  snapshotTrees := snapshotTrees

/-- A call goes on to its next await. -/
def goto (e : Touch S) (id : ℕ) (pc : TouchPc S) : Touch S :=
  { e with calls := Function.update e.calls id pc }

/-- A call answers. -/
def answer (e : Touch S) (id : ℕ) (ok : Bool) : Touch S :=
  { e.goto id .idle with answered := e.answered || ok }

/-- What follows `open_vault` in its caller. -/
def afterVault (e : Touch S) (id : ℕ) : OpenVaultCaller → Touch S
  | .hydrate us => e.goto id (.absorbing us)
  | .openUs => e.goto id .rest

/-- `open_vault`, up to its await. -/
def openVault (e : Touch S) (id : ℕ) (caller : OpenVaultCaller) : Touch S :=
  match e.vault with
  | some _ => e.afterVault id caller
  | none =>
    match e.pendingVault with
    | some state => { e.goto id (.restoring state caller) with pendingVault := none }
    | none => e.goto id (.creating caller)

/-- What follows `hydrate` in its caller. -/
def afterHydrate (e : Touch S) (id : ℕ) (us : Bool) : Touch S :=
  if us then e.openVault id .openUs else e.answer id true

/-- What follows the hand-over of the last tree in `hydrate`. -/
def afterTrees (e : Touch S) (id : ℕ) (us : Bool) : Touch S :=
  if e.pendingVault.isSome || e.vault.isSome then e.openVault id (.hydrate us)
  else e.goto id (.absorbing us)

/-- `hydrate`, up to its first await. -/
def hydrate (e : Touch S) (id : ℕ) (us : Bool) : Touch S :=
  match e.pendingHydration with
  | none => e.afterHydrate id us
  | some trees => { e.goto id (.handing us trees) with pendingHydration := none }

/-- `*self.vault.borrow_mut() = Some(..)`. -/
def install (e : Touch S) (vault : VaultOrigin S) : Touch S :=
  { e with vault := some vault, installed := e.installed ++ [vault] }

/-- The await of a call succeeded. -/
def proceed (e : Touch S) (id : ℕ) : Touch S :=
  match e.calls id with
  | .idle => e
  | .handing us [] => e.afterTrees id us
  | .handing us [tree] => { e with handed := e.handed ++ [tree] }.afterTrees id us
  | .handing us (tree :: trees) =>
    { e with handed := e.handed ++ [tree] }.goto id (.handing us trees)
  | .restoring state caller => (e.install (.restored state)).afterVault id caller
  | .creating caller => (e.install .created).afterVault id caller
  | .absorbing us => e.afterHydrate id us
  | .rest => e.answer id true

/-- The vault `prepare_persistence` writes into the control record. -/
def recordedVault (e : Touch S) : Option (VaultOrigin S) :=
  match e.vault with
  | some vault => some vault
  | none => e.pendingVault.map .restored

/-- One step. A label that does not apply changes nothing. -/
def step (e : Touch S) : TouchLabel → Touch S
  | .call id us =>
    match e.calls id with
    | .idle => e.hydrate id us
    | _ => e
  | .resume id ok =>
    if ok then e.proceed id
    else
      match e.calls id with
      | .idle => e
      -- absorbing answers with what landed, never with an error
      | .absorbing us => e.afterHydrate id us
      | _ => e.answer id false
  | .prepare =>
    { e with recorded :=
        e.recorded ++ [(e.recordedVault, e.snapshotVault.isSome || !e.installed.isEmpty)] }

/-- The device's vault is neither lost nor replaced, and an `Ok` was earned. -/
structure Kept (e : Touch S) : Prop where
  /-- A device with a stored vault never gets a new one. -/
  noFresh : e.snapshotVault.isSome → VaultOrigin.created ∉ e.installed
  /-- One vault is installed at most. -/
  once : e.installed.length ≤ 1
  /-- No prepared delta records an absent vault once the device had one. -/
  recorded : ∀ had, (none, had) ∈ e.recorded → had = false
  /-- An `Ok` means that every restored tree was handed to the driver. -/
  handed : e.answered = true → ∀ t ∈ e.snapshotTrees, t ∈ e.handed

/-- `open_us` goes into `open_vault`. From `hydrate` it is entered only when the vault or its
stored state is there. -/
def EntersVault (e : Touch S) : TouchLabel → Prop
  | .call id us => e.calls id = .idle ∧ us = true ∧ e.pendingHydration = none
  | .resume id _ => e.calls id = .absorbing true
  | .prepare => False

/-- The step meets no other call in a window it would fall into, and no hand-over and no restore
fails in it. -/
structure Undisturbed (e : Touch S) (l : TouchLabel) : Prop where
  /-- A call starts while no call is handing restored trees over. -/
  hydrate : ∀ id us, l = .call id us → ∀ other, (e.calls other).isHanding = false
  /-- `open_vault` is entered while no call is in it. -/
  openVault : e.EntersVault l → ∀ other, (e.calls other).isOpening = false
  /-- A delta is prepared while no vault is being restored. -/
  prepare : l = .prepare → ∀ id state caller, e.calls id ≠ .restoring state caller
  /-- The hand-over of a tree succeeds. -/
  handOver : ∀ id ok, l = .resume id ok → (e.calls id).isHanding = true → ok = true
  /-- Restoring a vault succeeds. -/
  restore : ∀ id ok, l = .resume id ok → ∀ state caller, e.calls id = .restoring state caller →
    ok = true

/-! ## The restored trees -/

/-- Every restored tree was handed over. -/
def AllHanded (e : Touch S) : Prop :=
  ∀ t ∈ e.snapshotTrees, t ∈ e.handed

/-- A call past its hydration. -/
def IsPast : TouchPc S → Prop
  | .idle | .handing _ _ => False
  | _ => True

/-- What is known of the restored trees. -/
structure HydrationInv (e : Touch S) : Prop where
  pending : ∀ trees, e.pendingHydration = some trees → trees = e.snapshotTrees
  taken : e.pendingHydration = none → (∀ id, (e.calls id).isHanding = false) → e.AllHanded
  handing : ∀ id us trees, e.calls id = .handing us trees →
    e.pendingHydration = none ∧ ∀ t ∈ e.snapshotTrees, t ∈ e.handed ∨ t ∈ trees
  past : ∀ id, IsPast (e.calls id) → e.AllHanded
  answered : e.answered = true → e.AllHanded

theorem hydrationInv_new (snapshotVault : Option S) (snapshotTrees : List TreeId) :
    (new snapshotVault snapshotTrees).HydrationInv := by
  refine ⟨fun trees h => ?_, fun h _ t ht => ?_, fun id us trees h => ?_, fun id h => h.elim,
    fun h => ?_⟩
  · simp only [new] at h
    split at h
    · cases h
    · exact (Option.some.inj h).symm
  · simp only [new] at h ht
    split at h
    next hempty =>
      rw [List.isEmpty_iff] at hempty
      rw [hempty] at ht
      cases ht
    next => cases h
  · cases h
  · cases h

/-- Once every tree was handed over, a call may go anywhere but into another hand-over. -/
theorem HydrationInv.settled {e e' : Touch S} (h : e.HydrationInv) (id : ℕ) {pc : TouchPc S}
    (hcalls : e'.calls = Function.update e.calls id pc) (hpc : pc.isHanding = false)
    (hpending : e'.pendingHydration = e.pendingHydration)
    (htrees : e'.snapshotTrees = e.snapshotTrees) (hall : e'.AllHanded) : e'.HydrationInv := by
  refine ⟨fun trees h' => ?_, fun _ _ => hall, fun other us trees hother => ?_, fun _ _ => hall,
    fun _ => hall⟩
  · rw [htrees]
    exact h.pending trees (hpending ▸ h')
  · rw [hcalls] at hother
    by_cases hid : other = id
    · subst hid
      rw [Function.update_self] at hother
      rw [hother] at hpc
      cases hpc
    · rw [Function.update_of_ne hid] at hother
      exact ⟨hpending ▸ (h.handing other us trees hother).1, fun t ht => .inl (hall t ht)⟩

section Settled

variable {e : Touch S} {id : ℕ}

theorem HydrationInv.afterVault (h : e.HydrationInv) (hall : e.AllHanded)
    (caller : OpenVaultCaller) : (e.afterVault id caller).HydrationInv := by
  cases caller with
  | hydrate us => exact h.settled id rfl rfl rfl rfl hall
  | openUs => exact h.settled id rfl rfl rfl rfl hall

theorem HydrationInv.openVault (h : e.HydrationInv) (hall : e.AllHanded)
    (caller : OpenVaultCaller) : (e.openVault id caller).HydrationInv := by
  rw [Touch.openVault]
  split
  · exact h.afterVault hall caller
  · split
    · exact h.settled id rfl rfl rfl rfl hall
    · exact h.settled id rfl rfl rfl rfl hall

theorem HydrationInv.afterHydrate (h : e.HydrationInv) (hall : e.AllHanded) (us : Bool) :
    (e.afterHydrate id us).HydrationInv := by
  rw [Touch.afterHydrate]
  split
  · exact h.openVault hall .openUs
  · exact h.settled id rfl rfl rfl rfl hall

theorem HydrationInv.afterTrees (h : e.HydrationInv) (hall : e.AllHanded) (us : Bool) :
    (e.afterTrees id us).HydrationInv := by
  rw [Touch.afterTrees]
  split
  · exact h.openVault hall (.hydrate us)
  · exact h.settled id rfl rfl rfl rfl hall

/-- Handing one more tree over. -/
theorem HydrationInv.hand (h : e.HydrationInv) (tree : TreeId) :
    { e with handed := e.handed ++ [tree] }.HydrationInv := by
  have hmono : ∀ t, t ∈ e.handed → t ∈ e.handed ++ [tree] := fun t ht =>
    List.mem_append_left _ ht
  refine ⟨h.pending, fun hp hno t ht => hmono t (h.taken hp hno t ht),
    fun other us trees hother => ?_, fun other hother t ht => hmono t (h.past other hother t ht),
    fun ha t ht => hmono t (h.answered ha t ht)⟩
  obtain ⟨hp, hrest⟩ := h.handing other us trees hother
  exact ⟨hp, fun t ht => (hrest t ht).imp (hmono t) id⟩

theorem HydrationInv.install (h : e.HydrationInv) (vault : VaultOrigin S) :
    (e.install vault).HydrationInv :=
  ⟨h.pending, h.taken, h.handing, h.past, h.answered⟩

/-- A call goes into, or on with, the hand-over of `trees`. -/
theorem HydrationInv.gotoHanding (h : e.HydrationInv) (id : ℕ) (us : Bool) (trees : List TreeId)
    (hidle : ¬ IsPast (e.calls id))
    (htrees : ∀ t ∈ e.snapshotTrees, t ∈ e.handed ∨ t ∈ trees) :
    { e.goto id (.handing us trees) with pendingHydration := none }.HydrationInv := by
  refine ⟨fun _ h' => (by cases h'), fun _ hno => ?_, fun other us' trees' hother => ⟨rfl, ?_⟩,
    fun other hother => ?_, h.answered⟩
  · have hid := hno id
    change (Function.update e.calls id (.handing us trees) id).isHanding = false at hid
    rw [Function.update_self] at hid
    cases hid
  · change Function.update e.calls id (.handing us trees) other = .handing us' trees' at hother
    by_cases hid : other = id
    · subst hid
      rw [Function.update_self] at hother
      cases hother
      exact htrees
    · rw [Function.update_of_ne hid] at hother
      exact (h.handing other us' trees' hother).2
  · change IsPast (Function.update e.calls id (.handing us trees) other) at hother
    by_cases hid : other = id
    · subst hid
      rw [Function.update_self] at hother
      exact hother.elim
    · rw [Function.update_of_ne hid] at hother
      exact h.past other hother

/-- What a call awaits succeeds. -/
theorem HydrationInv.proceed (h : e.HydrationInv) : (e.proceed id).HydrationInv := by
  have hpast : IsPast (e.calls id) → e.AllHanded := h.past id
  rw [Touch.proceed]
  split
  next => exact h
  next us hpc =>
    refine h.afterTrees (fun t ht => ?_) us
    exact ((h.handing id us [] hpc).2 t ht).resolve_right List.not_mem_nil
  next us tree hpc =>
    -- the last tree: now every restored tree was handed over
    refine (h.hand tree).afterTrees (fun t ht => ?_) us
    have hmem := (h.handing id us [tree] hpc).2 t ht
    exact List.mem_append.2 hmem
  next us tree trees hlast hpc =>
    obtain ⟨hp, hrest⟩ := h.handing id us (tree :: trees) hpc
    have hnext := (h.hand tree).gotoHanding id us trees
      (by change ¬ IsPast (e.calls id); rw [hpc]; exact fun h => h) (fun t ht => ?_)
    · rw [← hp] at hnext
      exact hnext
    · change t ∈ e.handed ++ [tree] ∨ t ∈ trees
      have := hrest t ht
      grind
  next state caller hpc =>
    have hall := hpast (by rw [hpc]; trivial)
    exact (h.install (.restored state)).afterVault hall caller
  next caller hpc =>
    have hall := hpast (by rw [hpc]; trivial)
    exact (h.install .created).afterVault hall caller
  next us hpc => exact h.afterHydrate (hpast (by rw [hpc]; trivial)) us
  next hpc => exact h.settled id rfl rfl rfl rfl (hpast (by rw [hpc]; trivial))

end Settled

theorem hydrationInv_step {e : Touch S} {l : TouchLabel} (hl : e.Undisturbed l)
    (h : e.HydrationInv) : (e.step l).HydrationInv := by
  cases l with
  | call id us =>
    rw [step]
    split
    next hidle =>
      rw [hydrate]
      split
      next hnone => exact h.afterHydrate (h.taken hnone (hl.hydrate id us rfl)) us
      next trees hsome =>
        obtain rfl := h.pending trees hsome
        exact h.gotoHanding id us _ (by rw [hidle]; exact fun h => h) (fun t ht => .inr ht)
    next => exact h
  | resume id ok =>
    rw [step]
    split
    · exact h.proceed
    next hok =>
      have hall : IsPast (e.calls id) → e.AllHanded := h.past id
      split
      next => exact h
      next us hpc => exact h.afterHydrate (hall (by rw [hpc]; trivial)) us
      next hidle habsorbing =>
        -- a hand-over does not fail, so the call is past its hydration
        refine h.settled id rfl rfl rfl rfl (hall ?_)
        cases hpc : e.calls id with
        | idle => exact (hidle hpc).elim
        | handing us trees => exact (hok (hl.handOver id ok rfl (by rw [hpc]; rfl))).elim
        | restoring state caller => trivial
        | creating caller => trivial
        | absorbing us => trivial
        | rest => trivial
  | prepare => exact ⟨h.pending, h.taken, h.handing, h.past, h.answered⟩

/-! ## The vault -/

/-- What is known of the vault: nobody has looked for it yet, one call is opening it, or it is
installed. -/
inductive VaultInv (e : Touch S) : Prop
  | waiting (hvault : e.vault = none) (hpending : e.pendingVault = e.snapshotVault)
      (hinstalled : e.installed = []) (hnobody : ∀ id, (e.calls id).isOpening = false)
  | opening (id : ℕ) (hvault : e.vault = none) (hpending : e.pendingVault = none)
      (hinstalled : e.installed = []) (hself : (e.calls id).isOpening = true)
      (hothers : ∀ other, other ≠ id → (e.calls other).isOpening = false)
      (hrestoring : ∀ state caller, e.calls id = .restoring state caller →
        e.snapshotVault = some state)
      (hcreating : ∀ caller, e.calls id = .creating caller → e.snapshotVault = none)
  | opened (vault : VaultOrigin S) (hvault : e.vault = some vault)
      (hpending : e.pendingVault = none) (hinstalled : e.installed = [vault])
      (hnobody : ∀ id, (e.calls id).isOpening = false)
      (horigin : ∀ state, e.snapshotVault = some state → vault = .restored state)

theorem vaultInv_new (snapshotVault : Option S) (snapshotTrees : List TreeId) :
    (new snapshotVault snapshotTrees).VaultInv :=
  .waiting rfl rfl rfl fun _ => rfl

theorem isOpening_update {calls : ℕ → TouchPc S} {id : ℕ} {pc : TouchPc S}
    (hpc : pc.isOpening = false) {other : ℕ} (h : other ≠ id → (calls other).isOpening = false) :
    (Function.update calls id pc other).isOpening = false := by
  by_cases hid : other = id
  · subst hid
    rw [Function.update_self]
    exact hpc
  · rw [Function.update_of_ne hid]
    exact h hid

section Vault

variable {e e' : Touch S} {id : ℕ}

/-- A call that is not in `open_vault` moves on and does not enter it. -/
theorem VaultInv.quiet (h : e.VaultInv) (id : ℕ) {pc : TouchPc S}
    (hcalls : e'.calls = Function.update e.calls id pc) (hpc : pc.isOpening = false)
    (hold : (e.calls id).isOpening = false) (hvault : e'.vault = e.vault)
    (hpending : e'.pendingVault = e.pendingVault)
    (hsnapshot : e'.snapshotVault = e.snapshotVault) (hinstalled : e'.installed = e.installed) :
    e'.VaultInv := by
  rcases h with ⟨hv, hp, hi, hno⟩ | ⟨opener, hv, hp, hi, hself, hothers, hr, hc⟩ |
    ⟨vault, hv, hp, hi, hno, ho⟩
  · refine .waiting (hvault.trans hv) (by rw [hpending, hsnapshot, hp]) (hinstalled.trans hi)
      fun other => ?_
    rw [hcalls]
    exact isOpening_update hpc fun _ => hno other
  · have hid : opener ≠ id := fun heq => by
      rw [heq, hold] at hself
      cases hself
    have hopener : e'.calls opener = e.calls opener := by
      rw [hcalls, Function.update_of_ne hid]
    refine .opening opener (hvault.trans hv) (hpending.trans hp) (hinstalled.trans hi)
      (by rw [hopener]; exact hself) (fun other hother => ?_)
      (fun state caller hcall => ?_) (fun caller hcall => ?_)
    · rw [hcalls]
      exact isOpening_update hpc fun _ => hothers other hother
    · rw [hsnapshot]
      exact hr state caller (hopener ▸ hcall)
    · rw [hsnapshot]
      exact hc caller (hopener ▸ hcall)
  · refine .opened vault (hvault.trans hv) (hpending.trans hp) (hinstalled.trans hi)
      (fun other => ?_) (hsnapshot ▸ ho)
    rw [hcalls]
    exact isOpening_update hpc fun _ => hno other

/-- What `VaultInv` speaks of is as it was. -/
theorem VaultInv.frame (h : e.VaultInv) (hcalls : e'.calls = e.calls)
    (hvault : e'.vault = e.vault) (hpending : e'.pendingVault = e.pendingVault)
    (hsnapshot : e'.snapshotVault = e.snapshotVault) (hinstalled : e'.installed = e.installed) :
    e'.VaultInv := by
  rcases h with ⟨hv, hp, hi, hno⟩ | ⟨opener, hv, hp, hi, hs, ho, hr, hc⟩ |
    ⟨vault, hv, hp, hi, hno, ho⟩
  · exact .waiting (hvault.trans hv) (by rw [hpending, hsnapshot, hp]) (hinstalled.trans hi)
      (by rwa [hcalls])
  · exact .opening opener (hvault.trans hv) (hpending.trans hp) (hinstalled.trans hi)
      (by rwa [hcalls]) (by rwa [hcalls]) (by rwa [hcalls, hsnapshot])
      (by rwa [hcalls, hsnapshot])
  · exact .opened vault (hvault.trans hv) (hpending.trans hp) (hinstalled.trans hi)
      (by rwa [hcalls]) (by rwa [hsnapshot])

theorem VaultInv.afterVault (h : e.VaultInv) (hold : (e.calls id).isOpening = false)
    (caller : OpenVaultCaller) : (e.afterVault id caller).VaultInv := by
  cases caller with
  | hydrate us => exact h.quiet id rfl rfl hold rfl rfl rfl rfl
  | openUs => exact h.quiet id rfl rfl hold rfl rfl rfl rfl

/-- `open_vault` entered while no call is in it. -/
theorem VaultInv.openVault (h : e.VaultInv) (hno : ∀ other, (e.calls other).isOpening = false)
    (caller : OpenVaultCaller) : (e.openVault id caller).VaultInv := by
  have hself : ∀ pc : TouchPc S, Function.update e.calls id pc id = pc := fun pc =>
    Function.update_self ..
  have hothers : ∀ pc : TouchPc S, ∀ other, other ≠ id →
      (Function.update e.calls id pc other).isOpening = false := fun pc other hid => by
    rw [Function.update_of_ne hid]
    exact hno other
  rw [Touch.openVault]
  split
  next => exact h.afterVault (hno id) caller
  next hnone =>
    rcases h with ⟨-, hp, hi, -⟩ | ⟨opener, -, -, -, hopener, -, -, -⟩ | ⟨vault, hv, -, -, -, -⟩
    · split
      next state hstate =>
        -- the restored state is taken here, before the await
        refine .opening id hnone rfl hi (congrArg _ (hself _)) (hothers _)
          (fun state' caller' hcall => ?_) (fun caller' hcall => ?_)
        · cases (hself _).symm.trans hcall
          exact hp.symm.trans hstate
        · cases (hself _).symm.trans hcall
      next hstate =>
        refine .opening id hnone hstate hi (congrArg _ (hself _)) (hothers _)
          (fun state' caller' hcall => ?_) (fun _ _ => hp.symm.trans hstate)
        cases (hself _).symm.trans hcall
    · rw [hno opener] at hopener
      cases hopener
    · rw [hnone] at hv
      cases hv

theorem VaultInv.afterHydrate (h : e.VaultInv) (us : Bool)
    (hold : (e.calls id).isOpening = false)
    (hno : us = true → ∀ other, (e.calls other).isOpening = false) :
    (e.afterHydrate id us).VaultInv := by
  rw [Touch.afterHydrate]
  split
  next hus => exact h.openVault (hno hus) .openUs
  next => exact h.quiet id rfl rfl hold rfl rfl rfl rfl

/-- `hydrate` looks before it goes into `open_vault`: what it finds there says that no call is
in it. -/
theorem VaultInv.afterTrees (h : e.VaultInv) (us : Bool) (hold : (e.calls id).isOpening = false) :
    (e.afterTrees id us).VaultInv := by
  rw [Touch.afterTrees]
  split
  next hsome =>
    refine h.openVault ?_ (.hydrate us)
    rcases h with ⟨-, -, -, hno⟩ | ⟨opener, hv, hp, -, -, -, -, -⟩ | ⟨vault, -, -, -, hno, -⟩
    · exact hno
    · rw [hv, hp] at hsome
      cases hsome
    · exact hno
  next => exact h.quiet id rfl rfl hold rfl rfl rfl rfl

/-- The call in `open_vault` installs what it was opening. -/
theorem VaultInv.install (h : e.VaultInv) (vault : VaultOrigin S) (caller : OpenVaultCaller)
    (hopening : (e.calls id).isOpening = true)
    (horigin : ∀ state, e.snapshotVault = some state → vault = .restored state) :
    ((e.install vault).afterVault id caller).VaultInv := by
  rcases h with ⟨-, -, -, hno⟩ | ⟨opener, -, hp, hi, -, hothers, -, -⟩ | ⟨-, -, -, -, hno, -⟩
  · rw [hno id] at hopening
    cases hopening
  · have hid : id = opener := by
      by_contra hne
      rw [hothers id hne] at hopening
      cases hopening
    have hinstalled : (e.install vault).installed = [vault] := by
      rw [Touch.install, hi, List.nil_append]
    have hnobody : ∀ (pc : TouchPc S), pc.isOpening = false →
        ∀ other, (Function.update e.calls id pc other).isOpening = false := fun pc hpc other =>
      isOpening_update hpc fun hne => hothers other (hid ▸ hne)
    cases caller with
    | hydrate us => exact .opened vault rfl hp hinstalled (hnobody _ rfl) horigin
    | openUs => exact .opened vault rfl hp hinstalled (hnobody _ rfl) horigin
  · rw [hno id] at hopening
    cases hopening

/-- `Vault::create` fails: the next call looks again. -/
theorem VaultInv.createFailed (h : e.VaultInv) {caller : OpenVaultCaller}
    (hpc : e.calls id = .creating caller) : (e.answer id false).VaultInv := by
  have hopening : (e.calls id).isOpening = true := by rw [hpc]; rfl
  rcases h with ⟨-, -, -, hno⟩ | ⟨opener, hv, hp, hi, -, hothers, -, hc⟩ | ⟨-, -, -, -, hno, -⟩
  · rw [hno id] at hopening
    cases hopening
  · have hid : id = opener := by
      by_contra hne
      rw [hothers id hne] at hopening
      cases hopening
    subst hid
    exact .waiting hv (hp.trans (hc caller hpc).symm) hi fun other =>
      isOpening_update rfl fun hne => hothers other hne
  · rw [hno id] at hopening
    cases hopening

/-- A restore puts back the snapshot's vault, and none is created beside it. -/
theorem VaultInv.origin (h : e.VaultInv) :
    (∀ state caller, e.calls id = .restoring state caller → e.snapshotVault = some state) ∧
      ∀ caller, e.calls id = .creating caller → e.snapshotVault = none := by
  have hquiet (hno : (e.calls id).isOpening = false) :
      (∀ state caller, e.calls id = .restoring state caller → e.snapshotVault = some state) ∧
        ∀ caller, e.calls id = .creating caller → e.snapshotVault = none := by
    refine ⟨fun state caller hpc => ?_, fun caller hpc => ?_⟩
    all_goals rw [hpc] at hno; cases hno
  rcases h with ⟨-, -, -, hno⟩ | ⟨opener, -, -, -, -, hothers, hr, hc⟩ | ⟨-, -, -, -, hno, -⟩
  · exact hquiet (hno id)
  · by_cases hid : id = opener
    · subst hid
      exact ⟨hr, hc⟩
    · exact hquiet (hothers id hid)
  · exact hquiet (hno id)

/-- What a call awaits succeeds. -/
theorem VaultInv.proceed (h : e.VaultInv)
    (hno : e.calls id = .absorbing true → ∀ other, (e.calls other).isOpening = false) :
    (e.proceed id).VaultInv := by
  rw [Touch.proceed]
  split
  next => exact h
  next us hpc => exact h.afterTrees us (by rw [hpc]; rfl)
  next us tree hpc =>
    have hhanded : { e with handed := e.handed ++ [tree] }.VaultInv := h.frame rfl rfl rfl rfl rfl
    exact hhanded.afterTrees us (by change (e.calls id).isOpening = false; rw [hpc]; rfl)
  next us tree trees hlast hpc =>
    exact h.quiet id rfl rfl (by rw [hpc]; rfl) rfl rfl rfl rfl
  next state caller hpc =>
    refine h.install _ caller (by rw [hpc]; rfl) fun state' hstate => ?_
    have hrestored := h.origin.1 state caller hpc
    rw [hrestored] at hstate
    cases hstate
    rfl
  next caller hpc =>
    refine h.install _ caller (by rw [hpc]; rfl) fun state' hstate => ?_
    rw [h.origin.2 caller hpc] at hstate
    cases hstate
  next us hpc => exact h.afterHydrate us (by rw [hpc]; rfl) fun hus => hno (hus ▸ hpc)
  next hpc => exact h.quiet id rfl rfl (by rw [hpc]; rfl) rfl rfl rfl rfl

end Vault

theorem vaultInv_step {e : Touch S} {l : TouchLabel} (hl : e.Undisturbed l) (h : e.VaultInv) :
    (e.step l).VaultInv := by
  cases l with
  | call id us =>
    rw [step]
    split
    next hidle =>
      have hold : (e.calls id).isOpening = false := by rw [hidle]; rfl
      rw [hydrate]
      split
      next hnone => exact h.afterHydrate us hold fun hus => hl.openVault ⟨hidle, hus, hnone⟩
      next trees _ => exact h.quiet id rfl rfl hold rfl rfl rfl rfl
    next => exact h
  | resume id ok =>
    rw [step]
    split
    · exact h.proceed fun hpc => hl.openVault hpc
    next hok =>
      split
      next => exact h
      next us hpc =>
        refine h.afterHydrate us (by rw [hpc]; rfl) fun hus => hl.openVault ?_
        show e.calls id = .absorbing true
        rw [hpc, hus]
      next hidle habsorbing =>
        cases hpc : e.calls id with
        | restoring state caller => exact (hok (hl.restore id ok rfl state caller hpc)).elim
        | creating caller => exact h.createFailed hpc
        | idle => exact (hidle hpc).elim
        | absorbing us => exact (habsorbing us hpc).elim
        | handing us trees => exact h.quiet id rfl rfl (by rw [hpc]; rfl) rfl rfl rfl rfl
        | rest => exact h.quiet id rfl rfl (by rw [hpc]; rfl) rfl rfl rfl rfl
  | prepare => exact h.frame rfl rfl rfl rfl rfl

/-! ## The prepared deltas -/

/-- No prepared delta left out a vault the device had. -/
def RecordedInv (e : Touch S) : Prop :=
  ∀ had, (none, had) ∈ e.recorded → had = false

theorem recorded_afterVault (e : Touch S) (id : ℕ) (caller : OpenVaultCaller) :
    (e.afterVault id caller).recorded = e.recorded := by
  cases caller <;> rfl

theorem recorded_openVault (e : Touch S) (id : ℕ) (caller : OpenVaultCaller) :
    (e.openVault id caller).recorded = e.recorded := by
  unfold openVault
  split
  · exact recorded_afterVault e id caller
  · split <;> rfl

theorem recorded_afterHydrate (e : Touch S) (id : ℕ) (us : Bool) :
    (e.afterHydrate id us).recorded = e.recorded := by
  unfold afterHydrate
  split
  · exact recorded_openVault e id .openUs
  · rfl

theorem recorded_afterTrees (e : Touch S) (id : ℕ) (us : Bool) :
    (e.afterTrees id us).recorded = e.recorded := by
  unfold afterTrees
  split
  · exact recorded_openVault e id (.hydrate us)
  · rfl

theorem recorded_proceed (e : Touch S) (id : ℕ) : (e.proceed id).recorded = e.recorded := by
  unfold proceed
  split
  next => rfl
  next => exact recorded_afterTrees ..
  next => exact recorded_afterTrees ..
  next => rfl
  next => exact recorded_afterVault ..
  next => exact recorded_afterVault ..
  next => exact recorded_afterHydrate ..
  next => rfl

/-- Only `prepare_persistence` prepares a delta. -/
theorem recorded_step (e : Touch S) {l : TouchLabel} (hl : l ≠ .prepare) :
    (e.step l).recorded = e.recorded := by
  cases l with
  | call id us =>
    rw [step]
    split
    · rw [hydrate]
      split
      · exact recorded_afterHydrate ..
      · rfl
    · rfl
  | resume id ok =>
    rw [step]
    split
    · exact recorded_proceed ..
    · split
      · rfl
      · exact recorded_afterHydrate ..
      · rfl
  | prepare => exact (hl rfl).elim

/-- Away from a restore, the control record names the device's vault if it has one. -/
theorem VaultInv.recordedVault_eq_none {e : Touch S} (h : e.VaultInv)
    (hrestoring : ∀ id state caller, e.calls id ≠ .restoring state caller)
    (hnone : e.recordedVault = none) :
    (e.snapshotVault.isSome || !e.installed.isEmpty) = false := by
  rcases h with ⟨hv, hp, hi, -⟩ | ⟨opener, -, -, hi, hself, -, -, hcreating⟩ |
    ⟨vault, hv, -, -, -, -⟩
  · rw [recordedVault, hv, hp] at hnone
    rw [hi, Option.map_eq_none_iff.1 hnone]
    rfl
  · -- the call in `open_vault` is creating a vault, so there was none to lose
    have hsnapshot : e.snapshotVault = none := by
      cases hpc : e.calls opener with
      | restoring state caller => exact (hrestoring opener state caller hpc).elim
      | creating caller => exact hcreating caller hpc
      | _ =>
        rw [hpc] at hself
        cases hself
    rw [hi, hsnapshot]
    rfl
  · rw [recordedVault, hv] at hnone
    cases hnone

theorem recordedInv_step {e : Touch S} {l : TouchLabel} (hl : e.Undisturbed l) (hv : e.VaultInv)
    (h : e.RecordedInv) : (e.step l).RecordedInv := by
  by_cases hprepare : l = .prepare
  · subst hprepare
    intro had hmem
    rcases List.mem_append.1 hmem with hmem | hmem
    · exact h had hmem
    · rw [List.mem_singleton, Prod.mk.injEq] at hmem
      rw [hmem.2]
      exact hv.recordedVault_eq_none (hl.prepare rfl) hmem.1.symm
  · rw [RecordedInv, recorded_step e hprepare]
    exact h

/-! ## Runs -/

/-- What every undisturbed step keeps. -/
structure Inv (e : Touch S) : Prop where
  hydration : e.HydrationInv
  vault : e.VaultInv
  recorded : e.RecordedInv

theorem inv_step {e : Touch S} {l : TouchLabel} (hl : e.Undisturbed l) (h : e.Inv) :
    (e.step l).Inv :=
  ⟨hydrationInv_step hl h.hydration, vaultInv_step hl h.vault,
    recordedInv_step hl h.vault h.recorded⟩

theorem Inv.kept {e : Touch S} (h : e.Inv) : e.Kept := by
  refine ⟨fun hsnapshot hcreated => ?_, ?_, h.recorded, h.hydration.answered⟩
  · obtain ⟨state, hstate⟩ := Option.isSome_iff_exists.1 hsnapshot
    rcases h.vault with ⟨-, -, hi, -⟩ | ⟨-, -, -, hi, -, -, -, -⟩ | ⟨vault, -, -, hi, -, horigin⟩
    · rw [hi] at hcreated
      cases hcreated
    · rw [hi] at hcreated
      cases hcreated
    · rw [hi, List.mem_singleton, horigin state hstate] at hcreated
      cases hcreated
  · rcases h.vault with ⟨-, -, hi, -⟩ | ⟨-, -, -, hi, -, -, -, -⟩ | ⟨vault, -, -, hi, -, -⟩
    · rw [hi]
      exact Nat.zero_le 1
    · rw [hi]
      exact Nat.zero_le 1
    · rw [hi]
      exact le_rfl

/-- **First touch.** In every run of calls and prepared deltas whose steps are undisturbed, a
device that has a stored vault gets no other, at most one vault is installed, no prepared delta
leaves out a vault the device had, and an `Ok` means that every restored tree was handed to the
driver. -/
theorem vault_kept (snapshotVault : Option S) (snapshotTrees : List TreeId)
    (labels : List TouchLabel)
    (h : Transition.Meets step Undisturbed (new snapshotVault snapshotTrees) labels) :
    (Transition.run step (new snapshotVault snapshotTrees) labels).Kept := by
  have hnew : (new snapshotVault snapshotTrees).Inv :=
    ⟨hydrationInv_new .., vaultInv_new .., fun _ hmem => by cases hmem⟩
  exact (Transition.run_preserves_of_meets (fun _ _ => inv_step) h hnew).kept

/-- Whether a call in `pc` is out of the way of a step in which nothing fails. -/
def clears (e : Touch S) (pc : TouchPc S) : TouchLabel → Bool
  | .call _ us => !pc.isHanding && (!us || !pc.isOpening)
  | .resume id ok => ok &&
    match e.calls id with
    | .absorbing true => !pc.isOpening
    | _ => true
  | .prepare =>
    match pc with
    | .restoring _ _ => false
    | _ => true

theorem undisturbed_of_clears {e : Touch S} {l : TouchLabel}
    (h : ∀ other, e.clears (e.calls other) l = true) : e.Undisturbed l where
  hydrate id us hl other := by
    subst hl
    simpa using (Bool.and_eq_true_iff.1 (h other)).1
  openVault henters other := by
    cases l with
    | call id us =>
      obtain ⟨-, rfl, -⟩ := henters
      simpa using (Bool.and_eq_true_iff.1 (h other)).2
    | resume id ok =>
      have habsorbing : e.calls id = .absorbing true := henters
      have hother := (Bool.and_eq_true_iff.1 (h other)).2
      rw [habsorbing] at hother
      simpa using hother
    | prepare => exact henters.elim
  prepare hl id state caller hpc := by
    subst hl
    have hid := h id
    rw [hpc] at hid
    cases hid
  handOver id ok hl _ := by
    subst hl
    exact (Bool.and_eq_true_iff.1 (h 0)).1
  restore id ok hl _ _ _ := by
    subst hl
    exact (Bool.and_eq_true_iff.1 (h 0)).1

/-- Where the calls 0 and 1 are the only ones, only they can be in the way. -/
theorem undisturbed_pair {e : Touch S} {l : TouchLabel}
    (hidle : ∀ other, other ≠ 0 → other ≠ 1 → e.calls other = .idle)
    (hnone : e.clears .idle l = true) (h0 : e.clears (e.calls 0) l = true)
    (h1 : e.clears (e.calls 1) l = true) : e.Undisturbed l := by
  refine undisturbed_of_clears fun other => ?_
  by_cases hzero : other = 0
  · rw [hzero]
    exact h0
  by_cases hone : other = 1
  · rw [hone]
    exact h1
  rw [hidle other hzero hone]
  exact hnone

/-- The second call finds every tree handed over, first while the vault is being restored and then
when it is there; a delta is prepared before and after. -/
theorem vault_kept_pair :
    (Transition.run step (new (some ()) [0, 1])
      [.call 0 true, .prepare, .resume 0 true, .resume 0 true, .call 1 false, .resume 0 true,
        .prepare, .call 1 true, .resume 0 true, .resume 1 true, .resume 0 true]).Kept := by
  have hidle {calls : ℕ → TouchPc Unit}
      (h : ∀ other, other ≠ 0 → other ≠ 1 → calls other = .idle) (id : ℕ) (hid : id = 0 ∨ id = 1)
      (pc : TouchPc Unit) (other : ℕ) (hzero : other ≠ 0) (hone : other ≠ 1) :
      Function.update calls id pc other = .idle := by
    rw [Function.update_of_ne (by rintro rfl; exact hid.elim hzero hone), h other hzero hone]
  -- every other call stays idle, step after step
  have s0 : ∀ other, other ≠ 0 → other ≠ 1 → (fun _ => .idle : ℕ → TouchPc Unit) other = .idle :=
    fun _ _ _ => rfl
  have s1 := hidle s0 0 (.inl rfl) (.handing true [0, 1])
  have s2 := hidle s1 0 (.inl rfl) (.handing true [1])
  have s3 := hidle s2 0 (.inl rfl) (.restoring () (.hydrate true))
  have s4 := hidle s3 1 (.inr rfl) .idle
  have s5 := hidle s4 0 (.inl rfl) (.absorbing true)
  have s6 := hidle s5 1 (.inr rfl) .rest
  have s7 := hidle s6 0 (.inl rfl) .rest
  have s8 := hidle s7 1 (.inr rfl) .idle
  exact vault_kept _ _ _ ⟨undisturbed_pair s0 rfl rfl rfl, undisturbed_pair s1 rfl rfl rfl,
    undisturbed_pair s1 rfl rfl rfl, undisturbed_pair s2 rfl rfl rfl,
    undisturbed_pair s3 rfl rfl rfl, undisturbed_pair s4 rfl rfl rfl,
    undisturbed_pair s5 rfl rfl rfl, undisturbed_pair s5 rfl rfl rfl,
    undisturbed_pair s6 rfl rfl rfl, undisturbed_pair s7 rfl rfl rfl,
    undisturbed_pair s8 rfl rfl rfl, trivial⟩

/-- A second call in the window of the first one's hand-over takes the stored vault; the first one
then finds neither vault nor stored state, creates a vault and replaces the restored one with it,
and the delta prepared in between records none. And after a hand-over that failed, the next call
answers `Ok` with no tree handed over. -/
theorem vault_replaced :
    (let e := Transition.run step (new (some ()) [0])
      [.call 0 true, .call 1 true, .resume 0 true, .resume 0 true, .prepare, .resume 1 true,
        .resume 0 true]
    e.installed = [.restored (), .created] ∧ e.vault = some .created ∧ e.recorded = [(none, true)] ∧
      ¬ e.Kept) ∧
    let e := Transition.run step (new (some ()) [0])
      [.call 0 false, .resume 0 false, .call 0 false]
    e.answered = true ∧ e.handed = [] ∧ ¬ e.Kept := by
  refine ⟨⟨rfl, rfl, rfl, fun h => h.noFresh rfl (by decide)⟩, rfl, rfl, fun h => ?_⟩
  have hmem := h.handed rfl 0 (by decide)
  cases hmem

end Touch

end Polyvisor
