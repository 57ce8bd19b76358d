import Polyvisor.Engine.Access
import Polyvisor.Engine.OpaqueRegister

/-!
# Retired opaque trees

`refresh_opaque_admission`, `reconcile_opaque` and `retire_tree` of `engine/src/lib.rs`, beside the
storage functions that admit, fetch and drop items. A register change takes effect in one turn; a
`reconcile_opaque` call gives way to everything else at each await, so the machine keeps the calls
in flight and a step advances one of them by one await, which may fail. `retire_tree` also makes the
vault forget the content keys of the tree; the vault is no part of this state.

`retired` and the field of the same name of a call are history: no function reads them.

## Main results

* `Disposal.tree_step`: a step leaves an opaque tree that is not current as it is, or empties it.
* `Disposal.mem_retired_run`: what the history records.
* `Disposal.retired_hold_nothing`: no retired tree is written or read, and a reconciliation that
  returns leaves none of those it found retired with items, in every run whose steps are orderly.
* `Disposal.failed_retirement_is_forgotten`: a retirement that fails is never made up for.
-/

namespace Polyvisor

open Std

variable {B : Type}

namespace Opaque

/-- A tree is current when some register names it and is not a tombstone. -/
theorem status_eq_true {lifecycle : LifecycleState} {t : TreeId} :
    status lifecycle t = some true ↔
      ∃ slot v, lifecycle.registers[slot]? = some v ∧ v.mode.isSome ∧ treeId slot v.nonce = t := by
  constructor
  · intro h
    simp only [status, Option.bind_eq_bind, Option.bind_eq_some_iff] at h
    obtain ⟨slot, _, v, hv, hcurrent⟩ := h
    simp only [Option.pure_def, Option.some_inj, Bool.and_eq_true, beq_iff_eq] at hcurrent
    exact ⟨slot, v, hv, hcurrent⟩
  · rintro ⟨slot, v, hv, hmode, rfl⟩
    exact status_treeId.2 ⟨v, hv, hmode, rfl⟩

theorem isOpaqueTree_of_status {lifecycle : LifecycleState} {t : TreeId}
    (h : status lifecycle t = some true) : isOpaqueTree t := by
  obtain ⟨slot, v, _, _, rfl⟩ := status_eq_true.1 h
  exact isOpaqueTree_treeId slot v.nonce

end Opaque

namespace SnapshotStorage

/-- `fetch_items`: the stored items of the ids asked for, none of a tree that is not current. -/
def fetchItems (s : SnapshotStorage B) (t : TreeId) (commitIds fragmentHeads : List CommitId) :
    Option (List (Signed LooseCommit × B) × List (Signed Fragment × B)) :=
  if Opaque.isOpaqueTree t ∧ Opaque.status s.lifecycle t ≠ some true then none
  else
    match s.trees[t]? with
    | none => none
    | some tree =>
      some (commitIds.filterMap fun id => tree.commits[id]?,
        fragmentHeads.filterMap fun head => tree.fragments[head]?)

/-- The storage holds no item of the tree. -/
def Bare (s : SnapshotStorage B) (t : TreeId) : Prop :=
  (s.tree t).commits.isEmpty ∧ (s.tree t).fragments.isEmpty

instance (s : SnapshotStorage B) (t : TreeId) : Decidable (s.Bare t) :=
  inferInstanceAs (Decidable (_ ∧ _))

theorem bare_of_tree_eq_empty {s : SnapshotStorage B} {t : TreeId} (h : s.tree t = {}) :
    s.Bare t := by
  simp [Bare, h]

@[simp]
theorem lifecycle_persistItems (codec : Codec B) (s : SnapshotStorage B) (t : TreeId)
    (commits : List (Signed LooseCommit × B)) (fragments : List (Signed Fragment × B)) :
    (s.persistItems codec t commits fragments).1.lifecycle = s.lifecycle :=
  persistItems_induction (motive := fun s' => s'.lifecycle = s.lifecycle) rfl rfl
    (fun _ _ _ h _ _ _ => h) fun _ _ _ h _ _ _ => h

@[simp]
theorem lifecycle_restore (codec : Codec B) (s : SnapshotStorage B) (t : TreeId)
    (commits fragments : List (Item B)) :
    (s.restore codec t commits fragments).lifecycle = s.lifecycle :=
  restore_induction (motive := fun s' => s'.lifecycle = s.lifecycle) rfl rfl
    (fun _ _ h _ _ => h) fun _ _ h _ _ => h

end SnapshotStorage

/-! ## The machine -/

/-- Where a `reconcile_opaque` call is. -/
inductive ReconcileStage where
  /-- Inside `retire_tree` of one tree, with the rest of the set it took still to do. -/
  | retiring (tree : TreeId) (rest : List TreeId)
  /-- Past the retirements: the trees still to ask the ready connections for. -/
  | subscribing (requests : List (TreeId × ℕ))
  deriving DecidableEq

/-- The trees a call has taken and not yet retired. -/
def ReconcileStage.remaining : ReconcileStage → List TreeId
  | .retiring tree rest => tree :: rest
  | .subscribing _ => []

/-- A `reconcile_opaque` call in flight. -/
structure ReconcileCall where
  /-- Where it is. -/
  stage : ReconcileStage
  /-- The trees that were retired when it began. -/
  retired : Finset TreeId
  deriving DecidableEq

/-- The part of the engine that opaque trees live in. -/
structure Disposal (B : Type) where
  /-- The item store, and in it the registers. -/
  storage : SnapshotStorage B := {}
  /-- The connections that have completed control, by number. -/
  ready : List ℕ := []
  /-- `pending_opaque_retire`. -/
  pendingRetire : ExtTreeSet TreeId := ∅
  /-- `pending_opaque_subscribe`. -/
  pendingSubscribe : ExtTreeSet SlotHash := ∅
  /-- The calls in flight. -/
  calls : ExtTreeMap ℕ ReconcileCall := ∅
  /-- The trees a register has named and names no longer. -/
  retired : Finset TreeId := ∅

namespace Disposal

/-- The register of the tree's slot names the tree. -/
def Current (g : Disposal B) (t : TreeId) : Prop :=
  Opaque.status g.storage.lifecycle t = some true

instance (g : Disposal B) (t : TreeId) : Decidable (g.Current t) :=
  inferInstanceAs (Decidable (_ = _))

/-- The trees of `old` that are not current under `lifecycle`. -/
def left (old : ExtTreeMap SlotHash RegisterValue) (lifecycle : LifecycleState) : List TreeId :=
  old.toList.filterMap fun (slot, value) =>
    if value.mode.isSome && Opaque.status lifecycle (Opaque.treeId slot value.nonce) != some true
    then some (Opaque.treeId slot value.nonce) else none

/-- `refresh_opaque_admission`, with the registers the `us` document now shows. -/
def refreshOpaqueAdmission (g : Disposal B) (next : ExtTreeMap SlotHash RegisterValue) :
    Disposal B :=
  let old := g.storage.lifecycle.registers
  let lifecycle := { g.storage.lifecycle with registers := next }
  { g with
    storage := { g.storage with lifecycle }
    pendingRetire := g.pendingRetire.insertMany (left old lifecycle)
    pendingSubscribe := g.pendingSubscribe.insertMany (next.toList.filterMap fun (slot, value) =>
      if old[slot]? ≠ some value then some slot else none)
    retired := (g.retired ∪ (left old lifecycle).toFinset).filter fun t =>
      Opaque.status lifecycle t ≠ some true }

/-- What the second loop of `reconcile_opaque` goes through: every changed slot's tree, once for
each ready connection. -/
def subscriptions (g : Disposal B) : List (TreeId × ℕ) :=
  g.storage.lifecycle.registers.toList.flatMap fun (slot, value) =>
    if value.mode.isSome && g.pendingSubscribe.contains slot then
      g.ready.map fun conn => (Opaque.treeId slot value.nonce, conn)
    else []

/-- A call arrives at its next await: the first of the trees still to retire or, with none left,
the subscriptions, which it takes. -/
def resume (g : Disposal B) (id : ℕ) (retired : Finset TreeId) : List TreeId → Disposal B
  | tree :: rest => { g with calls := g.calls.insert id ⟨.retiring tree rest, retired⟩ }
  | [] =>
    { g with
      calls := g.calls.insert id ⟨.subscribing g.subscriptions, retired⟩
      pendingSubscribe := ∅ }

/-- `reconcile_opaque` is called: the call takes the whole set. -/
def reconcileOpaque (g : Disposal B) (id : ℕ) : Disposal B :=
  match g.calls[id]? with
  | some _ => g
  | none => { g with pendingRetire := ∅ }.resume id g.retired g.pendingRetire.toList

/-- The await of a call is answered. An error ends the call, and what it had left with it. -/
def advance (g : Disposal B) (id : ℕ) (ok : Bool) : Disposal B :=
  match g.calls[id]? with
  | none => g
  | some ⟨.retiring tree rest, retired⟩ =>
    if ok then { g with storage := g.storage.forgetTree tree }.resume id retired rest
    else { g with calls := g.calls.erase id }
  | some ⟨.subscribing ((tree, _) :: rest), retired⟩ =>
    -- a tree that is no longer current is passed over, with nothing to await
    if ok ∨ ¬ g.Current tree then
      { g with calls := g.calls.insert id ⟨.subscribing rest, retired⟩ }
    else { g with calls := g.calls.erase id }
  | some ⟨.subscribing [], _⟩ => { g with calls := g.calls.erase id }

/-- The call has nothing left to do: its next step returns `Ok`. -/
def ReturnsOk (g : Disposal B) (id : ℕ) (call : ReconcileCall) : Prop :=
  g.calls[id]? = some call ∧ call.stage = .subscribing []

/-- What happens next. -/
inductive Label (B : Type) where
  /-- The document moved, by a local write or a merge. -/
  | refresh (next : ExtTreeMap SlotHash RegisterValue)
  /-- The ready connections change. -/
  | connections (ready : List ℕ)
  /-- The driver stores a batch, of `opaque_publish` or of a peer. -/
  | persist (t : TreeId) (commits : List (Signed LooseCommit × B))
      (fragments : List (Signed Fragment × B))
  /-- A snapshot or an ingested store is put back. -/
  | restore (t : TreeId) (commits fragments : List (Item B))
  /-- `forget_tree` or the driver's `delete_tree`. -/
  | forget (t : TreeId)
  /-- `reconcile_opaque` is called. -/
  | reconcile (id : ℕ)
  /-- The await of a call is answered. -/
  | advance (id : ℕ) (ok : Bool)

/-- One step. -/
def step (codec : Codec B) (g : Disposal B) : Label B → Disposal B
  | .refresh next => g.refreshOpaqueAdmission next
  | .connections ready => { g with ready }
  | .persist t commits fragments =>
    { g with storage := (g.storage.persistItems codec t commits fragments).1 }
  | .restore t commits fragments =>
    { g with storage := g.storage.restore codec t commits fragments }
  | .forget t => { g with storage := g.storage.forgetTree t }
  | .reconcile id => g.reconcileOpaque id
  | .advance id ok => g.advance id ok

variable {codec : Codec B} {g : Disposal B} {t : TreeId}

/-! ## What one step does -/

theorem mem_left {old : ExtTreeMap SlotHash RegisterValue} {lifecycle : LifecycleState} :
    t ∈ left old lifecycle ↔
      Opaque.status { lifecycle with registers := old } t = some true ∧
        Opaque.status lifecycle t ≠ some true := by
  rw [left, List.mem_filterMap, Opaque.status_eq_true]
  constructor
  · rintro ⟨⟨slot, v⟩, hmem, hv⟩
    simp only [Option.ite_none_right_eq_some, Bool.and_eq_true, bne_iff_ne, Option.some_inj] at hv
    obtain ⟨⟨hmode, hleft⟩, rfl⟩ := hv
    exact ⟨⟨slot, v, ExtTreeMap.mem_toList_iff_getElem?_eq_some.1 hmem, hmode, rfl⟩, hleft⟩
  · rintro ⟨⟨slot, v, hv, hmode, rfl⟩, hleft⟩
    refine ⟨(slot, v), ExtTreeMap.mem_toList_iff_getElem?_eq_some.2 hv, ?_⟩
    simp [hmode, hleft]

@[simp]
theorem calls_resume (g : Disposal B) (id : ℕ) (retired : Finset TreeId)
    (remaining : List TreeId) : ∃ stage : ReconcileStage, stage.remaining = remaining ∧
      (g.resume id retired remaining).calls = g.calls.insert id ⟨stage, retired⟩ := by
  cases remaining with
  | nil => exact ⟨.subscribing g.subscriptions, rfl, rfl⟩
  | cons tree rest => exact ⟨.retiring tree rest, rfl, rfl⟩

@[simp]
theorem storage_resume (g : Disposal B) (id : ℕ) (retired : Finset TreeId)
    (remaining : List TreeId) : (g.resume id retired remaining).storage = g.storage := by
  cases remaining <;> rfl

@[simp]
theorem retired_resume (g : Disposal B) (id : ℕ) (retired : Finset TreeId)
    (remaining : List TreeId) : (g.resume id retired remaining).retired = g.retired := by
  cases remaining <;> rfl

@[simp]
theorem pendingRetire_resume (g : Disposal B) (id : ℕ) (retired : Finset TreeId)
    (remaining : List TreeId) :
    (g.resume id retired remaining).pendingRetire = g.pendingRetire := by
  cases remaining <;> rfl

@[simp]
theorem storage_reconcileOpaque (g : Disposal B) (id : ℕ) :
    (g.reconcileOpaque id).storage = g.storage := by
  unfold reconcileOpaque
  split
  · rfl
  · rw [storage_resume]

@[simp]
theorem retired_reconcileOpaque (g : Disposal B) (id : ℕ) :
    (g.reconcileOpaque id).retired = g.retired := by
  unfold reconcileOpaque
  split
  · rfl
  · rw [retired_resume]

@[simp]
theorem retired_advance (g : Disposal B) (id : ℕ) (ok : Bool) :
    (g.advance id ok).retired = g.retired := by
  unfold advance
  split
  · rfl
  · split
    · rw [retired_resume]
    · rfl
  · split <;> rfl
  · rfl

/-- The await of a call drops one tree from the storage at most. -/
theorem storage_advance (g : Disposal B) (id : ℕ) (ok : Bool) :
    (g.advance id ok).storage = g.storage ∨
      ∃ tree, (g.advance id ok).storage = g.storage.forgetTree tree := by
  unfold advance
  split
  · exact .inl rfl
  · split
    · exact .inr ⟨_, storage_resume ..⟩
    · exact .inl rfl
  · split <;> exact .inl rfl
  · exact .inl rfl

theorem tree_forgetTree (s : SnapshotStorage B) (t t' : TreeId) :
    (s.forgetTree t').tree t = s.tree t ∨ (s.forgetTree t').tree t = {} := by
  by_cases h : t = t'
  · exact .inr (h ▸ s.tree_forgetTree_self t)
  · exact .inl (s.tree_forgetTree_of_ne h)

/-- A step leaves an opaque tree that is not current as it is, or empties it. -/
theorem tree_step (codec : Codec B) (g : Disposal B) (l : Label B) (hopq : Opaque.isOpaqueTree t)
    (hretired : ¬ g.Current t) :
    (g.step codec l).storage.tree t = g.storage.tree t ∨ (g.step codec l).storage.tree t = {} := by
  -- a batch for the tree itself is refused, a batch for another does not touch it
  have hother {t' : TreeId} {s : SnapshotStorage B} {tree : Tree B} {m : StorageMutation B}
      (hopen : Opaque.isOpaqueTree t' → Opaque.status g.storage.lifecycle t' = some true)
      (hs : s.tree t = g.storage.tree t) : (s.write t' tree m).tree t = g.storage.tree t := by
    have hne : t ≠ t' := by
      rintro rfl
      exact hretired (hopen hopq)
    rw [SnapshotStorage.tree_write_of_ne _ _ _ hne, hs]
  have hclosed {t' : TreeId} {s : SnapshotStorage B} {tree : Tree B} {m : StorageMutation B}
      (hnot : ¬ Opaque.isOpaqueTree t') (hs : s.tree t = g.storage.tree t) :
      (s.write t' tree m).tree t = g.storage.tree t :=
    hother (fun h => absurd h hnot) hs
  cases l with
  | refresh next => exact .inl rfl
  | connections ready => exact .inl rfl
  | persist t' commits fragments =>
    left
    exact SnapshotStorage.persistItems_induction
      (motive := fun s' => s'.tree t = g.storage.tree t) rfl
      (SnapshotStorage.tree_ensureTree _ _ _) (fun s' _ _ h hopen _ _ => hother hopen h)
      fun s' _ _ h hnot _ _ => hclosed hnot h
  | restore t' commits fragments =>
    left
    exact SnapshotStorage.restore_induction
      (motive := fun s' => s'.tree t = g.storage.tree t) rfl
      (SnapshotStorage.tree_ensureTree _ _ _) (fun s' _ h hopen _ => hother hopen h)
      fun s' _ h hnot _ => hclosed hnot h
  | forget t' => exact tree_forgetTree g.storage t t'
  | reconcile id => exact .inl (by rw [step, storage_reconcileOpaque])
  | advance id ok =>
    rw [step]
    rcases storage_advance g id ok with hsame | ⟨tree, hforget⟩
    · exact .inl (by rw [hsame])
    · rw [hforget]
      exact tree_forgetTree g.storage t tree

/-- Nothing is fetched from an opaque tree that is not current. -/
theorem fetchItems_eq_none (hopq : Opaque.isOpaqueTree t) (hretired : ¬ g.Current t)
    (commitIds fragmentHeads : List CommitId) :
    g.storage.fetchItems t commitIds fragmentHeads = none :=
  if_pos ⟨hopq, hretired⟩

/-- Only a register change moves a register. -/
theorem lifecycle_step (codec : Codec B) (g : Disposal B) (l : Label B)
    (hl : ∀ next, l ≠ .refresh next) :
    (g.step codec l).storage.lifecycle = g.storage.lifecycle := by
  cases l with
  | refresh next => exact absurd rfl (hl next)
  | connections ready => rfl
  | persist t' commits fragments => exact SnapshotStorage.lifecycle_persistItems ..
  | restore t' commits fragments => exact SnapshotStorage.lifecycle_restore ..
  | forget t' => rfl
  | reconcile id => rw [step, storage_reconcileOpaque]
  | advance id ok =>
    rw [step]
    rcases storage_advance g id ok with hsame | ⟨tree, hforget⟩
    · rw [hsame]
    · rw [hforget]
      rfl

/-! ## The history -/

theorem current_refreshOpaqueAdmission (g : Disposal B)
    (next : ExtTreeMap SlotHash RegisterValue) : (g.refreshOpaqueAdmission next).Current t ↔
      Opaque.status { g.storage.lifecycle with registers := next } t = some true := Iff.rfl

theorem mem_retired_refreshOpaqueAdmission (g : Disposal B)
    (next : ExtTreeMap SlotHash RegisterValue) :
    t ∈ (g.refreshOpaqueAdmission next).retired ↔
      (t ∈ g.retired ∨ g.Current t) ∧ ¬ (g.refreshOpaqueAdmission next).Current t := by
  rw [current_refreshOpaqueAdmission]
  simp only [refreshOpaqueAdmission, Finset.mem_filter, Finset.mem_union, List.mem_toFinset,
    mem_left, Current]
  tauto

theorem mem_pendingRetire_refreshOpaqueAdmission (g : Disposal B)
    (next : ExtTreeMap SlotHash RegisterValue) :
    t ∈ (g.refreshOpaqueAdmission next).pendingRetire ↔
      t ∈ g.pendingRetire ∨ g.Current t ∧ ¬ (g.refreshOpaqueAdmission next).Current t := by
  rw [current_refreshOpaqueAdmission]
  simp [refreshOpaqueAdmission, ExtTreeSet.mem_insertMany_list, mem_left, Current]

theorem retired_step (codec : Codec B) (g : Disposal B) (l : Label B)
    (hl : ∀ next, l ≠ .refresh next) : (g.step codec l).retired = g.retired := by
  cases l with
  | refresh next => exact absurd rfl (hl next)
  | reconcile id => rw [step, retired_reconcileOpaque]
  | advance id ok => rw [step, retired_advance]
  | _ => rfl

/-- An engine that has read its registers and restored nothing yet. -/
def start (registers : ExtTreeMap SlotHash RegisterValue) : Disposal B :=
  { storage := { lifecycle := { registers } } }

/-- The history: a tree is retired when it was current once and is not now. -/
theorem mem_retired_run (codec : Codec B) (registers : ExtTreeMap SlotHash RegisterValue)
    (ls : List (Label B)) : t ∈ (Transition.run (step codec) (start registers) ls).retired ↔
      (∃ before, before <+: ls ∧ (Transition.run (step codec) (start registers) before).Current t) ∧
        ¬ (Transition.run (step codec) (start registers) ls).Current t := by
  induction ls using List.reverseRecOn with
  | nil => simp [start]
  | append_singleton ls l ih =>
    -- the prefixes of the longer run are those of the shorter one and the run itself
    have hbefore : (∃ before, before <+: ls ++ [l] ∧
        (Transition.run (step codec) (start registers) before).Current t) ↔
          (∃ before, before <+: ls ∧
            (Transition.run (step codec) (start registers) before).Current t) ∨
          (Transition.run (step codec) (start registers) (ls ++ [l])).Current t := by
      simp only [List.prefix_concat_iff, or_and_right, exists_or, exists_eq_left]
      exact or_comm
    have hnow : (Transition.run (step codec) (start registers) ls).Current t →
        ∃ before, before <+: ls ∧
          (Transition.run (step codec) (start registers) before).Current t :=
      fun h => ⟨ls, List.prefix_rfl, h⟩
    rw [hbefore, Transition.run_append, Transition.run_cons, Transition.run_nil]
    by_cases hl : ∃ next, l = .refresh next
    · obtain ⟨next, rfl⟩ := hl
      rw [step, mem_retired_refreshOpaqueAdmission, ih]
      generalize ((Transition.run (step codec) (start registers) ls).refreshOpaqueAdmission
        next).Current t = after
      constructor
      · rintro ⟨⟨hformer, _⟩ | hformer, hafter⟩
        · exact ⟨.inl hformer, hafter⟩
        · exact ⟨.inl (hnow hformer), hafter⟩
      · rintro ⟨hformer | hafter, hnot⟩
        · refine ⟨?_, hnot⟩
          by_cases hlast : (Transition.run (step codec) (start registers) ls).Current t
          · exact .inr hlast
          · exact .inl ⟨hformer, hlast⟩
        · exact absurd hafter hnot
    · have hl : ∀ next, l ≠ .refresh next := fun next h => hl ⟨next, h⟩
      have hsame : ((Transition.run (step codec) (start registers) ls).step codec l).Current t ↔
          (Transition.run (step codec) (start registers) ls).Current t := by
        rw [Current, Current, lifecycle_step _ _ _ hl]
      rw [retired_step _ _ _ hl, ih, hsame]
      constructor
      · exact fun h => ⟨.inl h.1, h.2⟩
      · rintro ⟨hformer | hlast, hnot⟩
        · exact ⟨hformer, hnot⟩
        · exact absurd hlast hnot

/-! ## Orderly runs -/

/-- The steps after which a call can be trusted: no register change brings back a tree that was
retired when a call in flight began, no call begins before those in flight are through with the
items they have taken on, and no call fails before it is. -/
def Orderly (g : Disposal B) : Label B → Prop
  | .refresh next => ∀ entry ∈ g.calls.toList, ∀ t ∈ entry.2.retired,
      ¬ (g.refreshOpaqueAdmission next).Current t
  | .reconcile _ => ∀ entry ∈ g.calls.toList, ∀ t ∈ entry.2.stage.remaining, g.storage.Bare t
  | .advance id false => ∀ call ∈ g.calls[id]?, ∀ t ∈ call.stage.remaining, g.storage.Bare t
  | _ => True

instance decidableOrderly (g : Disposal B) : (l : Label B) → Decidable (Orderly g l)
  | .refresh next => inferInstanceAs (Decidable (∀ entry ∈ g.calls.toList, ∀ t ∈ entry.2.retired,
      ¬ (g.refreshOpaqueAdmission next).Current t))
  | .reconcile _ => inferInstanceAs (Decidable (∀ entry ∈ g.calls.toList,
      ∀ t ∈ entry.2.stage.remaining, g.storage.Bare t))
  | .advance id false => inferInstanceAs (Decidable (∀ call ∈ g.calls[id]?,
      ∀ t ∈ call.stage.remaining, g.storage.Bare t))
  | .connections _ | .persist .. | .restore .. | .forget _ | .advance _ true =>
    inferInstanceAs (Decidable True)

/-- What a call has to show for the trees that were retired when it began: none is current or
waits again, and those with items are still on its list. -/
def Held (g : Disposal B) (retired : Finset TreeId) (remaining : List TreeId) : Prop :=
  ∀ t ∈ retired, Opaque.isOpaqueTree t ∧ ¬ g.Current t ∧ t ∉ g.pendingRetire ∧
    (¬ g.storage.Bare t → t ∈ remaining)

/-- Where the items of opaque trees are accounted for. -/
structure Tracked (g : Disposal B) : Prop where
  /-- A tree with items is current, waits to be retired, or is being retired. -/
  claimed : ∀ t : TreeId, Opaque.isOpaqueTree t → ¬ g.storage.Bare t → g.Current t ∨
    t ∈ g.pendingRetire ∨
      ∃ (id : ℕ) (call : ReconcileCall), g.calls[id]? = some call ∧ t ∈ call.stage.remaining
  /-- Every call in flight holds on to what it took. -/
  held : ∀ (id : ℕ) (call : ReconcileCall), g.calls[id]? = some call →
    g.Held call.retired call.stage.remaining
  /-- What the history holds are opaque trees that are not current. -/
  former : ∀ t : TreeId, t ∈ g.retired → Opaque.isOpaqueTree t ∧ ¬ g.Current t

theorem tracked_start (registers : ExtTreeMap SlotHash RegisterValue) :
    (start registers : Disposal B).Tracked where
  claimed t _ hitems := absurd (SnapshotStorage.bare_of_tree_eq_empty (by
    simp [start, SnapshotStorage.tree])) hitems
  held id call hcall := by simp [start] at hcall
  former t ht := by simp [start] at ht

theorem not_bare_of_tree_eq {s s' : SnapshotStorage B} (h : s'.tree t = s.tree t ∨ s'.tree t = {})
    (hitems : ¬ s'.Bare t) : ¬ s.Bare t := by
  rcases h with hsame | hempty
  · rwa [SnapshotStorage.Bare, ← hsame]
  · exact absurd (SnapshotStorage.bare_of_tree_eq_empty hempty) hitems

/-- A step that moves trees only, and only those it may. -/
theorem Tracked.of_trees (h : g.Tracked) {g' : Disposal B} (hcalls : g'.calls = g.calls)
    (hpending : g'.pendingRetire = g.pendingRetire) (hretired : g'.retired = g.retired)
    (hlifecycle : g'.storage.lifecycle = g.storage.lifecycle)
    (htrees : ∀ t, Opaque.isOpaqueTree t → ¬ g.Current t →
      g'.storage.tree t = g.storage.tree t ∨ g'.storage.tree t = {}) : g'.Tracked := by
  have hcurrent (t : TreeId) : g'.Current t ↔ g.Current t := by rw [Current, Current, hlifecycle]
  constructor
  · intro t hopq hitems
    rw [hcurrent, hpending, hcalls]
    by_cases hnow : g.Current t
    · exact .inl hnow
    · exact h.claimed t hopq (not_bare_of_tree_eq (htrees t hopq hnow) hitems)
  · intro id call hcall t ht
    rw [hcalls] at hcall
    obtain ⟨hopq, hnow, hwaits, htaken⟩ := h.held id call hcall t ht
    rw [hcurrent, hpending]
    refine ⟨hopq, hnow, hwaits, fun hitems => htaken ?_⟩
    exact not_bare_of_tree_eq (htrees t hopq hnow) hitems
  · intro t ht
    rw [hcurrent]
    exact h.former t (hretired ▸ ht)

theorem Tracked.refresh (h : g.Tracked) {next : ExtTreeMap SlotHash RegisterValue}
    (horderly : Orderly g (.refresh next)) : (g.refreshOpaqueAdmission next).Tracked := by
  constructor
  · intro t hopq hitems
    rw [mem_pendingRetire_refreshOpaqueAdmission]
    rcases h.claimed t hopq hitems with hnow | hwaits | hcall
    · -- a tree the change leaves behind is put on the list in the same turn
      by_cases hafter : (g.refreshOpaqueAdmission next).Current t
      · exact .inl hafter
      · exact .inr (.inl (.inr ⟨hnow, hafter⟩))
    · exact .inr (.inl (.inl hwaits))
    · exact .inr (.inr hcall)
  · intro id call hcall t ht
    obtain ⟨hopq, hnow, hwaits, htaken⟩ := h.held id call hcall t ht
    refine ⟨hopq, ?_, ?_, htaken⟩
    · exact horderly (id, call) (ExtTreeMap.mem_toList_iff_getElem?_eq_some.2 hcall) t ht
    · rw [mem_pendingRetire_refreshOpaqueAdmission]
      rintro (hwaits' | ⟨hnow', _⟩)
      · exact hwaits hwaits'
      · exact hnow hnow'
  · intro t ht
    obtain ⟨hold, hnow⟩ := (mem_retired_refreshOpaqueAdmission g next).1 ht
    refine ⟨?_, hnow⟩
    rcases hold with hold | hold
    · exact (h.former t hold).1
    · exact Opaque.isOpaqueTree_of_status hold

/-- A call moves on and answers for the trees it has left. -/
theorem tracked_insert {id : ℕ} {retired : Finset TreeId} {stage : ReconcileStage}
    (hclaimed : ∀ t : TreeId, Opaque.isOpaqueTree t → ¬ g.storage.Bare t → g.Current t ∨
      t ∈ g.pendingRetire ∨ t ∈ stage.remaining ∨ ∃ (id' : ℕ) (call : ReconcileCall), id' ≠ id ∧
        g.calls[id']? = some call ∧ t ∈ call.stage.remaining)
    (hothers : ∀ (id' : ℕ) (call : ReconcileCall), g.calls[id']? = some call → id' ≠ id →
      g.Held call.retired call.stage.remaining)
    (hheld : g.Held retired stage.remaining)
    (hformer : ∀ t : TreeId, t ∈ g.retired → Opaque.isOpaqueTree t ∧ ¬ g.Current t) :
    { g with calls := g.calls.insert id ⟨stage, retired⟩ }.Tracked := by
  constructor
  · intro t hopq hitems
    rcases hclaimed t hopq hitems with hnow | hwaits | ht | ⟨id', call, hne, hcall, ht⟩
    · exact .inl hnow
    · exact .inr (.inl hwaits)
    · exact .inr (.inr ⟨id, _, ExtTreeMap.getElem?_insert_self, ht⟩)
    · refine .inr (.inr ⟨id', call, ?_, ht⟩)
      rw [ExtTreeMap.getElem?_insert, if_neg (by simpa using hne.symm), hcall]
  · intro id' call hcall
    rw [ExtTreeMap.getElem?_insert] at hcall
    split at hcall
    next =>
      cases hcall
      exact hheld
    next hne =>
      have hne : id' ≠ id := fun heq => hne (by simp [heq])
      exact hothers id' call hcall hne
  · exact hformer

/-- The same of a call that comes to its next await. -/
theorem tracked_resume {id : ℕ} {retired : Finset TreeId} {remaining : List TreeId}
    (hclaimed : ∀ t : TreeId, Opaque.isOpaqueTree t → ¬ g.storage.Bare t → g.Current t ∨
      t ∈ g.pendingRetire ∨ t ∈ remaining ∨ ∃ (id' : ℕ) (call : ReconcileCall), id' ≠ id ∧
        g.calls[id']? = some call ∧ t ∈ call.stage.remaining)
    (hothers : ∀ (id' : ℕ) (call : ReconcileCall), g.calls[id']? = some call → id' ≠ id →
      g.Held call.retired call.stage.remaining)
    (hheld : g.Held retired remaining)
    (hformer : ∀ t : TreeId, t ∈ g.retired → Opaque.isOpaqueTree t ∧ ¬ g.Current t) :
    (g.resume id retired remaining).Tracked := by
  obtain ⟨stage, rfl, hcalls⟩ := calls_resume g id retired remaining
  refine (tracked_insert hclaimed hothers hheld hformer).of_trees hcalls ?_ ?_ ?_ ?_
  · rw [pendingRetire_resume]
  · rw [retired_resume]
  · rw [storage_resume]
  · intro t _ _
    rw [storage_resume]
    exact .inl rfl

/-- A call that ends has left nothing undone. -/
theorem Tracked.leave (h : g.Tracked) {id : ℕ}
    (hdone : ∀ call, g.calls[id]? = some call → ∀ t ∈ call.stage.remaining, g.storage.Bare t) :
    { g with calls := g.calls.erase id }.Tracked := by
  constructor
  · intro t hopq hitems
    rcases h.claimed t hopq hitems with hnow | hwaits | ⟨id', call, hcall, ht⟩
    · exact .inl hnow
    · exact .inr (.inl hwaits)
    · refine .inr (.inr ⟨id', call, ?_, ht⟩)
      rw [ExtTreeMap.getElem?_erase, if_neg, hcall]
      intro heq
      have hid : id = id' := by simpa using heq
      subst hid
      exact hitems (hdone call hcall t ht)
  · intro id' call hcall
    rw [ExtTreeMap.getElem?_erase] at hcall
    split at hcall
    · cases hcall
    · exact h.held id' call hcall
  · exact h.former

theorem Tracked.reconcile (h : g.Tracked) {id : ℕ} (horderly : Orderly g (.reconcile id)) :
    (g.reconcileOpaque id).Tracked := by
  have hthrough {id' : ℕ} {call : ReconcileCall} (hcall : g.calls[id']? = some call) {t : TreeId}
      (ht : t ∈ call.stage.remaining) : g.storage.Bare t :=
    horderly (id', call) (ExtTreeMap.mem_toList_iff_getElem?_eq_some.2 hcall) t ht
  unfold reconcileOpaque
  split
  · exact h
  refine tracked_resume (g := { g with pendingRetire := ∅ }) ?_ ?_ ?_ h.former
  · intro t hopq hitems
    rcases h.claimed t hopq hitems with hnow | hwaits | ⟨id', call, hcall, ht⟩
    · exact .inl hnow
    · exact .inr (.inr (.inl (ExtTreeSet.mem_toList.2 hwaits)))
    · exact absurd (hthrough hcall ht) hitems
  · intro id' call hcall _ t ht
    obtain ⟨hopq, hnow, _, htaken⟩ := h.held id' call hcall t ht
    exact ⟨hopq, hnow, ExtTreeSet.not_mem_empty, htaken⟩
  · intro t ht
    obtain ⟨hopq, hnow⟩ := h.former t ht
    refine ⟨hopq, hnow, ExtTreeSet.not_mem_empty, fun hitems => ?_⟩
    rcases h.claimed t hopq hitems with hnow' | hwaits | ⟨id', call, hcall, htaken⟩
    · exact absurd hnow' hnow
    · exact ExtTreeSet.mem_toList.2 hwaits
    · exact absurd (hthrough hcall htaken) hitems

theorem Tracked.advance (h : g.Tracked) {id : ℕ} {ok : Bool}
    (horderly : Orderly g (.advance id ok)) :
    (g.advance id ok).Tracked := by
  unfold Disposal.advance
  split
  · exact h
  next tree rest retired hcall =>
    cases ok with
    | false => exact h.leave horderly
    | true =>
      rw [if_pos rfl]
      have hforget : ({ g with storage := g.storage.forgetTree tree } : Disposal B).Tracked :=
        h.of_trees rfl rfl rfl rfl fun t _ _ => tree_forgetTree g.storage t tree
      have hrest {t : TreeId} (ht : t ∈ tree :: rest)
          (hitems : ¬ (g.storage.forgetTree tree).Bare t) :
          t ∈ rest := by
        rcases List.mem_cons.1 ht with rfl | ht
        · exact absurd (SnapshotStorage.bare_of_tree_eq_empty (g.storage.tree_forgetTree_self t))
            hitems
        · exact ht
      refine tracked_resume ?_ (fun id' call hcall' _ => hforget.held id' call hcall') ?_
        hforget.former
      · intro t hopq hitems
        rcases hforget.claimed t hopq hitems with hnow | hwaits | ⟨id', call, hcall', ht⟩
        · exact .inl hnow
        · exact .inr (.inl hwaits)
        · by_cases hid : id' = id
          · subst hid
            rw [show ({ g with storage := g.storage.forgetTree tree } : Disposal B).calls[id']? = _
              from hcall] at hcall'
            cases hcall'
            exact .inr (.inr (.inl (hrest ht hitems)))
          · exact .inr (.inr (.inr ⟨id', call, hid, hcall', ht⟩))
      · intro t ht
        obtain ⟨hopq, hnow, hwaits, htaken⟩ := hforget.held id _ hcall t ht
        exact ⟨hopq, hnow, hwaits, fun hitems => hrest (htaken hitems) hitems⟩
  next tree conn rest retired hcall =>
    have hnothing {call : ReconcileCall} (hcall' : g.calls[id]? = some call) :
        call.stage.remaining = [] := by
      rw [hcall] at hcall'
      cases hcall'
      rfl
    split
    · refine tracked_insert ?_ (fun id' call hcall' _ => h.held id' call hcall') ?_ h.former
      · intro t hopq hitems
        rcases h.claimed t hopq hitems with hnow | hwaits | ⟨id', call, hcall', ht⟩
        · exact .inl hnow
        · exact .inr (.inl hwaits)
        · by_cases hid : id' = id
          · subst hid
            rw [hnothing hcall'] at ht
            cases ht
          · exact .inr (.inr (.inr ⟨id', call, hid, hcall', ht⟩))
      · exact h.held id _ hcall
    · refine h.leave fun call hcall' t ht => ?_
      rw [hnothing hcall'] at ht
      cases ht
  next hcall =>
    refine h.leave fun call hcall' t ht => ?_
    rw [hcall] at hcall'
    cases hcall'
    cases ht

theorem tracked_step (codec : Codec B) (g : Disposal B) (l : Label B) (horderly : Orderly g l)
    (h : g.Tracked) : (g.step codec l).Tracked := by
  cases l with
  | refresh next => exact h.refresh horderly
  | reconcile id => exact h.reconcile horderly
  | advance id ok => exact h.advance horderly
  | connections ready => exact h.of_trees rfl rfl rfl rfl fun _ _ _ => .inl rfl
  | persist t' commits fragments =>
    exact h.of_trees rfl rfl rfl (SnapshotStorage.lifecycle_persistItems ..)
      fun _ hopq hnow => tree_step codec g (.persist t' commits fragments) hopq hnow
  | restore t' commits fragments =>
    exact h.of_trees rfl rfl rfl (SnapshotStorage.lifecycle_restore ..)
      fun _ hopq hnow => tree_step codec g (.restore t' commits fragments) hopq hnow
  | forget t' =>
    exact h.of_trees rfl rfl rfl rfl fun _ hopq hnow => tree_step codec g (.forget t') hopq hnow

theorem tracked_run {registers : ExtTreeMap SlotHash RegisterValue} {ls : List (Label B)}
    (hmeets : Transition.Meets (step codec) Orderly (start registers) ls) :
    (Transition.run (step codec) (start registers) ls).Tracked :=
  Transition.run_preserves_of_meets (tracked_step codec) hmeets (tracked_start registers)

/-- No retired tree is written or read: a step leaves an opaque tree that is not current as it is
or empties it, and nothing is fetched from it. And in a run whose steps are orderly, a
reconciliation that returns leaves no item of any tree that was retired when it began. -/
theorem retired_hold_nothing (codec : Codec B) :
    (∀ (g : Disposal B) (l : Label B) (t : TreeId), Opaque.isOpaqueTree t → ¬ g.Current t →
      ((g.step codec l).storage.tree t = g.storage.tree t ∨
        (g.step codec l).storage.tree t = {}) ∧
      ∀ commitIds fragmentHeads, g.storage.fetchItems t commitIds fragmentHeads = none) ∧
    ∀ (registers : ExtTreeMap SlotHash RegisterValue) (ls : List (Label B)),
      Transition.Meets (step codec) Orderly (start registers) ls →
      ∀ id call, (Transition.run (step codec) (start registers) ls).ReturnsOk id call →
      ∀ t ∈ call.retired, (Transition.run (step codec) (start registers) ls).storage.Bare t := by
  refine ⟨fun g l t hopq hnow => ⟨?_, ?_⟩, fun registers ls hmeets id call hreturns t ht => ?_⟩
  · exact tree_step codec g l hopq hnow
  · exact fetchItems_eq_none hopq hnow
  · obtain ⟨hcall, hstage⟩ := hreturns
    obtain ⟨_, _, _, htaken⟩ := (tracked_run hmeets).held id call hcall t ht
    rw [hstage] at htaken
    by_contra hitems
    exact absurd (htaken hitems) List.not_mem_nil

/-! ## One tree, written and disabled -/

/-- The tree of slot 1 under nonce 1. -/
def sampleTree : TreeId := Opaque.treeId 1 1

/-- The register that names it, and the tombstone that replaces it. -/
def sampleRegisters : ExtTreeMap SlotHash RegisterValue × ExtTreeMap SlotHash RegisterValue :=
  ((∅ : ExtTreeMap SlotHash RegisterValue).insert 1 ⟨1, 1, some .groupSealed⟩,
    (∅ : ExtTreeMap SlotHash RegisterValue).insert 1 ⟨2, 2, none⟩)

/-- A codec that measures blobs. -/
def sampleCodec : Codec Bytes where
  blobMeta blob := ⟨0, blob.length⟩
  ciphertextRefs _ := none
  sharedCref _ _ := 0
  hashRefs _ := 0
  itemId _ _ _ := 0
  decodeCommit _ := none
  decodeFragment _ := none
  minimize _ commits := commits

/-- One item is published, the slot is disabled, and the reconciliation begins. -/
def sampleRun : List (Label Bytes) :=
  [.persist sampleTree [(⟨7, [1], some ⟨sampleTree, 9, [], ⟨0, 2⟩⟩⟩, [4, 4])] [],
    .refresh sampleRegisters.2, .reconcile 0]

/-- A retirement that fails is never made up for: the reconciliation after it returns `Ok` and the
item is still there. -/
theorem failed_retirement_is_forgotten :
    ¬ ∀ (registers : ExtTreeMap SlotHash RegisterValue) (ls : List (Label Bytes)) (id : ℕ)
      (call : ReconcileCall),
      (Transition.run (step sampleCodec) (start registers) ls).ReturnsOk id call →
        ∀ t ∈ call.retired,
      (Transition.run (step sampleCodec) (start registers) ls).storage.Bare t := by
  intro h
  have hbare := h sampleRegisters.1 (sampleRun ++ [.advance 0 false, .reconcile 1]) 1
    ⟨.subscribing [], {sampleTree}⟩ ⟨by decide +kernel, rfl⟩ sampleTree (by decide)
  revert hbare
  decide +kernel

theorem retired_hold_nothing_sampleRun :
    (Transition.run (step sampleCodec) (start sampleRegisters.1)
      (sampleRun ++ [.advance 0 true])).storage.Bare sampleTree := by
  have horderly : Transition.Meets (step sampleCodec) Orderly (start sampleRegisters.1)
      (sampleRun ++ [.advance 0 true]) := by
    decide +kernel
  have hreturns : (Transition.run (step sampleCodec) (start sampleRegisters.1)
      (sampleRun ++ [.advance 0 true])).ReturnsOk 0 ⟨.subscribing [], {sampleTree}⟩ :=
    ⟨by decide +kernel, rfl⟩
  exact (retired_hold_nothing sampleCodec).2 _ _ horderly 0 _ hreturns sampleTree
    (Finset.mem_singleton_self sampleTree)

end Disposal

end Polyvisor
