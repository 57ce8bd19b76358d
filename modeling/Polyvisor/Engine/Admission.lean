import Polyvisor.Engine.Journal

/-!
# What a batch leaves in a tree

`persist_items` and `prune` of `engine/src/storage.rs`, by what one tree holds before and after.

## Main results

* `received_persistItems`: a batch removes nothing, and whatever is new under an id is an item of
  the batch whose payload names that id, also when the batch is refused part-way.
* `mem_commits_of_persistItems`, `mem_fragments_of_persistItems`: a batch that is accepted is
  stored.
* `getElem?_commits_prune`: pruning drops the doomed commits and nothing else.
-/

namespace Polyvisor.SnapshotStorage

variable {B : Type} {codec : Codec B} {t : TreeId} {s s' : SnapshotStorage B}

/-- The values of a map, in the order of their keys. -/
theorem values_eq_map_snd {K V : Type} [Ord K] [Std.TransOrd K] (m : Std.ExtTreeMap K V) :
    m.values = m.toList.map Prod.snd := by
  obtain ⟨⟨q⟩⟩ := m
  induction q using Quotient.inductionOn with
  | _ t =>
    obtain ⟨t, wf⟩ := t
    show Std.DTreeMap.Internal.Impl.values t =
      (Std.DTreeMap.Internal.Impl.Const.toList t).map Prod.snd
    rw [Std.DTreeMap.Internal.Impl.values_eq_map_snd,
      Std.DTreeMap.Internal.Impl.Const.toList_eq_toListModel_map, List.map_map]
    rfl

theorem mem_values {K V : Type} [Ord K] [Std.TransOrd K] [Std.LawfulEqOrd K]
    {m : Std.ExtTreeMap K V} {v : V} : v ∈ m.values ↔ ∃ k : K, m[k]? = some v := by
  simp [values_eq_map_snd, Std.ExtTreeMap.mem_toList_iff_getElem?_eq_some]

/-- The checks of one commit, read together. -/
theorem admitCommit_eq_some {signed : Signed LooseCommit} {blob : B} {payload : LooseCommit} :
    s.admitCommit codec t signed blob = some payload ↔
      s.sharedAuthorized t signed ∧ signed.payload = some payload ∧ payload.sedimentreeId = t ∧
        payload.blobMeta = codec.blobMeta blob ∧
        (t.firstByte = sharedTreeTag → scopedCiphertext codec t payload blob) ∧
        (Opaque.isOpaqueTree t → Opaque.mode s.lifecycle t = some .callerEncrypted →
          validRawCommit codec t payload blob) := by
  simp only [admitCommit, Option.bind_eq_bind, Option.bind_eq_some_iff, Option.guard_eq_some']
  constructor
  · rintro ⟨_, hauthor, payload', hpayload, _, ⟨htree, hmeta⟩, _, hscope, _, hraw, heq⟩
    cases heq
    exact ⟨hauthor, hpayload, htree, hmeta, hscope, hraw⟩
  · rintro ⟨hauthor, hpayload, htree, hmeta, hscope, hraw⟩
    exact ⟨(), hauthor, payload, hpayload, (), ⟨htree, hmeta⟩, (), hscope, (), hraw, rfl⟩

theorem payload_of_admitCommit {signed : Signed LooseCommit} {blob : B} {payload : LooseCommit}
    (h : s.admitCommit codec t signed blob = some payload) : signed.payload = some payload :=
  (admitCommit_eq_some.1 h).2.1

/-- The checks of one fragment, read together. -/
theorem admitFragment_eq_some {signed : Signed Fragment} {payload : Fragment} :
    s.admitFragment t signed = some payload ↔ !isSharedNamespace t ∧ s.sharedAuthorized t signed ∧
      signed.payload = some payload := by
  simp [admitFragment, Option.bind_eq_some_iff, and_assoc]

theorem payload_of_admitFragment {signed : Signed Fragment} {payload : Fragment}
    (h : s.admitFragment t signed = some payload) : signed.payload = some payload :=
  (admitFragment_eq_some.1 h).2.2

/-- What is admitted depends on the authorities and the registers only. -/
theorem admitCommit_congr (hshared : s'.shared = s.shared) (hlifecycle : s'.lifecycle = s.lifecycle)
    (signed : Signed LooseCommit) (blob : B) :
    s'.admitCommit codec t signed blob = s.admitCommit codec t signed blob := by
  rw [admitCommit, admitCommit, sharedAuthorized, sharedAuthorized, hshared, hlifecycle]

theorem admitFragment_congr (hshared : s'.shared = s.shared) (signed : Signed Fragment) :
    s'.admitFragment t signed = s.admitFragment t signed := by
  rw [admitFragment, admitFragment, sharedAuthorized, sharedAuthorized, hshared]

/-! ## One item -/

@[simp]
theorem commits_insertCommit (s : SnapshotStorage B) (t : TreeId) (head : CommitId)
    (item : Signed LooseCommit × B) :
    ((s.insertCommit t head item).tree t).commits = (s.tree t).commits.insert head item := by
  rw [insertCommit, tree_write_self]

@[simp]
theorem fragments_insertCommit (s : SnapshotStorage B) (t : TreeId) (head : CommitId)
    (item : Signed LooseCommit × B) :
    ((s.insertCommit t head item).tree t).fragments = (s.tree t).fragments := by
  rw [insertCommit, tree_write_self]

@[simp]
theorem fragments_insertFragment (s : SnapshotStorage B) (t : TreeId) (head : CommitId)
    (item : Signed Fragment × B) :
    ((s.insertFragment t head item).tree t).fragments = (s.tree t).fragments.insert head item := by
  rw [insertFragment, tree_write_self]

@[simp]
theorem commits_insertFragment (s : SnapshotStorage B) (t : TreeId) (head : CommitId)
    (item : Signed Fragment × B) :
    ((s.insertFragment t head item).tree t).commits = (s.tree t).commits := by
  rw [insertFragment, tree_write_self]

@[simp]
theorem tree_ensureTree (s : SnapshotStorage B) (t t' : TreeId) :
    (s.ensureTree t).tree t' = s.tree t' := by
  by_cases h : t = t' <;> simp [ensureTree, tree, Std.ExtTreeMap.getD_insert, h]

variable {commits : List (Signed LooseCommit × B)} {fragments : List (Signed Fragment × B)}

/-! ## What holds through a batch

The two ways items enter a tree, as inductions over the writes they make. What is admitted is
judged against the storage the batch started from: no write of a batch moves a register or a
record. -/

/-- What survives every admitted write of `persist_items` survives the call. -/
theorem persistItems_induction {motive : SnapshotStorage B → Prop} (base : motive s)
    (ensure : motive (s.ensureTree t))
    (commit : ∀ s' item payload, motive s' →
      (Opaque.isOpaqueTree t → Opaque.status s.lifecycle t = some true) → item ∈ commits →
      s.admitCommit codec t item.1 item.2 = some payload →
      motive (s'.insertCommit t payload.head item))
    (fragment : ∀ s' item payload, motive s' → ¬ Opaque.isOpaqueTree t → item ∈ fragments →
      s.admitFragment t item.1 = some payload → motive (s'.insertFragment t payload.head item)) :
    motive (s.persistItems codec t commits fragments).1 := by
  -- the loops run on a storage that differs from `s` in its trees and its pending records only
  let Along (s' : SnapshotStorage B) : Prop :=
    motive s' ∧ s'.shared = s.shared ∧ s'.lifecycle = s.lifecycle
  have hcommits (hopen : Opaque.isOpaqueTree t → Opaque.status s.lifecycle t = some true)
      (batch : List (Signed LooseCommit × B)) (hbatch : batch ⊆ commits) (s' : SnapshotStorage B)
      (stored : ℕ) (h : Along s') : Along (persistCommits codec t s' batch stored).1 := by
    induction batch generalizing s' stored with
    | nil => exact h
    | cons item rest ih =>
      obtain ⟨hmem, hrest⟩ := List.cons_subset.1 hbatch
      rw [persistCommits]
      cases hadmitted : s'.admitCommit codec t item.1 item.2 with
      | none => exact h
      | some payload =>
        obtain ⟨hmotive, hshared, hlifecycle⟩ := h
        refine ih hrest _ _ ⟨commit s' item payload hmotive hopen hmem ?_, hshared, hlifecycle⟩
        rw [← hadmitted, admitCommit_congr hshared hlifecycle]
  have hfragments (hclosed : ¬ Opaque.isOpaqueTree t) (batch : List (Signed Fragment × B))
      (hbatch : batch ⊆ fragments) (s' : SnapshotStorage B) (stored : ℕ) (h : Along s') :
      Along (persistFragments t s' batch stored).1 := by
    induction batch generalizing s' stored with
    | nil => exact h
    | cons item rest ih =>
      obtain ⟨hmem, hrest⟩ := List.cons_subset.1 hbatch
      rw [persistFragments]
      cases hadmitted : s'.admitFragment t item.1 with
      | none => exact h
      | some payload =>
        obtain ⟨hmotive, hshared, hlifecycle⟩ := h
        refine ih hrest _ _ ⟨fragment s' item payload hmotive hclosed hmem ?_, hshared, hlifecycle⟩
        rw [← hadmitted, admitFragment_congr hshared]
  rw [persistItems]
  split
  · exact base
  next hopen =>
    split
    · exact base
    next hclosed =>
      have hopen' : Opaque.isOpaqueTree t → Opaque.status s.lifecycle t = some true := fun h =>
        not_not.1 fun hne => hopen ⟨h, hne⟩
      have hstored := hcommits hopen' commits (List.Subset.refl _) (s.ensureTree t) 0
        ⟨ensure, rfl, rfl⟩
      split
      next heq =>
        rw [heq] at hstored
        exact hstored.1
      next heq =>
        rw [heq] at hstored
        by_cases hopq : Opaque.isOpaqueTree t
        · -- an opaque tree takes no fragment, so the second loop has nothing to do
          have hnil : fragments = [] := by simpa [hopq] using hclosed
          subst hnil
          exact hstored.1
        · exact (hfragments hopq fragments (List.Subset.refl _) _ _ hstored).1

/-- What survives every accepted write of `restore` survives the call. -/
theorem restore_induction {motive : SnapshotStorage B → Prop} {accepted : List (Item B)}
    {rolled : List (Item B)} (base : motive s) (ensure : motive (s.ensureTree t))
    (commit : ∀ s' entry, motive s' →
      (Opaque.isOpaqueTree t → Opaque.status s.lifecycle t = some true) →
      entry ∈ s.acceptedCommits codec t accepted → motive (s'.insertCommit t entry.1 entry.2))
    (fragment : ∀ s' entry, motive s' → ¬ Opaque.isOpaqueTree t →
      entry ∈ acceptedFragments codec rolled → motive (s'.insertFragment t entry.1 entry.2)) :
    motive (s.restore codec t accepted rolled) := by
  have hcommits (hopen : Opaque.isOpaqueTree t → Opaque.status s.lifecycle t = some true)
      (batch : List (CommitId × Signed LooseCommit × B))
      (hbatch : batch ⊆ s.acceptedCommits codec t accepted) (s' : SnapshotStorage B)
      (h : motive s') :
      motive (batch.foldl (fun s entry => s.insertCommit t entry.1 entry.2) s') := by
    induction batch generalizing s' with
    | nil => exact h
    | cons entry rest ih =>
      obtain ⟨hmem, hrest⟩ := List.cons_subset.1 hbatch
      exact ih hrest _ (commit s' entry h hopen hmem)
  have hfragments (hclosed : ¬ Opaque.isOpaqueTree t)
      (batch : List (CommitId × Signed Fragment × B))
      (hbatch : batch ⊆ acceptedFragments codec rolled) (s' : SnapshotStorage B)
      (h : motive s') :
      motive (batch.foldl (fun s entry => s.insertFragment t entry.1 entry.2) s') := by
    induction batch generalizing s' with
    | nil => exact h
    | cons entry rest ih =>
      obtain ⟨hmem, hrest⟩ := List.cons_subset.1 hbatch
      exact ih hrest _ (fragment s' entry h hclosed hmem)
  rw [restore]
  split
  · exact base
  next hopen =>
    have hopen' : Opaque.isOpaqueTree t → Opaque.status s.lifecycle t = some true := fun h =>
      not_not.1 fun hne => hopen ⟨h, .inl hne⟩
    have hstored := hcommits hopen' _ (List.Subset.refl _) (s.ensureTree t) ensure
    by_cases hopq : Opaque.isOpaqueTree t
    · have hnil : rolled = [] := by simpa [hopq, hopen' hopq] using hopen
      subst hnil
      exact hstored
    · exact hfragments hopq _ (List.Subset.refl _) _ hstored

/-! ## A batch -/

/-- `s'` came from `s` by storing items of these batches in the tree. -/
structure Received (t : TreeId) (commits : List (Signed LooseCommit × B))
    (fragments : List (Signed Fragment × B)) (s s' : SnapshotStorage B) : Prop where
  mem_commits : ∀ i ∈ (s.tree t).commits, i ∈ (s'.tree t).commits
  mem_fragments : ∀ i ∈ (s.tree t).fragments, i ∈ (s'.tree t).fragments
  commits : ∀ i item, (s'.tree t).commits[i]? = some item → (s.tree t).commits[i]? = some item ∨
    item ∈ commits ∧ ∃ payload, item.1.payload = some payload ∧ payload.head = i
  fragments : ∀ i item, (s'.tree t).fragments[i]? = some item →
    (s.tree t).fragments[i]? = some item ∨
    item ∈ fragments ∧ ∃ payload, item.1.payload = some payload ∧ payload.head = i

theorem Received.of_tree_eq (h : s'.tree t = s.tree t) : Received t commits fragments s s' where
  mem_commits _ hi := h ▸ hi
  mem_fragments _ hi := h ▸ hi
  commits _ _ hi := .inl (h ▸ hi)
  fragments _ _ hi := .inl (h ▸ hi)

theorem Received.insertCommit (h : Received t commits fragments s s')
    {item : Signed LooseCommit × B} (hitem : item ∈ commits) {payload : LooseCommit}
    (hpayload : item.1.payload = some payload) :
    Received t commits fragments s (s'.insertCommit t payload.head item) where
  mem_commits i hi := by
    rw [commits_insertCommit, Std.ExtTreeMap.mem_insert]
    exact .inr (h.mem_commits i hi)
  mem_fragments i hi := by
    rw [fragments_insertCommit]
    exact h.mem_fragments i hi
  commits i item' hi := by
    rw [commits_insertCommit, Std.ExtTreeMap.getElem?_insert] at hi
    split at hi
    next heq =>
      cases hi
      exact .inr ⟨hitem, payload, hpayload, Std.LawfulEqOrd.eq_of_compare heq⟩
    next => exact h.commits i item' hi
  fragments i item' hi := by
    rw [fragments_insertCommit] at hi
    exact h.fragments i item' hi

theorem Received.insertFragment (h : Received t commits fragments s s')
    {item : Signed Fragment × B} (hitem : item ∈ fragments) {payload : Fragment}
    (hpayload : item.1.payload = some payload) :
    Received t commits fragments s (s'.insertFragment t payload.head item) where
  mem_commits i hi := by
    rw [commits_insertFragment]
    exact h.mem_commits i hi
  mem_fragments i hi := by
    rw [fragments_insertFragment, Std.ExtTreeMap.mem_insert]
    exact .inr (h.mem_fragments i hi)
  commits i item' hi := by
    rw [commits_insertFragment] at hi
    exact h.commits i item' hi
  fragments i item' hi := by
    rw [fragments_insertFragment, Std.ExtTreeMap.getElem?_insert] at hi
    split at hi
    next heq =>
      cases hi
      exact .inr ⟨hitem, payload, hpayload, Std.LawfulEqOrd.eq_of_compare heq⟩
    next => exact h.fragments i item' hi

theorem received_persistItems (codec : Codec B) (s : SnapshotStorage B) (t : TreeId)
    (commits : List (Signed LooseCommit × B)) (fragments : List (Signed Fragment × B)) :
    Received t commits fragments s (s.persistItems codec t commits fragments).1 := by
  apply persistItems_induction
  · exact .of_tree_eq rfl
  · exact .of_tree_eq (tree_ensureTree s t t)
  · intro s' item payload h _ hitem hadmitted
    exact h.insertCommit hitem (payload_of_admitCommit hadmitted)
  · intro s' item payload h _ hitem hadmitted
    exact h.insertFragment hitem (payload_of_admitFragment hadmitted)

theorem received_persistFragments (h : Received t commits fragments s s')
    {batch : List (Signed Fragment × B)} (hbatch : batch ⊆ fragments) (stored : ℕ) :
    Received t commits fragments s (persistFragments t s' batch stored).1 := by
  induction batch generalizing s' stored with
  | nil => exact h
  | cons item rest ih =>
    obtain ⟨signed, blob⟩ := item
    obtain ⟨hmem, hrest⟩ := List.cons_subset.1 hbatch
    rw [persistFragments]
    cases hadmitted : s'.admitFragment t signed with
    | none => exact h
    | some payload => exact ih (h.insertFragment hmem (payload_of_admitFragment hadmitted)) hrest _

/-! ## A batch that is accepted -/

theorem mem_commits_persistCommits {batch : List (Signed LooseCommit × B)} {stored n : ℕ}
    (h : persistCommits codec t s batch stored = (s', .ok n)) :
    (∀ i ∈ (s.tree t).commits, i ∈ (s'.tree t).commits) ∧
      ∀ item ∈ batch, ∃ payload, item.1.payload = some payload ∧
        payload.head ∈ (s'.tree t).commits := by
  induction batch generalizing s stored with
  | nil =>
    cases h
    exact ⟨fun _ hi => hi, fun _ hitem => by cases hitem⟩
  | cons item rest ih =>
    obtain ⟨signed, blob⟩ := item
    rw [persistCommits] at h
    cases hadmitted : s.admitCommit codec t signed blob with
    | none =>
      rw [hadmitted] at h
      cases h
    | some payload =>
      rw [hadmitted] at h
      obtain ⟨hmono, hrest⟩ := ih h
      rw [commits_insertCommit] at hmono
      refine ⟨fun i hi => hmono i (Std.ExtTreeMap.mem_insert.2 (.inr hi)), fun item hitem => ?_⟩
      rcases List.mem_cons.1 hitem with rfl | hitem
      · exact ⟨payload, payload_of_admitCommit hadmitted, hmono _ Std.ExtTreeMap.mem_insert_self⟩
      · exact hrest item hitem

theorem mem_fragments_persistFragments {batch : List (Signed Fragment × B)} {stored n : ℕ}
    (h : persistFragments t s batch stored = (s', .ok n)) :
    (∀ i ∈ (s.tree t).fragments, i ∈ (s'.tree t).fragments) ∧
      ∀ item ∈ batch, ∃ payload, item.1.payload = some payload ∧
        payload.head ∈ (s'.tree t).fragments := by
  induction batch generalizing s stored with
  | nil =>
    cases h
    exact ⟨fun _ hi => hi, fun _ hitem => by cases hitem⟩
  | cons item rest ih =>
    obtain ⟨signed, blob⟩ := item
    rw [persistFragments] at h
    cases hadmitted : s.admitFragment t signed with
    | none =>
      rw [hadmitted] at h
      cases h
    | some payload =>
      rw [hadmitted] at h
      obtain ⟨hmono, hrest⟩ := ih h
      rw [fragments_insertFragment] at hmono
      refine ⟨fun i hi => hmono i (Std.ExtTreeMap.mem_insert.2 (.inr hi)), fun item hitem => ?_⟩
      rcases List.mem_cons.1 hitem with rfl | hitem
      · exact ⟨payload, payload_of_admitFragment hadmitted, hmono _ Std.ExtTreeMap.mem_insert_self⟩
      · exact hrest item hitem

theorem persistItems_ok {n : ℕ} (h : s.persistItems codec t commits fragments = (s', .ok n)) :
    ∃ middle stored, persistCommits codec t (s.ensureTree t) commits 0 = (middle, .ok stored) ∧
      persistFragments t middle fragments stored = (s', .ok n) := by
  unfold persistItems at h
  split at h
  · cases h
  split at h
  · cases h
  split at h
  next => cases h
  next middle stored heq => exact ⟨middle, stored, heq, h⟩

/-- Every commit of an accepted batch is stored. -/
theorem mem_commits_of_persistItems {n : ℕ}
    (h : s.persistItems codec t commits fragments = (s', .ok n)) {item : Signed LooseCommit × B}
    (hitem : item ∈ commits) :
    ∃ payload, item.1.payload = some payload ∧ payload.head ∈ (s'.tree t).commits := by
  obtain ⟨middle, stored, hcommits, hfragments⟩ := persistItems_ok h
  obtain ⟨payload, hpayload, hmem⟩ := (mem_commits_persistCommits hcommits).2 item hitem
  refine ⟨payload, hpayload, ?_⟩
  have hkept : Received t [] fragments middle (persistFragments t middle fragments stored).1 :=
    received_persistFragments (.of_tree_eq rfl) (List.Subset.refl fragments) stored
  rw [hfragments] at hkept
  exact hkept.mem_commits _ hmem

/-- Every fragment of an accepted batch is stored. -/
theorem mem_fragments_of_persistItems {n : ℕ}
    (h : s.persistItems codec t commits fragments = (s', .ok n)) {item : Signed Fragment × B}
    (hitem : item ∈ fragments) :
    ∃ payload, item.1.payload = some payload ∧ payload.head ∈ (s'.tree t).fragments := by
  obtain ⟨_, _, -, hfragments⟩ := persistItems_ok h
  exact (mem_fragments_persistFragments hfragments).2 item hitem

/-! ## Pruning -/

theorem tree_foldl_removeCommit (s : SnapshotStorage B) (t : TreeId) (ids : List CommitId) :
    (((ids.foldl (fun s id => s.removeCommit t id) s).tree t).fragments = (s.tree t).fragments) ∧
      ∀ i, ((ids.foldl (fun s id => s.removeCommit t id) s).tree t).commits[i]? =
        if i ∈ ids then none else (s.tree t).commits[i]? := by
  induction ids generalizing s with
  | nil => simp
  | cons id ids ih =>
    obtain ⟨hfragments, hcommits⟩ := ih (s.removeCommit t id)
    rw [List.foldl_cons]
    constructor
    · rw [hfragments, removeCommit, tree_write_self]
    · intro i
      rw [hcommits i, removeCommit, tree_write_self, Std.ExtTreeMap.getElem?_erase]
      by_cases hi : i = id
      · simp [hi]
      · simp [hi, Ne.symm hi]

@[simp]
theorem fragments_prune (codec : Codec B) (s : SnapshotStorage B) (t : TreeId) :
    ((s.prune codec t).1.tree t).fragments = (s.tree t).fragments :=
  (tree_foldl_removeCommit s t (s.doomed codec t)).1

theorem getElem?_commits_prune (codec : Codec B) (s : SnapshotStorage B) (t : TreeId)
    (i : CommitId) : ((s.prune codec t).1.tree t).commits[i]? =
      if i ∈ s.doomed codec t then none else (s.tree t).commits[i]? :=
  (tree_foldl_removeCommit s t (s.doomed codec t)).2 i

/-- Pruning one tree leaves the others as they are. -/
theorem tree_prune_of_ne (codec : Codec B) (s : SnapshotStorage B) {t t' : TreeId} (h : t' ≠ t) :
    (s.prune codec t).1.tree t' = s.tree t' := by
  have hfold (ids : List CommitId) (s : SnapshotStorage B) :
      (ids.foldl (fun s id => s.removeCommit t id) s).tree t' = s.tree t' := by
    induction ids generalizing s with
    | nil => rfl
    | cons id ids ih => rw [List.foldl_cons, ih, removeCommit, tree_write_of_ne _ _ _ h]
  exact hfold _ s

/-! ## Forgetting -/

@[simp]
theorem tree_forgetTree_self (s : SnapshotStorage B) (t : TreeId) :
    (s.forgetTree t).tree t = {} := by
  simp [forgetTree, tree, Std.ExtTreeMap.getD_erase_self]

theorem tree_forgetTree_of_ne (s : SnapshotStorage B) {t t' : TreeId} (h : t' ≠ t) :
    (s.forgetTree t).tree t' = s.tree t' := by
  simp [forgetTree, tree, Std.ExtTreeMap.getD_erase, Ne.symm h]

end Polyvisor.SnapshotStorage
