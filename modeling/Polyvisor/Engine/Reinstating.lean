import Polyvisor.Engine.Replay

/-!
# What an engine built on a snapshot holds

`Engine::new` of `engine/src/lib.rs` as the list of its writes: each part of a snapshot puts what
`restore` accepts of its items, under the registers that the `us` document comes to. Outside the
opaque trees the registers do not matter.

## Main results

* `contents_new`: the engine holds what its writes come to.
* `tree_restore_congr`: what restoring makes of a tree depends on that tree alone.
-/

open Std

namespace Polyvisor.Replay

variable {B V Us : Type}

/-! ## What is reinstated -/

/-- What `restore` writes under these registers. -/
def reinstated (codec : Codec B) (lifecycle : LifecycleState) (t : TreeId)
    (commits fragments : List (Item B)) : List (StorageMutation B) :=
  if Opaque.isOpaqueTree t ∧ (Opaque.status lifecycle t ≠ some true ∨ !fragments.isEmpty) then []
  else puts codec { lifecycle } t commits fragments

theorem writes_reinstated (codec : Codec B) (s : SnapshotStorage B) (t : TreeId)
    (commits fragments : List (Item B)) : SnapshotStorage.Writes s
      (s.restore codec t commits fragments) (reinstated codec s.lifecycle t commits fragments) := by
  by_cases hclosed : Opaque.isOpaqueTree t ∧
      (Opaque.status s.lifecycle t ≠ some true ∨ !fragments.isEmpty)
  · rw [reinstated, if_pos hclosed, SnapshotStorage.restore, if_pos hclosed]
    exact .refl s
  · rw [reinstated, if_neg hclosed]
    refine writes_restore fun hopq => ?_
    have hopen := fun hcase => hclosed ⟨hopq, hcase⟩
    refine ⟨not_not.1 fun hstatus => hopen (.inl hstatus), ?_⟩
    by_contra hne
    exact hopen (.inr (by simpa [List.isEmpty_iff] using hne))

theorem reinstated_nil (codec : Codec B) (lifecycle : LifecycleState) (t : TreeId) :
    reinstated codec lifecycle t [] [] = [] := by
  rw [reinstated]
  split_ifs
  · rfl
  · rfl

/-- Only items of the tree are put. -/
theorem put_of_mem_reinstated {codec : Codec B} {lifecycle : LifecycleState} {t : TreeId}
    {commits fragments : List (Item B)} {m : StorageMutation B}
    (hm : m ∈ reinstated codec lifecycle t commits fragments) :
    ∃ item, m = .put item ∧ item.tree = t := by
  rw [reinstated] at hm
  split_ifs at hm
  · exact nomatch hm
  · rcases List.mem_append.1 hm with hm | hm
    · obtain ⟨entry, -, rfl⟩ := List.mem_map.1 hm
      exact ⟨_, rfl, rfl⟩
    · obtain ⟨entry, -, rfl⟩ := List.mem_map.1 hm
      exact ⟨_, rfl, rfl⟩

/-- Outside the opaque trees the registers do not matter: what decodes is reinstated. -/
theorem reinstated_eq_nil {codec : Codec B} {lifecycle : LifecycleState} {t : TreeId}
    (hplain : Opaque.isOpaqueTree t = false) {commits fragments : List (Item B)} :
    reinstated codec lifecycle t commits fragments = [] ↔
      ({} : SnapshotStorage B).acceptedCommits codec t commits = [] ∧
        SnapshotStorage.acceptedFragments codec fragments = [] := by
  have hopen : ¬ (Opaque.isOpaqueTree t ∧
      (Opaque.status lifecycle t ≠ some true ∨ !fragments.isEmpty)) := by
    rw [hplain]
    exact fun h => Bool.noConfusion h.1
  have haccepted : ({ lifecycle } : SnapshotStorage B).acceptedCommits codec t commits =
      ({} : SnapshotStorage B).acceptedCommits codec t commits := by
    simp only [SnapshotStorage.acceptedCommits, hplain, Bool.false_eq_true, false_implies]
  rw [reinstated, if_neg hopen, puts, haccepted, List.append_eq_nil_iff, List.map_eq_nil_iff,
    List.map_eq_nil_iff]

theorem reinstated_congr {codec : Codec B} {t : TreeId} (hplain : Opaque.isOpaqueTree t = false)
    (lifecycle lifecycle' : LifecycleState) (commits fragments : List (Item B)) :
    reinstated codec lifecycle t commits fragments =
      reinstated codec lifecycle' t commits fragments := by
  have hopen : ∀ P : Prop, ¬ (Opaque.isOpaqueTree t ∧ P) := fun P h => by
    rw [hplain] at h
    exact Bool.noConfusion h.1
  rw [reinstated, reinstated, if_neg (hopen _), if_neg (hopen _)]
  simp only [puts, SnapshotStorage.acceptedCommits, hplain, Bool.false_eq_true, false_implies]

/-! ## What `Engine::new` reinstates -/

/-- Restoring writes `ms`, and leaves the registers. -/
structure Moves (r r' : Restoring B) (ms : List (StorageMutation B)) : Prop where
  writes : SnapshotStorage.Writes r.storage r'.storage ms
  lifecycle : r'.storage.lifecycle = r.storage.lifecycle

theorem Moves.refl (r : Restoring B) : Moves r r [] :=
  ⟨.refl _, rfl⟩

theorem Moves.trans {r r' r'' : Restoring B} {ms ms' : List (StorageMutation B)}
    (h : Moves r r' ms) (h' : Moves r' r'' ms') : Moves r r'' (ms ++ ms') :=
  ⟨h.writes.trans h'.writes, h'.lifecycle.trans h.lifecycle⟩

theorem moves_foldl {α : Type} {f : Restoring B → α → Restoring B}
    {m : LifecycleState → α → List (StorageMutation B)}
    (hf : ∀ r a, Moves r (f r a) (m r.storage.lifecycle a)) (l : List α) (r : Restoring B) :
    Moves r (l.foldl f r) (l.flatMap (m r.storage.lifecycle)) := by
  induction l generalizing r with
  | nil => exact .refl r
  | cons a l ih =>
    have hrest := ih (f r a)
    rw [(hf r a).lifecycle] at hrest
    exact (hf r a).trans hrest

variable (sha : Sha256) (codec : Codec B)

theorem moves_restoreTree (r : Restoring B) (t : TreeId) (commits fragments : List (Item B)) :
    Moves r (r.restoreTree codec t commits fragments)
      (reinstated codec r.storage.lifecycle t commits fragments) :=
  ⟨writes_reinstated codec r.storage t commits fragments,
    SnapshotStorage.lifecycle_restore codec r.storage t commits fragments⟩

/-- The writes for an app. -/
def appPuts (lifecycle : LifecycleState) (app : AppState B) : List (StorageMutation B) :=
  reinstated codec lifecycle (documentTree sha app.app) app.state.commits app.state.fragments ++
    reinstated codec lifecycle (sharedAuthorityTree sha app.app) app.authority []

theorem moves_restoreApp (r : Restoring B) (app : AppState B) :
    Moves r (r.restoreApp sha codec app) (appPuts sha codec r.storage.lifecycle app) := by
  have hcontent := moves_restoreTree codec r (documentTree sha app.app) app.state.commits
    app.state.fragments
  rcases hauthority : app.authority with - | ⟨item, rest⟩
  · rw [appPuts, hauthority, reinstated_nil, List.append_nil]
    simpa only [Restoring.restoreApp, hauthority, List.isEmpty_nil, if_true] using hcontent
  · have hboth := hcontent.trans (moves_restoreTree codec _ (sharedAuthorityTree sha app.app)
      app.authority [])
    rw [hcontent.lifecycle] at hboth
    rw [appPuts]
    have hne : app.authority.isEmpty = false := by rw [hauthority]; rfl
    simpa only [Restoring.restoreApp, hne, Bool.false_eq_true, if_false] using hboth

/-- The writes for a tree state under a fixed tree. -/
def statePuts (t : TreeId) (lifecycle : LifecycleState) :
    Option (TreeState B) → List (StorageMutation B)
  | none => []
  | some state => reinstated codec lifecycle t state.commits state.fragments

theorem moves_restoreState (t : TreeId) (r : Restoring B) (state : Option (TreeState B)) :
    Moves r (Restoring.restoreState codec t r state)
      (statePuts codec t r.storage.lifecycle state) := by
  rcases state with - | state
  · exact .refl r
  · exact moves_restoreTree codec r t state.commits state.fragments

/-- The writes for an opaque tree. -/
def opaquePuts (lifecycle : LifecycleState) (state : OpaqueState B) : List (StorageMutation B) :=
  if Opaque.status lifecycle state.tree = some true then
    reinstated codec lifecycle state.tree state.commits []
  else []

theorem moves_restoreOpaque (r : Restoring B) (state : OpaqueState B) :
    Moves r (r.restoreOpaque codec state) (opaquePuts codec r.storage.lifecycle state) := by
  by_cases hcurrent : Opaque.status r.storage.lifecycle state.tree = some true
  · rw [Restoring.restoreOpaque, opaquePuts, if_pos hcurrent, if_pos hcurrent]
    exact moves_restoreTree codec r state.tree state.commits []
  · rw [Restoring.restoreOpaque, opaquePuts, if_neg hcurrent, if_neg hcurrent]
    exact .refl r

/-- The writes for a tree that no document is bound to. -/
def unboundPuts (lifecycle : LifecycleState) (state : UnboundState B) :
    List (StorageMutation B) :=
  reinstated codec lifecycle state.tree state.commits state.fragments

/-- The writes before the registers are known. -/
def controlPuts (snapshot : Snapshot B V) : List (StorageMutation B) :=
  snapshot.apps.flatMap (appPuts sha codec {}) ++ statePuts codec (usTree sha) {} snapshot.us

/-- The writes under the registers. -/
def contentPuts (lifecycle : LifecycleState) (snapshot : Snapshot B V) :
    List (StorageMutation B) :=
  snapshot.opaques.flatMap (opaquePuts codec lifecycle) ++
    snapshot.unbound.flatMap (unboundPuts codec lifecycle) ++
      statePuts codec (keyhiveTree sha) lifecycle snapshot.keyhive

theorem moves_control (snapshot : Snapshot B V) :
    Moves {} (Restoring.control sha codec snapshot) (controlPuts sha codec snapshot) := by
  have happs : Moves {} (snapshot.apps.foldl (Restoring.restoreApp sha codec) {})
      (snapshot.apps.flatMap (appPuts sha codec {})) :=
    moves_foldl (moves_restoreApp sha codec) snapshot.apps {}
  have hus := moves_restoreState codec (usTree sha)
    (snapshot.apps.foldl (Restoring.restoreApp sha codec) {}) snapshot.us
  rw [happs.lifecycle] at hus
  exact happs.trans hus

theorem moves_content (r : Restoring B) (registers : ExtTreeMap SlotHash RegisterValue)
    (snapshot : Snapshot B V) : Moves (r.setRegisters registers)
      (r.content sha codec registers snapshot)
      (contentPuts sha codec { r.storage.lifecycle with registers } snapshot) := by
  have hopaques := moves_foldl (moves_restoreOpaque codec) snapshot.opaques
    (r.setRegisters registers)
  have hunbound := moves_foldl (f := Restoring.restoreUnbound codec) (m := unboundPuts codec)
    (fun r state => moves_restoreTree codec r state.tree state.commits state.fragments)
    snapshot.unbound (snapshot.opaques.foldl (Restoring.restoreOpaque codec)
      (r.setRegisters registers))
  rw [hopaques.lifecycle] at hunbound
  have hkeyhive := moves_restoreState codec (keyhiveTree sha)
    (snapshot.unbound.foldl (Restoring.restoreUnbound codec)
      (snapshot.opaques.foldl (Restoring.restoreOpaque codec) (r.setRegisters registers)))
    snapshot.keyhive
  rw [hunbound.lifecycle, hopaques.lifecycle] at hkeyhive
  exact (hopaques.trans hunbound).trans hkeyhive

/-- The registers that `Engine::new` comes to. -/
def restoredRegisters (docs : UsDocs B Us) (snapshot : Snapshot B V) :
    ExtTreeMap SlotHash RegisterValue :=
  ((Engine.restoredUs sha docs (Restoring.control sha codec snapshot).storage snapshot.us).map
    docs.opaqueRegisters).getD ∅

theorem contents_empty : ({} : SnapshotStorage B).contents = fun _ => none := by
  funext ⟨t, id, kind⟩
  cases kind <;> simp [SnapshotStorage.contents, SnapshotStorage.tree, SnapshotStorage.treeItem]

/-- What an engine holds that is built on a snapshot. -/
theorem contents_new (docs : UsDocs B Us) (snapshot : Snapshot B V) :
    (Engine.new sha codec docs (some snapshot)).storage.contents =
      replay (controlPuts sha codec snapshot ++
        contentPuts sha codec { registers := restoredRegisters sha codec docs snapshot } snapshot)
          fun _ => none := by
  have hcontrol := moves_control sha codec snapshot
  have hcontent := moves_content sha codec (Restoring.control sha codec snapshot)
    (restoredRegisters sha codec docs snapshot) snapshot
  rw [hcontrol.lifecycle] at hcontent
  rw [replay_append, ← contents_empty]
  have hbefore : ((Restoring.control sha codec snapshot).setRegisters
      (restoredRegisters sha codec docs snapshot)).storage.contents =
        replay (controlPuts sha codec snapshot) ({} : SnapshotStorage B).contents :=
    hcontrol.writes.contents
  rw [← hbefore]
  exact hcontent.writes.contents

/-! ## The tree of the group -/

section Trees

variable {codec}

theorem tree_restore_of_ne {s : SnapshotStorage B} {t t' : TreeId} (hne : t' ≠ t)
    (commits fragments : List (Item B)) :
    (s.restore codec t commits fragments).tree t' = s.tree t' :=
  SnapshotStorage.restore_induction (motive := fun s' => s'.tree t' = s.tree t') rfl
    (SnapshotStorage.tree_ensureTree _ _ _)
    (fun s' _ h _ _ => (SnapshotStorage.tree_write_of_ne s' _ _ hne).trans h)
    fun s' _ h _ _ => (SnapshotStorage.tree_write_of_ne s' _ _ hne).trans h

/-- What restoring makes of a tree depends on the tree alone. -/
theorem tree_restore_congr {s s' : SnapshotStorage B} {t : TreeId} (htree : s.tree t = s'.tree t)
    (hlifecycle : s.lifecycle = s'.lifecycle) (commits fragments : List (Item B)) :
    (s.restore codec t commits fragments).tree t =
      (s'.restore codec t commits fragments).tree t := by
  have hcommits : ∀ (l : List (CommitId × Signed LooseCommit × B)) (s s' : SnapshotStorage B),
      s.tree t = s'.tree t →
        (l.foldl (fun s entry => s.insertCommit t entry.1 entry.2) s).tree t =
          (l.foldl (fun s entry => s.insertCommit t entry.1 entry.2) s').tree t := by
    intro l
    induction l with
    | nil => exact fun _ _ h => h
    | cons entry l ih =>
      intro s s' h
      refine ih _ _ ?_
      simp only [SnapshotStorage.insertCommit, SnapshotStorage.tree_write_self, h]
  have hfragments : ∀ (l : List (CommitId × Signed Fragment × B)) (s s' : SnapshotStorage B),
      s.tree t = s'.tree t →
        (l.foldl (fun s entry => s.insertFragment t entry.1 entry.2) s).tree t =
          (l.foldl (fun s entry => s.insertFragment t entry.1 entry.2) s').tree t := by
    intro l
    induction l with
    | nil => exact fun _ _ h => h
    | cons entry l ih =>
      intro s s' h
      refine ih _ _ ?_
      simp only [SnapshotStorage.insertFragment, SnapshotStorage.tree_write_self, h]
  have haccepted : s.acceptedCommits codec t commits = s'.acceptedCommits codec t commits := by
    simp only [SnapshotStorage.acceptedCommits, hlifecycle]
  by_cases hclosed : Opaque.isOpaqueTree t ∧
      (Opaque.status s'.lifecycle t ≠ some true ∨ !fragments.isEmpty)
  · rw [SnapshotStorage.restore, SnapshotStorage.restore, hlifecycle, if_pos hclosed,
      if_pos hclosed, htree]
  · rw [SnapshotStorage.restore, SnapshotStorage.restore, hlifecycle, if_neg hclosed,
      if_neg hclosed]
    refine hfragments _ _ _ ?_
    rw [haccepted]
    refine hcommits _ _ _ ?_
    rw [SnapshotStorage.tree_ensureTree, SnapshotStorage.tree_ensureTree, htree]

end Trees

end Polyvisor.Replay
