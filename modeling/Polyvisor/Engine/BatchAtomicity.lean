import Polyvisor.Engine.Admission
import Polyvisor.Lib.Batch

/-!
# Batches that fail part-way

`persist_items` of `engine/src/storage.rs` checks an item, stores it, journals it, and looks at
the next. Its sibling `restore` collects what it accepts before it changes anything.

## Main results

* `persistItems_eq`: the batch as two runs of one loop.
* `persistItems_allOrNothing_iff`: for which batches an error leaves nothing behind and an answer
  leaves every item stored.
-/

namespace Polyvisor.SnapshotStorage

open Batch

variable {B : Type} {codec : Codec B} {t : TreeId} {s s' : SnapshotStorage B}
  {commits : List (Signed LooseCommit × B)} {fragments : List (Signed Fragment × B)}

/-! ## What a caller takes the call to do -/

/-- The journal record of one commit, if it decodes. -/
def commitRecord (t : TreeId) (item : Signed LooseCommit × B) : Option (StorageMutation B) :=
  item.1.payload.map fun payload => .put ⟨t, payload.head, item.1.bytes, item.2, .commit⟩

/-- The journal record of one fragment, if it decodes. -/
def fragmentRecord (t : TreeId) (item : Signed Fragment × B) : Option (StorageMutation B) :=
  item.1.payload.map fun payload => .put ⟨t, payload.head, item.1.bytes, item.2, .fragment⟩

/-- Every item of the batch is counted, stored under its head, and journalled once. -/
structure StoredAll (t : TreeId) (commits : List (Signed LooseCommit × B))
    (fragments : List (Signed Fragment × B)) (s s' : SnapshotStorage B) (stored : ℕ) : Prop where
  count : stored = commits.length + fragments.length
  held : ∀ item ∈ commits, ∃ payload, item.1.payload = some payload ∧
    (s'.tree t).commits[payload.head]? = some item
  heldFragment : ∀ item ∈ fragments, ∃ payload, item.1.payload = some payload ∧
    (s'.tree t).fragments[payload.head]? = some item
  /-- The new records are the batch's, item for item. -/
  pending : ∃ records, s'.pending = s.pending ++ records ∧
    records.map some = commits.map (commitRecord t) ++ fragments.map (fragmentRecord t)

/-- An error left every tree and the journal alone, and an answer stored the batch. -/
def AllOrNothing (t : TreeId) (commits : List (Signed LooseCommit × B))
    (fragments : List (Signed Fragment × B)) (s : SnapshotStorage B) :
    SnapshotStorage B × Except StorageFailure ℕ → Prop
  | (s', .error _) => (∀ t', s'.tree t' = s.tree t') ∧ s'.pending = s.pending
  | (s', .ok stored) => StoredAll t commits fragments s s' stored

/-! ## What a batch has to be -/

/-- A commit that passes every check. -/
def TakesCommit (codec : Codec B) (s : SnapshotStorage B) (t : TreeId)
    (item : Signed LooseCommit × B) : Prop :=
  ∃ payload, s.sharedAuthorized t item.1 ∧ item.1.payload = some payload ∧
    payload.sedimentreeId = t ∧ payload.blobMeta = codec.blobMeta item.2 ∧
    (t.firstByte = sharedTreeTag → scopedCiphertext codec t payload item.2) ∧
    (Opaque.isOpaqueTree t → Opaque.mode s.lifecycle t = some .callerEncrypted →
      validRawCommit codec t payload item.2)

/-- A fragment that passes every check. -/
def TakesFragment (s : SnapshotStorage B) (t : TreeId) (item : Signed Fragment × B) : Prop :=
  !isSharedNamespace t ∧ s.sharedAuthorized t item.1 ∧ item.1.payload.isSome

/-- The tree refuses the batch before it looks at an item. -/
def TurnedAway (s : SnapshotStorage B) (t : TreeId) (fragments : List (Signed Fragment × B)) :
    Prop :=
  Opaque.isOpaqueTree t ∧ (Opaque.status s.lifecycle t ≠ some true ∨ fragments ≠ [])

/-- The first item looked at does not pass. -/
def FirstRefused (codec : Codec B) (s : SnapshotStorage B) (t : TreeId)
    (commits : List (Signed LooseCommit × B)) (fragments : List (Signed Fragment × B)) : Prop :=
  (∃ item ∈ commits.head?, ¬ TakesCommit codec s t item) ∨
    commits = [] ∧ ∃ item ∈ fragments.head?, ¬ TakesFragment s t item

/-- No two items of one kind name the same head, other than as one item given twice. -/
structure HeadsApart (commits : List (Signed LooseCommit × B))
    (fragments : List (Signed Fragment × B)) : Prop where
  commits : ∀ item ∈ commits, ∀ item' ∈ commits, ∀ payload payload',
    item.1.payload = some payload → item'.1.payload = some payload' →
      payload.head = payload'.head → item = item'
  fragments : ∀ item ∈ fragments, ∀ item' ∈ fragments, ∀ payload payload',
    item.1.payload = some payload → item'.1.payload = some payload' →
      payload.head = payload'.head → item = item'

/-- Every item passes, and none takes another's place. -/
structure TakesAll (codec : Codec B) (s : SnapshotStorage B) (t : TreeId)
    (commits : List (Signed LooseCommit × B)) (fragments : List (Signed Fragment × B)) : Prop where
  takes : ∀ item ∈ commits, TakesCommit codec s t item
  takesFragment : ∀ item ∈ fragments, TakesFragment s t item
  apart : HeadsApart commits fragments

theorem takesCommit_iff {item : Signed LooseCommit × B} :
    TakesCommit codec s t item ↔ (s.admitCommit codec t item.1 item.2).isSome := by
  rw [Option.isSome_iff_exists, TakesCommit]
  exact exists_congr fun payload => admitCommit_eq_some.symm

theorem takesFragment_iff {item : Signed Fragment × B} :
    TakesFragment s t item ↔ (s.admitFragment t item.1).isSome := by
  rw [Option.isSome_iff_exists, TakesFragment]
  simp only [admitFragment_eq_some, Option.isSome_iff_exists, exists_and_left]

/-! ## The two loops -/

/-- The commits a batch stores, with their payloads. -/
abbrev storedCommits (codec : Codec B) (s : SnapshotStorage B) (t : TreeId)
    (commits : List (Signed LooseCommit × B)) : List (LooseCommit × Signed LooseCommit × B) :=
  accepted (fun item => s.admitCommit codec t item.1 item.2) commits

/-- The fragments a batch stores, with their payloads. -/
abbrev storedFragments (s : SnapshotStorage B) (t : TreeId)
    (fragments : List (Signed Fragment × B)) : List (Fragment × Signed Fragment × B) :=
  accepted (fun item => s.admitFragment t item.1) fragments

/-- File commits under their heads, one after another. -/
def fileCommits (t : TreeId) (s : SnapshotStorage B)
    (entries : List (LooseCommit × Signed LooseCommit × B)) : SnapshotStorage B :=
  entries.foldl (fun s p => s.insertCommit t p.1.head p.2) s

/-- File fragments under their heads, one after another. -/
def fileFragments (t : TreeId) (s : SnapshotStorage B)
    (entries : List (Fragment × Signed Fragment × B)) : SnapshotStorage B :=
  entries.foldl (fun s p => s.insertFragment t p.1.head p.2) s

theorem persistCommits_eq (hshared : s'.shared = s.shared) (hlifecycle : s'.lifecycle = s.lifecycle)
    (stored : ℕ) : persistCommits codec t s' commits stored =
      storeEach (fun item => s.admitCommit codec t item.1 item.2)
        (fun s payload item => s.insertCommit t payload.head item) .permanent s' commits
        stored := by
  induction commits generalizing s' stored with
  | nil => rfl
  | cons item rest ih =>
    obtain ⟨signed, blob⟩ := item
    rw [persistCommits, storeEach, admitCommit_congr hshared hlifecycle]
    rcases s.admitCommit codec t signed blob with _ | payload
    · rfl
    · -- storing a commit moves neither the authorities nor the registers
      have hshared' : (s'.insertCommit t payload.head (signed, blob)).shared = s.shared := hshared
      have hlifecycle' : (s'.insertCommit t payload.head (signed, blob)).lifecycle = s.lifecycle :=
        hlifecycle
      exact ih hshared' hlifecycle' (stored + 1)

theorem persistFragments_eq (hshared : s'.shared = s.shared) (stored : ℕ) :
    persistFragments t s' fragments stored =
      storeEach (fun item => s.admitFragment t item.1)
        (fun s payload item => s.insertFragment t payload.head item) .permanent s' fragments
        stored := by
  induction fragments generalizing s' stored with
  | nil => rfl
  | cons item rest ih =>
    obtain ⟨signed, blob⟩ := item
    rw [persistFragments, storeEach, admitFragment_congr hshared]
    rcases s.admitFragment t signed with _ | payload
    · rfl
    · have hshared' : (s'.insertFragment t payload.head (signed, blob)).shared = s.shared := hshared
      exact ih hshared' (stored + 1)

theorem shared_fileCommits (s : SnapshotStorage B)
    (entries : List (LooseCommit × Signed LooseCommit × B)) :
    (fileCommits t s entries).shared = s.shared := by
  induction entries generalizing s with
  | nil => rfl
  | cons p entries ih => exact ih (s.insertCommit t p.1.head p.2)

/-- What filing commits changes: their tree's commits and the pending list. -/
theorem fileCommits_spec (s : SnapshotStorage B)
    (entries : List (LooseCommit × Signed LooseCommit × B)) :
    ((fileCommits t s entries).tree t).commits =
        filed (s.tree t).commits (entries.map fun p => (p.1.head, p.2)) ∧
      ((fileCommits t s entries).tree t).fragments = (s.tree t).fragments ∧
      (fileCommits t s entries).pending = s.pending ++
        entries.map fun p => .put ⟨t, p.1.head, p.2.1.bytes, p.2.2, .commit⟩ := by
  induction entries generalizing s with
  | nil => exact ⟨rfl, rfl, (List.append_nil _).symm⟩
  | cons p entries ih =>
    obtain ⟨hcommits, hfragments, hpending⟩ := ih (s.insertCommit t p.1.head p.2)
    rw [commits_insertCommit] at hcommits
    rw [fragments_insertCommit] at hfragments
    refine ⟨hcommits, hfragments, hpending.trans ?_⟩
    show (s.pending ++ [_]) ++ _ = _
    rw [List.append_assoc]
    rfl

/-- What filing fragments changes: their tree's fragments and the pending list. -/
theorem fileFragments_spec (s : SnapshotStorage B)
    (entries : List (Fragment × Signed Fragment × B)) :
    ((fileFragments t s entries).tree t).fragments =
        filed (s.tree t).fragments (entries.map fun p => (p.1.head, p.2)) ∧
      ((fileFragments t s entries).tree t).commits = (s.tree t).commits ∧
      (fileFragments t s entries).pending = s.pending ++
        entries.map fun p => .put ⟨t, p.1.head, p.2.1.bytes, p.2.2, .fragment⟩ := by
  induction entries generalizing s with
  | nil => exact ⟨rfl, rfl, (List.append_nil _).symm⟩
  | cons p entries ih =>
    obtain ⟨hfragments, hcommits, hpending⟩ := ih (s.insertFragment t p.1.head p.2)
    rw [fragments_insertFragment] at hfragments
    rw [commits_insertFragment] at hcommits
    refine ⟨hfragments, hcommits, hpending.trans ?_⟩
    show (s.pending ++ [_]) ++ _ = _
    rw [List.append_assoc]
    rfl

/-! ## The call -/

theorem persistItems_of_turnedAway (codec : Codec B)
    (commits : List (Signed LooseCommit × B)) (h : TurnedAway s t fragments) :
    ∃ e, s.persistItems codec t commits fragments = (s, .error e) := by
  obtain ⟨htree, hwhy⟩ := h
  rw [persistItems]
  by_cases hstatus : Opaque.status s.lifecycle t ≠ some true
  · exact ⟨_, if_pos ⟨htree, hstatus⟩⟩
  · have hfragments : fragments ≠ [] := hwhy.resolve_left hstatus
    rw [if_neg fun h => hstatus h.2, if_pos ⟨htree, by simpa using hfragments⟩]
    exact ⟨_, rfl⟩

/-- A batch the tree looks at stores its commits up to the first refused one, and only if there
was none its fragments. -/
theorem persistItems_eq (codec : Codec B)
    (commits : List (Signed LooseCommit × B)) (h : ¬ TurnedAway s t fragments) :
    s.persistItems codec t commits fragments =
      if ∀ item ∈ commits, (s.admitCommit codec t item.1 item.2).isSome then
        (fileFragments t (fileCommits t (s.ensureTree t) (storedCommits codec s t commits))
          (storedFragments s t fragments),
          if ∀ item ∈ fragments, (s.admitFragment t item.1).isSome then
            .ok (commits.length + fragments.length)
          else .error .permanent)
      else
        (fileCommits t (s.ensureTree t) (storedCommits codec s t commits), .error .permanent) := by
  have hcurrent : ¬ (Opaque.isOpaqueTree t ∧ Opaque.status s.lifecycle t ≠ some true) :=
    fun hstop => h ⟨hstop.1, .inl hstop.2⟩
  have hplain : ¬ (Opaque.isOpaqueTree t ∧ !fragments.isEmpty) :=
    fun hstop => h ⟨hstop.1, .inr (by simpa using hstop.2)⟩
  have hloop : persistCommits codec t (s.ensureTree t) commits 0 =
      (fileCommits t (s.ensureTree t) (storedCommits codec s t commits),
        if ∀ item ∈ commits, (s.admitCommit codec t item.1 item.2).isSome then
          .ok (0 + commits.length)
        else .error .permanent) := by
    have hsame : (s.ensureTree t).shared = s.shared := rfl
    rw [persistCommits_eq hsame rfl]
    exact Prod.ext (storeEach_fst _ _ _ _) (storeEach_snd _ _ _ _)
  rw [persistItems, if_neg hcurrent, if_neg hplain, hloop]
  by_cases hcommits : ∀ item ∈ commits, (s.admitCommit codec t item.1 item.2).isSome
  · have hsame : (fileCommits t (s.ensureTree t) (storedCommits codec s t commits)).shared =
        s.shared := shared_fileCommits _ _
    simp only [if_pos hcommits]
    rw [persistFragments_eq hsame]
    refine Prod.ext (storeEach_fst _ _ _ _) ((storeEach_snd _ _ _ _).trans ?_)
    rw [Nat.zero_add]
  · simp only [if_neg hcommits]

/-- What the journal holds after a batch the tree looks at. -/
theorem pending_persistItems (codec : Codec B)
    (commits : List (Signed LooseCommit × B)) (h : ¬ TurnedAway s t fragments) :
    (s.persistItems codec t commits fragments).1.pending = s.pending ++
      ((storedCommits codec s t commits).map
          fun p => .put ⟨t, p.1.head, p.2.1.bytes, p.2.2, .commit⟩) ++
      if ∀ item ∈ commits, (s.admitCommit codec t item.1 item.2).isSome then
        (storedFragments s t fragments).map
          fun p => .put ⟨t, p.1.head, p.2.1.bytes, p.2.2, .fragment⟩
      else [] := by
  rw [persistItems_eq codec commits h]
  have hcommitted :=
    (fileCommits_spec (t := t) (s.ensureTree t) (storedCommits codec s t commits)).2.2
  split
  · rw [(fileFragments_spec _ _).2.2, hcommitted]
    rfl
  · rw [hcommitted, List.append_nil]
    rfl

/-! ## Which batches are all or nothing -/

theorem AllOrNothing.of_error {r : SnapshotStorage B × Except StorageFailure ℕ}
    (h : AllOrNothing t commits fragments s r) {e : StorageFailure} (herror : r.2 = .error e) :
    r.1.pending = s.pending := by
  obtain ⟨s', _ | _⟩ := r
  · exact h.2
  · simp at herror

theorem AllOrNothing.of_ok {r : SnapshotStorage B × Except StorageFailure ℕ} {stored : ℕ}
    (h : AllOrNothing t commits fragments s r) (hok : r.2 = .ok stored) :
    StoredAll t commits fragments s r.1 stored := by
  obtain ⟨s', _ | stored'⟩ := r
  · simp at hok
  · obtain rfl : stored' = stored := by simpa using hok
    exact h

/-- A batch that is stored whole has no two items under one head. -/
theorem StoredAll.headsApart {stored : ℕ} (h : StoredAll t commits fragments s s' stored) :
    HeadsApart commits fragments where
  commits item hitem item' hitem' payload payload' hpayload hpayload' hhead := by
    obtain ⟨decoded, hdecoded, hheld⟩ := h.held item hitem
    obtain ⟨decoded', hdecoded', hheld'⟩ := h.held item' hitem'
    rw [Option.some.inj (hdecoded.symm.trans hpayload), hhead] at hheld
    rw [Option.some.inj (hdecoded'.symm.trans hpayload')] at hheld'
    exact Option.some.inj (hheld.symm.trans hheld')
  fragments item hitem item' hitem' payload payload' hpayload hpayload' hhead := by
    obtain ⟨decoded, hdecoded, hheld⟩ := h.heldFragment item hitem
    obtain ⟨decoded', hdecoded', hheld'⟩ := h.heldFragment item' hitem'
    rw [Option.some.inj (hdecoded.symm.trans hpayload), hhead] at hheld
    rw [Option.some.inj (hdecoded'.symm.trans hpayload')] at hheld'
    exact Option.some.inj (hheld.symm.trans hheld')

/-- A batch whose first item passes leaves a record, whatever becomes of the rest. -/
theorem pending_ne_of_first (h : ¬ TurnedAway s t fragments)
    (hfirst : ¬ FirstRefused codec s t commits fragments)
    (hnonempty : commits ≠ [] ∨ fragments ≠ []) :
    (s.persistItems codec t commits fragments).1.pending ≠ s.pending := by
  intro hsame
  rw [pending_persistItems codec commits h, List.append_assoc, List.append_right_eq_self,
    List.append_eq_nil_iff, List.map_eq_nil_iff, accepted_eq_nil_iff] at hsame
  obtain ⟨hcommits, hfragments⟩ := hsame
  -- no commit was stored, so there is none: a first one would have been refused
  have hnil : commits = [] := by
    rcases hcons : commits with _ | ⟨item, rest⟩
    · rfl
    refine absurd (.inl ⟨item, by simp [hcons], ?_⟩) hfirst
    rw [takesCommit_iff, hcommits item (by simp [hcons])]
    simp
  subst hnil
  rw [if_pos (by simp), List.map_eq_nil_iff, accepted_eq_nil_iff] at hfragments
  rcases hcons : fragments with _ | ⟨item, rest⟩
  · simp [hcons] at hnonempty
  refine hfirst (.inr ⟨rfl, item, by simp [hcons], ?_⟩)
  rw [takesFragment_iff, hfragments item (by simp [hcons])]
  simp

/-- A batch whose first item is refused changes nothing. -/
theorem persistItems_of_firstRefused (h : ¬ TurnedAway s t fragments)
    (hfirst : FirstRefused codec s t commits fragments) :
    s.persistItems codec t commits fragments = (s.ensureTree t, .error .permanent) := by
  rw [persistItems_eq codec commits h]
  rcases hfirst with ⟨item, hitem, hrefused⟩ | ⟨rfl, item, hitem, hrefused⟩
  · rw [takesCommit_iff, Option.not_isSome_iff_eq_none] at hrefused
    have hmem : item ∈ commits := List.mem_of_head? hitem
    have hnone : storedCommits codec s t commits = [] := accepted_eq_nil_iff.2 fun a ha => by
      rw [Option.mem_unique ha hitem]
      exact hrefused
    rw [if_neg fun hall => by simpa [hrefused] using hall item hmem, hnone]
    rfl
  · rw [takesFragment_iff, Option.not_isSome_iff_eq_none] at hrefused
    have hmem : item ∈ fragments := List.mem_of_head? hitem
    have hnone : storedFragments s t fragments = [] := accepted_eq_nil_iff.2 fun a ha => by
      rw [Option.mem_unique ha hitem]
      exact hrefused
    rw [if_pos (by simp), if_neg fun hall => by simpa [hrefused] using hall item hmem, hnone]
    rfl

theorem commits_apart (h : HeadsApart commits fragments) :
    Apart ((storedCommits codec s t commits).map fun p => (p.1.head, p.2)) := by
  intro p hp q hq hhead
  obtain ⟨⟨payload, item⟩, hmem, rfl⟩ := List.mem_map.1 hp
  obtain ⟨⟨payload', item'⟩, hmem', rfl⟩ := List.mem_map.1 hq
  obtain ⟨hadmitted, hitem⟩ := of_mem_accepted hmem
  obtain ⟨hadmitted', hitem'⟩ := of_mem_accepted hmem'
  exact h.commits item hitem item' hitem' payload payload' (payload_of_admitCommit hadmitted)
    (payload_of_admitCommit hadmitted') hhead

theorem fragments_apart (h : HeadsApart commits fragments) :
    Apart ((storedFragments s t fragments).map fun p => (p.1.head, p.2)) := by
  intro p hp q hq hhead
  obtain ⟨⟨payload, item⟩, hmem, rfl⟩ := List.mem_map.1 hp
  obtain ⟨⟨payload', item'⟩, hmem', rfl⟩ := List.mem_map.1 hq
  obtain ⟨hadmitted, hitem⟩ := of_mem_accepted hmem
  obtain ⟨hadmitted', hitem'⟩ := of_mem_accepted hmem'
  exact h.fragments item hitem item' hitem' payload payload' (payload_of_admitFragment hadmitted)
    (payload_of_admitFragment hadmitted') hhead

/-- A batch that passes whole, with no two items under one head, is stored whole. -/
theorem storedAll_of_takesAll (h : ¬ TurnedAway s t fragments)
    (hall : TakesAll codec s t commits fragments) :
    ∃ s', s.persistItems codec t commits fragments = (s', .ok (commits.length + fragments.length)) ∧
      StoredAll t commits fragments s s' (commits.length + fragments.length) := by
  have hcommits : ∀ item ∈ commits, (s.admitCommit codec t item.1 item.2).isSome :=
    fun item hitem => takesCommit_iff.1 (hall.takes item hitem)
  have hfragments : ∀ item ∈ fragments, (s.admitFragment t item.1).isSome :=
    fun item hitem => takesFragment_iff.1 (hall.takesFragment item hitem)
  have hrun := persistItems_eq codec commits h
  rw [if_pos hcommits, if_pos hfragments] at hrun
  have hpending := pending_persistItems codec commits h
  rw [if_pos hcommits, hrun, List.append_assoc] at hpending
  have hcommitted := fileCommits_spec (t := t) (s.ensureTree t) (storedCommits codec s t commits)
  have hfragmented := fileFragments_spec (t := t)
    (fileCommits t (s.ensureTree t) (storedCommits codec s t commits))
    (storedFragments s t fragments)
  refine ⟨_, hrun, rfl, fun item hitem => ?_, fun item hitem => ?_, _, hpending, ?_⟩
  · obtain ⟨payload, hadmitted, hmem⟩ := mem_accepted hcommits hitem
    refine ⟨payload, payload_of_admitCommit hadmitted, ?_⟩
    rw [hfragmented.2.1, hcommitted.1]
    exact getElem?_filed (commits_apart hall.apart) (List.mem_map_of_mem hmem)
  · obtain ⟨payload, hadmitted, hmem⟩ := mem_accepted hfragments hitem
    refine ⟨payload, payload_of_admitFragment hadmitted, ?_⟩
    rw [hfragmented.1]
    exact getElem?_filed (fragments_apart hall.apart) (List.mem_map_of_mem hmem)
  · -- the stored items are the batch, and each record is that of its item
    have hcommit : ∀ p ∈ storedCommits codec s t commits, commitRecord t p.2 =
        some (.put ⟨t, p.1.head, p.2.1.bytes, p.2.2, .commit⟩) := fun p hp => by
      rw [commitRecord, payload_of_admitCommit (of_mem_accepted hp).1, Option.map_some]
    have hfragment : ∀ p ∈ storedFragments s t fragments, fragmentRecord t p.2 =
        some (.put ⟨t, p.1.head, p.2.1.bytes, p.2.2, .fragment⟩) := fun p hp => by
      rw [fragmentRecord, payload_of_admitFragment (of_mem_accepted hp).1, Option.map_some]
    have hbatch := map_accepted hcommits
    have hbatch' := map_accepted hfragments
    calc (_ ++ _ : List (StorageMutation B)).map some
        = (storedCommits codec s t commits).map (fun p => commitRecord t p.2) ++
            (storedFragments s t fragments).map (fun p => fragmentRecord t p.2) := by
          rw [List.map_append, List.map_map, List.map_map, List.map_congr_left hcommit,
            List.map_congr_left hfragment]
          rfl
      _ = commits.map (commitRecord t) ++ fragments.map (fragmentRecord t) := by
          conv_rhs => rw [← hbatch, ← hbatch', List.map_map, List.map_map]
          rfl

/-- `persist_items` is all or nothing exactly for the batches its tree turns away, those whose
first item is refused, and those that pass whole with no two items under one head. -/
theorem persistItems_allOrNothing_iff (codec : Codec B) (s : SnapshotStorage B) (t : TreeId)
    (commits : List (Signed LooseCommit × B)) (fragments : List (Signed Fragment × B)) :
    AllOrNothing t commits fragments s (s.persistItems codec t commits fragments) ↔
      TurnedAway s t fragments ∨ FirstRefused codec s t commits fragments ∨
        TakesAll codec s t commits fragments := by
  by_cases haway : TurnedAway s t fragments
  · obtain ⟨e, hrun⟩ := persistItems_of_turnedAway codec commits haway
    refine iff_of_true ?_ (.inl haway)
    rw [hrun]
    exact ⟨fun _ => rfl, rfl⟩
  by_cases hfirst : FirstRefused codec s t commits fragments
  · refine iff_of_true ?_ (.inr (.inl hfirst))
    rw [persistItems_of_firstRefused haway hfirst]
    exact ⟨fun t' => tree_ensureTree s t t', rfl⟩
  constructor
  · intro h
    refine .inr (.inr ?_)
    have hrun := persistItems_eq codec commits haway
    by_cases hcommits : ∀ item ∈ commits, (s.admitCommit codec t item.1 item.2).isSome
    · by_cases hfragments : ∀ item ∈ fragments, (s.admitFragment t item.1).isSome
      · rw [if_pos hcommits, if_pos hfragments] at hrun
        have hstored := h.of_ok (congrArg Prod.snd hrun)
        exact ⟨fun item hitem => takesCommit_iff.2 (hcommits item hitem),
          fun item hitem => takesFragment_iff.2 (hfragments item hitem), hstored.headsApart⟩
      · rw [if_pos hcommits, if_neg hfragments] at hrun
        have hsame := h.of_error (congrArg Prod.snd hrun)
        have hnonempty : fragments ≠ [] := fun hnil => hfragments (by simp [hnil])
        exact absurd hsame (pending_ne_of_first haway hfirst (.inr hnonempty))
    · rw [if_neg hcommits] at hrun
      have hsame := h.of_error (congrArg Prod.snd hrun)
      have hnonempty : commits ≠ [] := fun hnil => hcommits (by simp [hnil])
      exact absurd hsame (pending_ne_of_first haway hfirst (.inl hnonempty))
  · rintro (h | h | hall)
    · exact absurd h haway
    · exact absurd h hfirst
    · obtain ⟨s', hrun, hstored⟩ := storedAll_of_takesAll haway hall
      rw [hrun]
      exact hstored

/-! ## A batch that stops at its second commit -/

/-- A blob's digest is its length. -/
def lengthCodec : Codec Bytes where
  blobMeta blob := ⟨0, blob.length⟩
  ciphertextRefs _ := none
  sharedCref _ _ := 0
  hashRefs _ := 0
  itemId _ _ _ := 0
  decodeCommit _ := none
  decodeFragment _ := none
  minimize _ commits := commits

/-- Two commits of one tree; the second was signed for another blob than the one it comes with. -/
def tornBatch : List (Signed LooseCommit × Bytes) :=
  [(⟨7, [1], some ⟨20, 1, [], ⟨0, 1⟩⟩⟩, [5]), (⟨7, [2], some ⟨20, 2, [], ⟨0, 3⟩⟩⟩, [5])]

/-- The call fails, and the first commit is stored and in the journal. -/
theorem persistItems_keeps_first :
    ¬ AllOrNothing 20 tornBatch [] {} (persistItems lengthCodec {} 20 tornBatch []) ∧
      (persistItems lengthCodec {} 20 tornBatch []).2 = .error .permanent ∧
      (persistItems lengthCodec {} 20 tornBatch []).1.pending =
        [.put ⟨20, 1, [1], [5], .commit⟩] := by
  have hlooked : ¬ TurnedAway (B := Bytes) {} 20 [] := by
    rintro ⟨htree, -⟩
    revert htree
    decide
  have hrefused : ¬ ∀ item ∈ tornBatch,
      (admitCommit lengthCodec {} 20 item.1 item.2).isSome := by
    decide
  have herror : (persistItems lengthCodec {} 20 tornBatch []).2 = .error .permanent := by
    rw [persistItems_eq _ _ hlooked, if_neg hrefused]
  have hpending : (persistItems lengthCodec {} 20 tornBatch []).1.pending =
      [.put ⟨20, 1, [1], [5], .commit⟩] := by
    rw [pending_persistItems _ _ hlooked, if_neg hrefused]
    decide
  refine ⟨fun h => ?_, herror, hpending⟩
  have hsame := h.of_error herror
  rw [hpending] at hsame
  simp at hsame

end Polyvisor.SnapshotStorage
