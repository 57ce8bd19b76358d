import Polyvisor.Engine.Admission
import Polyvisor.Engine.Snapshot
import Polyvisor.Lib.Transition
import Mathlib.Data.Finset.Lattice.Lemmas

/-!
# Publishing keyhive's operations

The vault's `published` set (`engine/src/vault.rs`) against what the keyhive-events tree holds:
`unpublished`, which marks each event as it collects it, `publish_keyhive`, which stores what was
collected afterwards, and `ingest`, which marks whatever it is handed.

## Main results

* `unpublished_eq`: what one call returns and which events it marks.
* `pending_publish_iff`, `pending_adopt_iff`: when one call of `publish_keyhive`, and when adopting
  a group, leaves no event behind.
* `pending_run`: the same over every run.
-/

namespace Polyvisor.AuthorityPublication

variable {E : Type}

/-- keyhive's static events, as far as the vault handles them. -/
structure Keyhive (E : Type) where
  /-- `digest`: the id an event travels under. -/
  digest : E → Cref
  /-- `bincode::serialize(&vec![event])`, where it succeeds. -/
  encode : E → Bytes
  /-- `bincode::deserialize::<Vec<StaticEvent<Cref>>>`. -/
  decode : Bytes → Option (List E)
  /-- `ingest_unsorted_static_events`: the events keyhive knows once it was handed some more. -/
  merge : List E → List E → List E

/-! ## The vault -/

/-- `Vault`: its keyhive's operations and the digests it takes to be published. -/
structure Vault (E : Type) where
  /-- The operations of every agent, in the order keyhive lists them. -/
  ops : List E
  /-- `published`. -/
  published : Finset Cref

namespace Vault

/-- The loop of `all_events`: an operation several agents list is pushed once. -/
def push (kh : Keyhive E) : Finset Cref → List E → List E
  | _, [] => []
  | seen, event :: rest =>
    if kh.digest event ∈ seen then push kh seen rest
    else event :: push kh (insert (kh.digest event) seen) rest

/-- `all_events`. -/
def allEvents (kh : Keyhive E) (v : Vault E) : List E :=
  push kh ∅ v.ops

/-- `unseen`. -/
def unseen (v : Vault E) (commit : Cref) : Bool :=
  commit ∉ v.published

/-- `ingest`: every event is marked, then keyhive is handed all of them. -/
def ingest (kh : Keyhive E) (v : Vault E) (bytes : Bytes) : Option (Vault E) :=
  (kh.decode bytes).map fun events =>
    { ops := kh.merge v.ops events
      published := v.published ∪ (events.map kh.digest).toFinset }

/-- The loop of `unpublished`: an event is marked before the next is serialised. `refusal` is the
serialiser's error on an event it does not take. -/
def collect (kh : Keyhive E) (refusal : E → Option String) (published : Finset Cref) :
    List E → Finset Cref × Except String (List (Cref × Bytes))
  | [] => (published, .ok [])
  | event :: rest =>
    if kh.digest event ∈ published then collect kh refusal published rest
    else
      match refusal event with
      | some text => (published, .error ("event: " ++ text))
      | none =>
        let (published, out) := collect kh refusal (insert (kh.digest event) published) rest
        (published, out.map ((kh.digest event, kh.encode event) :: ·))

/-- `unpublished`. -/
def unpublished (kh : Keyhive E) (refusal : E → Option String) (v : Vault E) :
    Vault E × Except String (List (Cref × Bytes)) :=
  let (published, out) := collect kh refusal v.published (v.allEvents kh)
  ({ v with published }, out)

/-- The events of a list that are not marked. -/
def unmarked (kh : Keyhive E) (published : Finset Cref) (events : List E) : List E :=
  events.filter fun event => kh.digest event ∉ published

/-- The events the vault knows and has not marked. -/
def fresh (kh : Keyhive E) (v : Vault E) : List E :=
  unmarked kh v.published (v.allEvents kh)

end Vault

/-! ## The device -/

/-- A device: its vault and its item storage. -/
structure Device (E : Type) where
  /-- The keyhive. -/
  vault : Vault E
  /-- The stored items. -/
  storage : SnapshotStorage Bytes

/-- What the world makes of one call of `publish_keyhive`. -/
structure Attempt (E : Type) where
  /-- Whether the events were read; a call dropped at its first wait has not read them. -/
  read : Except String Unit
  /-- The serialiser's errors. -/
  refusal : E → Option String
  /-- What `add_commits` answered. -/
  added : Except String Unit
  /-- What the barrier, `tree_heads`, answered. -/
  barrier : Except String Unit
  /-- Which commits the storage took of a call that failed at either. -/
  kept : List Cref

namespace Attempt

/-- Whether the driver took the commits and the barrier came back. -/
def stored (a : Attempt E) : Bool :=
  a.added.isOk && a.barrier.isOk

/-- The commits that reach the storage: all of them once the barrier came back. -/
def taken (a : Attempt E) (commits : List (Cref × Bytes)) : List (Cref × Bytes) :=
  if a.stored then commits else commits.filter fun commit => commit.1 ∈ a.kept

end Attempt

namespace Device

variable (sha : Sha256) (kh : Keyhive E) (sign : Cref → Bytes → Signed LooseCommit)

/-- Whether the storage holds the commit an event travels under. -/
def holds (s : Device E) (id : Cref) : Bool :=
  s.storage.holds (keyhiveTree sha) id

/-- The driver files commits in the keyhive-events tree, signed with the device's key. -/
def store (storage : SnapshotStorage Bytes) (commits : List (Cref × Bytes)) :
    SnapshotStorage Bytes :=
  commits.foldl (fun storage (id, blob) =>
    storage.insertCommit (keyhiveTree sha) id (sign id blob, blob)) storage

/-- `publish_keyhive`. -/
def publishKeyhive (s : Device E) (a : Attempt E) : Device E × Except String Unit :=
  match a.read with
  | .error e => (s, .error e)
  | .ok () =>
    match s.vault.unpublished kh a.refusal with
    | (vault, .error e) => ({ s with vault }, .error e)
    | (vault, .ok []) => ({ s with vault }, .ok ())
    | (vault, .ok (commit :: commits)) =>
      ({ vault, storage := store sha sign s.storage (a.taken (commit :: commits)) },
        a.added.bind fun () => a.barrier)

/-- One turn of the loop of `absorb_keyhive`: a commit whose event is unseen is ingested. -/
def absorbCommit (vault : Vault E) (commit : CommitId × Bytes) : Vault E :=
  if vault.unseen commit.1 then (vault.ingest kh commit.2).getD vault else vault

/-- The loop of `absorb_keyhive`, over the commits the tree holds when it begins. -/
def absorbKeyhive (s : Device E) : Device E :=
  { s with
    vault := (s.storage.commitBlobs (keyhiveTree sha)).foldl (absorbCommit kh) s.vault }

/-- What happens to a vault and its storage. -/
inductive Label (E : Type) where
  /-- keyhive's operations become these: this device changed a membership or a key. -/
  | operate (ops : List E)
  /-- A session stores commits of other devices in the keyhive-events tree. -/
  | arrive (commits : List (Signed LooseCommit × Bytes))
  /-- `absorb_keyhive`. -/
  | absorb
  /-- `adopt` ingests the op stream of an ENROLL frame. -/
  | adopt (events : Bytes)
  /-- `restore`: the archive's operations, and nothing marked. -/
  | restore (ops : List E)
  /-- `publish_keyhive`. -/
  | publish (attempt : Attempt E)

/-- One step of a device. -/
def step (codec : Codec Bytes) (s : Device E) : Label E → Device E
  | .operate ops => { s with vault := { s.vault with ops } }
  | .arrive commits =>
    { s with storage := (s.storage.persistItems codec (keyhiveTree sha) commits []).1 }
  | .absorb => s.absorbKeyhive sha kh
  | .adopt events => { s with vault := (s.vault.ingest kh events).getD s.vault }
  | .restore ops => { s with vault := ⟨ops, ∅⟩ }
  | .publish attempt => (s.publishKeyhive sha kh sign attempt).1

/-- Nothing is lost: what the vault knows is in the tree or comes with the next call of
`unpublished`, and what it takes to be published is in the tree. -/
structure Pending (s : Device E) : Prop where
  known : ∀ event ∈ s.vault.allEvents kh, s.holds sha (kh.digest event) ∨
    ∃ out, (s.vault.unpublished kh fun _ => none).2 = .ok out ∧
      (kh.digest event, kh.encode event) ∈ out
  published : ∀ id ∈ s.vault.published, s.holds sha id

/-- The events a call of `unpublished` marks: the unmarked ones before the first that the
serialiser refuses. -/
def marked (s : Device E) (a : Attempt E) : List E :=
  (s.vault.fresh kh).takeWhile fun event => (a.refusal event).isNone

/-- A call that marks an event only if the tree holds it already or comes to hold it: the call
does not get past reading, or no event is refused and the commits are stored, or each event it
marks is one the tree held before, or one that the storage took of a call that failed later. -/
def Delivers (s : Device E) (a : Attempt E) : Prop :=
  a.read.isOk → ∀ event ∈ s.marked kh a, s.holds sha (kh.digest event) ∨
    (∀ event ∈ s.vault.fresh kh, a.refusal event = none) ∧
      (a.stored ∨ kh.digest event ∈ a.kept)

/-- Bytes that carry no event the tree does not hold. -/
def Carried (s : Device E) (bytes : Bytes) : Prop :=
  ∀ events, kh.decode bytes = some events → ∀ event ∈ events, s.holds sha (kh.digest event)

/-- The condition on one step: a call of `publish_keyhive` delivers, and what is ingested is in
the tree, each event under its own digest. -/
def Keeps (s : Device E) : Label E → Prop
  | .publish attempt => s.Delivers sha kh attempt
  | .absorb => ∀ id blob, (id, blob) ∈ s.storage.commitBlobs (keyhiveTree sha) →
      s.vault.unseen id → s.Carried sha kh blob
  | .adopt events => s.Carried sha kh events
  | _ => True

end Device

/-! ## What one call marks -/

section Collect

variable {kh : Keyhive E} {refusal : E → Option String} {published seen : Finset Cref}
  {l : List E}

/-- `all_events` lists no digest twice. -/
theorem nodup_push (kh : Keyhive E) (seen : Finset Cref) (l : List E) :
    ((Vault.push kh seen l).map kh.digest).Nodup ∧
      ∀ event ∈ Vault.push kh seen l, kh.digest event ∉ seen := by
  induction l generalizing seen with
  | nil => simp [Vault.push]
  | cons event rest ih =>
    rw [Vault.push]
    split_ifs with hseen
    · exact ih seen
    · obtain ⟨hnodup, hnew⟩ := ih (insert (kh.digest event) seen)
      refine ⟨?_, ?_⟩
      · rw [List.map_cons, List.nodup_cons]
        refine ⟨fun hmem => ?_, hnodup⟩
        obtain ⟨later, hlater, heq⟩ := List.mem_map.1 hmem
        exact hnew later hlater (heq ▸ Finset.mem_insert_self _ _)
      · rintro other (_ | ⟨_, hother⟩)
        · exact hseen
        · exact fun h => hnew other hother (Finset.mem_insert_of_mem h)

theorem nodup_allEvents (kh : Keyhive E) (v : Vault E) :
    ((v.allEvents kh).map kh.digest).Nodup :=
  (nodup_push kh ∅ v.ops).1

theorem unmarked_cons_of_mem {event : E} (h : kh.digest event ∈ published) (rest : List E) :
    Vault.unmarked kh published (event :: rest) = Vault.unmarked kh published rest := by
  simp [Vault.unmarked, h]

theorem unmarked_cons_of_not_mem {event : E} (h : kh.digest event ∉ published) (rest : List E) :
    Vault.unmarked kh published (event :: rest) = event :: Vault.unmarked kh published rest := by
  simp [Vault.unmarked, h]

/-- Marking an event does not mark those with other digests. -/
theorem unmarked_insert {event : E} (h : kh.digest event ∉ l.map kh.digest) :
    Vault.unmarked kh (insert (kh.digest event) published) l = Vault.unmarked kh published l := by
  refine List.filter_congr fun other hother => ?_
  have hne : kh.digest other ≠ kh.digest event := fun heq => h (heq ▸ List.mem_map_of_mem hother)
  simp [hne]

/-- The loop of `unpublished` over events with different digests: it marks the unmarked events
before the first refused one, and returns the unmarked events if none is refused. -/
theorem collect_eq (h : (l.map kh.digest).Nodup) : Vault.collect kh refusal published l =
    (published ∪ (((Vault.unmarked kh published l).takeWhile
        fun event => (refusal event).isNone).map kh.digest).toFinset,
      match (Vault.unmarked kh published l).findSome? refusal with
      | some text => .error ("event: " ++ text)
      | none => .ok ((Vault.unmarked kh published l).map
          fun event => (kh.digest event, kh.encode event))) := by
  induction l generalizing published with
  | nil => simp [Vault.collect, Vault.unmarked]
  | cons event rest ih =>
    rw [List.map_cons, List.nodup_cons] at h
    obtain ⟨hnew, hrest⟩ := h
    by_cases hmarked : kh.digest event ∈ published
    · rw [Vault.collect, if_pos hmarked, ih hrest, unmarked_cons_of_mem hmarked]
    rw [Vault.collect, if_neg hmarked, unmarked_cons_of_not_mem hmarked]
    rcases hrefusal : refusal event with _ | text
    · simp only [ih hrest, unmarked_insert hnew, List.takeWhile_cons, List.findSome?_cons, hrefusal,
        Option.isNone_none, if_true, List.map_cons, List.toFinset_cons, Finset.insert_union,
        Finset.union_insert]
      rcases (Vault.unmarked kh published rest).findSome? refusal with _ | text
      · rfl
      · rfl
    · simp [hrefusal]

end Collect

/-! ## One call -/

variable {sha : Sha256} {kh : Keyhive E} {sign : Cref → Bytes → Signed LooseCommit}
  {codec : Codec Bytes} {s : Device E}

/-- What one call of `unpublished` marks and returns. -/
theorem unpublished_eq (kh : Keyhive E) (refusal : E → Option String) (v : Vault E) :
    v.unpublished kh refusal =
      ({ v with published := v.published ∪ (((v.fresh kh).takeWhile
          fun event => (refusal event).isNone).map kh.digest).toFinset },
        match (v.fresh kh).findSome? refusal with
        | some text => .error ("event: " ++ text)
        | none => .ok ((v.fresh kh).map fun event => (kh.digest event, kh.encode event))) := by
  rw [Vault.unpublished, collect_eq (nodup_allEvents kh v)]
  rfl

theorem holds_store {storage : SnapshotStorage Bytes} {commits : List (Cref × Bytes)} {id : Cref} :
    (Device.store sha sign storage commits).holds (keyhiveTree sha) id ↔
      storage.holds (keyhiveTree sha) id ∨ id ∈ commits.map Prod.fst := by
  induction commits generalizing storage with
  | nil => simp [Device.store]
  | cons commit rest ih =>
    have hone : (storage.insertCommit (keyhiveTree sha) commit.1
        (sign commit.1 commit.2, commit.2)).holds (keyhiveTree sha) id ↔
          id = commit.1 ∨ storage.holds (keyhiveTree sha) id := by
      rw [SnapshotStorage.holds, SnapshotStorage.commits_insertCommit,
        Std.ExtTreeMap.contains_iff_mem, Std.ExtTreeMap.mem_insert,
        Std.LawfulEqOrd.compare_eq_iff_eq, SnapshotStorage.holds, Std.ExtTreeMap.contains_iff_mem]
      exact or_congr_left eq_comm
    refine Iff.trans ih ?_
    rw [hone, List.map_cons, List.mem_cons]
    tauto

/-- What the vault knows is never lost once what it takes to be published is in the tree: an
event that is not marked comes with the next call. -/
theorem pending_iff : s.Pending sha kh ↔ ∀ id ∈ s.vault.published, s.holds sha id := by
  constructor
  · intro h
    exact h.published
  · intro h
    refine ⟨fun event hevent => ?_, h⟩
    by_cases hmarked : kh.digest event ∈ s.vault.published
    · exact .inl (h _ hmarked)
    · have hfresh : event ∈ s.vault.fresh kh := by
        simpa [Vault.fresh, Vault.unmarked] using ⟨hevent, hmarked⟩
      refine .inr ⟨(s.vault.fresh kh).map fun event => (kh.digest event, kh.encode event), ?_, ?_⟩
      · have hnone : (s.vault.fresh kh).findSome? (fun _ => (none : Option String)) = none :=
          List.findSome?_eq_none_iff.2 fun _ _ => rfl
        rw [unpublished_eq, hnone]
      · exact List.mem_map.2 ⟨event, hfresh, rfl⟩

/-- A call of `publish_keyhive` that gets past reading, and what it leaves: the events before the
first refused one are marked, and the tree has grown by what the storage took. -/
theorem publishKeyhive_fst {a : Attempt E} (hread : a.read.isOk) :
    (s.publishKeyhive sha kh sign a).1 =
      { vault := { s.vault with published := s.vault.published ∪
          ((s.marked kh a).map kh.digest).toFinset }
        storage := if ∀ event ∈ s.vault.fresh kh, a.refusal event = none then
          Device.store sha sign s.storage
            (a.taken ((s.vault.fresh kh).map fun event => (kh.digest event, kh.encode event)))
        else s.storage } := by
  rcases hanswer : a.read with e | ⟨⟩
  · rw [hanswer] at hread
    exact absurd hread Bool.false_ne_true
  rw [Device.publishKeyhive, hanswer, unpublished_eq]
  rcases hrefused : (s.vault.fresh kh).findSome? a.refusal with _ | text
  · rw [List.findSome?_eq_none_iff] at hrefused
    rw [if_pos hrefused]
    rcases hcommits : (s.vault.fresh kh).map fun event => (kh.digest event, kh.encode event)
      with _ | ⟨commit, commits⟩
    · have hnone : a.taken [] = [] := by simp [Attempt.taken]
      rw [hnone]
      rfl
    · rfl
  · rw [if_neg fun hall => by simp [List.findSome?_eq_none_iff.2 hall] at hrefused]
    rfl

theorem mem_taken {a : Attempt E} {commits : List (Cref × Bytes)} {id : Cref}
    (h : id ∈ commits.map Prod.fst) :
    id ∈ (a.taken commits).map Prod.fst ↔ a.stored ∨ id ∈ a.kept := by
  rw [Attempt.taken]
  split_ifs with hstored
  · exact iff_of_true h (.inl hstored)
  · simp only [hstored, Bool.false_eq_true, false_or, List.mem_map, List.mem_filter,
      decide_eq_true_eq] at h ⊢
    constructor
    · rintro ⟨commit, ⟨-, hkept⟩, rfl⟩
      exact hkept
    · intro hkept
      obtain ⟨commit, hcommit, rfl⟩ := h
      exact ⟨commit, ⟨hcommit, hkept⟩, rfl⟩

theorem mem_fresh_of_marked {a : Attempt E} {event : E} (h : event ∈ s.marked kh a) :
    event ∈ s.vault.fresh kh :=
  (List.takeWhile_sublist _).mem h

/-- A call of `publish_keyhive` leaves nothing behind exactly if it delivers what it marks. -/
theorem pending_publish_iff (h : s.Pending sha kh) (a : Attempt E) :
    (s.step sha kh sign codec (.publish a)).Pending sha kh ↔ s.Delivers sha kh a := by
  rcases hread : a.read.isOk with _ | _
  · -- nothing was read, nothing is marked
    have hsame : s.step sha kh sign codec (.publish a) = s := by
      rcases hanswer : a.read with e | ⟨⟩
      · rw [Device.step, Device.publishKeyhive, hanswer]
      · rw [hanswer] at hread
        exact absurd hread.symm Bool.false_ne_true
    rw [hsame]
    refine iff_of_true h fun hok => ?_
    rw [hread] at hok
    exact absurd hok Bool.false_ne_true
  have hholds (event : E) (hmarked : event ∈ s.marked kh a) :
      (s.step sha kh sign codec (.publish a)).holds sha (kh.digest event) ↔
        s.holds sha (kh.digest event) ∨
          (∀ event ∈ s.vault.fresh kh, a.refusal event = none) ∧
            (a.stored ∨ kh.digest event ∈ a.kept) := by
    rw [Device.step, publishKeyhive_fst hread, Device.holds]
    split_ifs with hall
    · have hid : kh.digest event ∈ ((s.vault.fresh kh).map
          fun event => (kh.digest event, kh.encode event)).map Prod.fst := by
        rw [List.map_map]
        exact List.mem_map_of_mem (mem_fresh_of_marked hmarked)
      rw [holds_store, mem_taken hid, and_iff_right hall]
      rfl
    · simp [hall, Device.holds]
  have hgrows (id : Cref) (hid : s.holds sha id) :
      (s.step sha kh sign codec (.publish a)).holds sha id := by
    rw [Device.step, publishKeyhive_fst hread, Device.holds]
    split_ifs
    · exact holds_store.2 (.inl hid)
    · exact hid
  have hpublished : (s.step sha kh sign codec (.publish a)).vault.published =
      s.vault.published ∪ ((s.marked kh a).map kh.digest).toFinset := by
    rw [Device.step, publishKeyhive_fst hread]
  rw [pending_iff, hpublished]
  constructor
  · intro hafter _ event hmarked
    refine (hholds event hmarked).1 (hafter _ ?_)
    simpa using .inr ⟨event, hmarked, rfl⟩
  · intro hdelivers id hid
    rcases Finset.mem_union.1 hid with hold | hnew
    · exact hgrows id (h.published id hold)
    · obtain ⟨event, hmarked, rfl⟩ : ∃ event ∈ s.marked kh a, kh.digest event = id := by
        simpa using hnew
      exact (hholds event hmarked).2 (hdelivers hread event hmarked)

/-! ## Every run -/

/-- Marking events that the tree holds keeps nothing back. -/
theorem ingest_published {v v' : Vault E} {bytes : Bytes} (h : v.ingest kh bytes = some v')
    (hcarried : s.Carried sha kh bytes) (hv : ∀ id ∈ v.published, s.holds sha id) :
    v.published ⊆ v'.published ∧ ∀ id ∈ v'.published, s.holds sha id := by
  obtain ⟨events, hdecode, rfl⟩ := Option.map_eq_some_iff.1 h
  refine ⟨Finset.subset_union_left, fun id hid => ?_⟩
  rcases Finset.mem_union.1 hid with hold | hnew
  · exact hv id hold
  · obtain ⟨event, hevent, rfl⟩ : ∃ event ∈ events, kh.digest event = id := by simpa using hnew
    exact hcarried events hdecode event hevent

/-- Absorbing marks only what the tree holds, if each commit carries such events only. -/
theorem absorb_published {blobs : List (CommitId × Bytes)} {v : Vault E}
    (hcarried : ∀ id blob, (id, blob) ∈ blobs → v.unseen id → s.Carried sha kh blob)
    (hv : ∀ id ∈ v.published, s.holds sha id) :
    ∀ id ∈ (blobs.foldl (Device.absorbCommit kh) v).published, s.holds sha id := by
  induction blobs generalizing v with
  | nil => exact hv
  | cons commit rest ih =>
    obtain ⟨id, blob⟩ := commit
    rw [List.foldl_cons, Device.absorbCommit]
    have hrest : ∀ id blob, (id, blob) ∈ rest → v.unseen id → s.Carried sha kh blob :=
      fun id blob hmem => hcarried id blob (List.mem_cons_of_mem _ hmem)
    split_ifs with hunseen
    · rcases hingest : v.ingest kh blob with _ | v'
      · exact ih hrest hv
      · -- the vault has marked more, so fewer commits of the rest are unseen
        obtain ⟨hmore, hv'⟩ := ingest_published hingest
          (hcarried id blob List.mem_cons_self hunseen) hv
        refine ih (fun other blob hmem hother => hrest other blob hmem ?_) hv'
        simp only [Vault.unseen, decide_eq_true_eq] at hother ⊢
        exact fun h => hother (hmore h)
    · exact ih hrest hv

/-- Adopting a group leaves nothing behind exactly if the tree holds every event of the frame. -/
theorem pending_adopt_iff (h : s.Pending sha kh) (events : Bytes) :
    (s.step sha kh sign codec (.adopt events)).Pending sha kh ↔ s.Carried sha kh events := by
  rw [pending_iff] at h ⊢
  rw [Device.step]
  constructor
  · intro hafter decoded hdecode event hevent
    have hmarked : kh.digest event ∈ ((s.vault.ingest kh events).getD s.vault).published := by
      rw [Vault.ingest, hdecode, Option.map_some, Option.getD_some]
      exact Finset.mem_union_right _ (by simpa using ⟨event, hevent, rfl⟩)
    exact hafter _ hmarked
  · intro hcarried
    rcases hingest : s.vault.ingest kh events with _ | v'
    · exact h
    · exact (ingest_published hingest hcarried h).2

/-- A step that meets its condition leaves nothing behind. -/
theorem pending_step (l : Device.Label E) (hkeeps : s.Keeps sha kh l) (h : s.Pending sha kh) :
    (s.step sha kh sign codec l).Pending sha kh := by
  rw [pending_iff] at h
  rcases l with ops | commits | _ | events | ops | attempt
  · exact pending_iff.2 h
  · -- a batch removes nothing from the tree
    have hgrows := (SnapshotStorage.received_persistItems codec s.storage (keyhiveTree sha) commits
      []).mem_commits
    refine pending_iff.2 fun id hid => ?_
    have hheld : id ∈ (s.storage.tree (keyhiveTree sha)).commits :=
      Std.ExtTreeMap.mem_iff_contains.2 (h id hid)
    exact Std.ExtTreeMap.mem_iff_contains.1 (hgrows id hheld)
  · exact pending_iff.2 (absorb_published hkeeps h)
  · exact (pending_adopt_iff (pending_iff.2 h) events).2 hkeeps
  · refine pending_iff.2 fun id hid => ?_
    exact absurd hid (Finset.notMem_empty id)
  · exact (pending_publish_iff (pending_iff.2 h) attempt).2 hkeeps

/-- From a vault as it is created or restored, in every run whose calls of `publish_keyhive`
deliver what they mark, and which ingests only what the tree holds, no event is lost. -/
theorem pending_run (sha : Sha256) (kh : Keyhive E) (sign : Cref → Bytes → Signed LooseCommit)
    (codec : Codec Bytes) (ops : List E) (storage : SnapshotStorage Bytes)
    (ls : List (Device.Label E))
    (h : Transition.Meets (Device.step sha kh sign codec) (Device.Keeps sha kh)
      ⟨⟨ops, ∅⟩, storage⟩ ls) :
    Transition.Throughout (Device.step sha kh sign codec) (Device.Pending sha kh)
      ⟨⟨ops, ∅⟩, storage⟩ ls := by
  have hstart : Device.Pending sha kh ⟨⟨ops, ∅⟩, storage⟩ :=
    pending_iff.2 fun id hid => absurd hid (Finset.notMem_empty id)
  exact Transition.throughout_of_meets (fun s l hkeeps hs => pending_step l hkeeps hs) h hstart

/-! ## A write that succeeds and one that fails -/

/-- Events are numbers; an event travels as itself. -/
def countingKeyhive : Keyhive ℕ where
  digest n := BitVec.ofNat 256 n
  encode n := [UInt8.ofNat n]
  decode bytes := some (bytes.map (·.toNat))
  merge known events := known ++ events

/-- A codec for a storage that takes every commit it is given. -/
def plainCodec : Codec Bytes where
  blobMeta _ := ⟨0, 0⟩
  ciphertextRefs _ := none
  sharedCref _ id := id
  hashRefs _ := 0
  itemId _ _ _ := 0
  decodeCommit _ := none
  decodeFragment _ := none
  minimize _ commits := commits

def noSign (_ : Cref) (_ : Bytes) : Signed LooseCommit := ⟨0, [], none⟩

/-- Nothing fails. -/
def quietAttempt : Attempt ℕ where
  read := .ok ()
  refusal _ := none
  added := .ok ()
  barrier := .ok ()
  kept := []

/-- `add_commits` fails and the storage takes nothing. -/
def failedAttempt : Attempt ℕ :=
  { quietAttempt with added := .error "driver stopped" }

/-- A device that stores its event, learns of another and stores that. -/
theorem pending_run_quiet :
    Transition.Throughout (Device.step (fun _ => 5) countingKeyhive noSign plainCodec)
      (Device.Pending (fun _ => 5) countingKeyhive) ⟨⟨[3], ∅⟩, {}⟩
      [.publish quietAttempt, .operate [3, 4], .publish quietAttempt] := by
  have hdelivers (s : Device ℕ) : s.Delivers (fun _ => 5) countingKeyhive quietAttempt :=
    fun _ _ _ => .inr ⟨fun _ _ => rfl, .inl rfl⟩
  exact pending_run (fun _ => 5) countingKeyhive noSign plainCodec [3] {} _
    ⟨hdelivers _, trivial, hdelivers _, trivial⟩

/-- A device that knows one event and whose only call of `publish_keyhive` fails to store it. -/
def lostRun : Device ℕ :=
  Transition.run (Device.step (fun _ => 5) countingKeyhive noSign plainCodec) ⟨⟨[3], ∅⟩, {}⟩
    [.publish failedAttempt]

/-- The event is marked as published, the tree does not hold it, and no later call returns it. -/
theorem failed_publication_is_lost :
    ¬ Device.Pending (fun _ => 5) countingKeyhive lostRun ∧
      (lostRun.vault.unpublished countingKeyhive fun _ => none).2 = .ok [] ∧
      lostRun.holds (fun _ => 5) 3 = false := by
  have hmarked : (3 : Cref) ∈ lostRun.vault.published := by decide
  have hlost : lostRun.holds (fun _ => 5) 3 = false := by decide
  refine ⟨fun h => ?_, by decide, hlost⟩
  have hheld := h.published 3 hmarked
  rw [hlost] at hheld
  exact Bool.false_ne_true hheld

end Polyvisor.AuthorityPublication
