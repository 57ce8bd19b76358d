import Polyvisor.Engine.ReadBack

/-!
# What pruning may drop

`prune` of `engine/src/storage.rs` on a tree of any stored items, whoever signed them. What it
decides by is signed metadata: heads, boundaries and checkpoints. What it gives up is what the
envelopes of the dropped commits carry: a change, and the keys of other items. Which commits a
fragment's metadata claims, and which claimed ones `minimize` drops, is sedimentree's.

A reader here has the keys on the frontier and whatever opens by itself, under an epoch key or
because the tree's items are not enveloped, and goes on with the keys inside what it opens. Nothing
is assumed of the items: a fragment may be sealed under a key the reader never gets, carry something
else than it claims, or name keys that open nothing.

## Main results

* `keepsHistory_iff_accounted`: what was recoverable stays so, and every dropped commit is carried
  by a fragment the reader opens, exactly if the dropped commits are accounted for.
* `prune_keepsHistory_iff`: no minimisation that drops only what is claimed loses history, exactly
  if every commit that an anchored fragment claims is accounted for.
* `unopened_fragment_drops`: a fragment sealed under another key.
-/

namespace Polyvisor.Private

open Std Frontier Relation

set_option linter.unusedSectionVars false

variable {κ C : Type} [DecidableEq κ]

/-! ## Reading a tree -/

/-- A stored item under its content reference, and the envelope in it. -/
abbrev ReadItem (κ C : Type) := (Cref × Ciphertext κ (List C)) × Envelope κ (List C)

/-- The items that open by themselves or with a key of the frontier. -/
def entries (epoch : Ciphertext κ (List C) → Bool) (heads : Heads κ)
    (items : Set (Cref × Ciphertext κ (List C))) : Set (ReadItem κ C) :=
  {i | i.1 ∈ items ∧ (epoch i.1.2 = true ∧ i.1.2.plain = .ok i.2 ∨
    ∃ k, heads[i.1.1]? = some k ∧ i.1.2.tryDecrypt k = some (.ok i.2))}

/-- The envelope of `i` carries a key that opens the item `j`. -/
def Leads (items : Set (Cref × Ciphertext κ (List C))) (i j : ReadItem κ C) : Prop :=
  j.1 ∈ items ∧ ∃ k, (j.1.1, k) ∈ i.2.ancestors ∧ j.1.2.tryDecrypt k = some (.ok j.2)

/-- The reader opens the item. -/
def OpensItem (epoch : Ciphertext κ (List C) → Bool) (heads : Heads κ)
    (items : Set (Cref × Ciphertext κ (List C))) (i : ReadItem κ C) : Prop :=
  Reach (Leads items) (entries epoch heads items) i

/-- The reader opens an item with the change in it. -/
def Recovered (epoch : Ciphertext κ (List C) → Bool) (heads : Heads κ)
    (items : Set (Cref × Ciphertext κ (List C))) (x : C) : Prop :=
  ∃ i, OpensItem epoch heads items i ∧ x ∈ i.2.plaintext

variable {epoch : Ciphertext κ (List C) → Bool} {heads : Heads κ}
  {items kept : Set (Cref × Ciphertext κ (List C))} {i j : ReadItem κ C}

theorem Leads.mono (h : Leads kept i j) (hsub : kept ⊆ items) : Leads items i j :=
  ⟨hsub h.1, h.2⟩

theorem OpensItem.mono (h : OpensItem epoch heads kept i) (hsub : kept ⊆ items) :
    OpensItem epoch heads items i :=
  Reach.mono (fun _ _ hlead => hlead.mono hsub) (fun _ hs => .of_mem ⟨hsub hs.1, hs.2⟩) h

/-- An item that opens is opened through the kept items alone, or below an item that is not
kept. -/
theorem OpensItem.inside_or (kept : Set (Cref × Ciphertext κ (List C)))
    (h : OpensItem epoch heads items i) :
    OpensItem epoch heads kept i ∨
      ∃ d, d.1 ∉ kept ∧ OpensItem epoch heads items d ∧ ReflTransGen (Leads kept) d i := by
  have hlead (a b : ReadItem κ C) (hab : Leads items a b ∧ b ∈ {i : ReadItem κ C | i.1 ∈ kept}) :
      Leads kept a b := ⟨hab.2, hab.1.2⟩
  rcases Reach.inside_or (K := {i : ReadItem κ C | i.1 ∈ kept}) h with hreach
    | ⟨d, hd, hreach, hpath⟩
  · exact .inl (Reach.mono hlead (fun s hs => .of_mem ⟨hs.2, hs.1.2⟩) hreach)
  · exact .inr ⟨d, hd, hreach, ReflTransGen.mono hlead _ _ hpath⟩

theorem OpensItem.mem (h : OpensItem epoch heads items i) : i.1 ∈ items := by
  obtain ⟨s, hs, hpath⟩ := h
  cases hpath with
  | refl => exact hs.1
  | tail _ hlead => exact hlead.1

theorem plain_of_tryDecrypt {ct : Ciphertext κ (List C)} {k : κ} {plain : Except String _}
    (h : ct.tryDecrypt k = some plain) : ct.plain = plain := by
  rw [Ciphertext.tryDecrypt] at h
  split at h
  · exact Option.some.inj h
  · cases h

/-- What is read in an opened item is what was sealed in it. -/
theorem OpensItem.plain (h : OpensItem epoch heads items i) : i.1.2.plain = .ok i.2 := by
  obtain ⟨s, hs, hpath⟩ := h
  cases hpath with
  | refl =>
    obtain ⟨-, ⟨-, hplain⟩ | ⟨k, -, hopen⟩⟩ := hs
    · exact hplain
    · exact plain_of_tryDecrypt hopen
  | tail _ hlead =>
    obtain ⟨-, k, -, hopen⟩ := hlead
    exact plain_of_tryDecrypt hopen

/-! ## One device -/

namespace Replica

variable (p : Partition κ C) (r : Replica κ C)

/-- The stored items. -/
def storedItems : Set (Cref × Ciphertext κ (List C)) :=
  {item | item ∈ r.held p}

/-- The stored items without these loose commits. -/
def itemsWithout (gone : Set CommitId) : Set (Cref × Ciphertext κ (List C)) :=
  {item | (item ∈ r.storage.commitBlobs p.tree ∧ item.1 ∉ gone) ∨
    ∃ fragment ∈ r.storage.fragmentBlobs p.tree, item = (p.fragmentCref fragment.1, fragment.2)}

/-- A loose commit that an anchored fragment claims. One that is filed under a name which none of
the decoded commits has counts as claimed. -/
def Claimed (claims : Fragment → CommitId → Bool) (id : CommitId) : Prop :=
  let (commits, fragments) := r.storage.metadata p.tree
  SnapshotStorage.anchored fragments ≠ [] ∧
    ∀ c ∈ commits, c.head = id → ∃ f ∈ SnapshotStorage.anchored fragments, claims f id

variable (epoch : Ciphertext κ (List C) → Bool)

/-- The reader opens, through these items, a stored fragment that carries the change. -/
def CarriedWithin (items : Set (Cref × Ciphertext κ (List C))) (x : C) : Prop :=
  ∃ fragment ∈ r.storage.fragmentBlobs p.tree, ∃ env,
    OpensItem epoch r.heads items ((p.fragmentCref fragment.1, fragment.2), env) ∧
      x ∈ env.plaintext

/-- Pruning loses nothing: what was recoverable still is, and a commit goes only when a stored
fragment that opens carries its change. -/
structure KeepsHistory : Prop where
  recovered : ∀ x, Recovered epoch r.heads (r.storedItems p) x →
    Recovered epoch (r.prune p).heads ((r.prune p).storedItems p) x
  carried : ∀ commit ∈ r.storage.commitBlobs p.tree,
    commit ∉ (r.prune p).storage.commitBlobs p.tree → ∀ env, commit.2.plain = .ok env →
      ∀ x ∈ env.plaintext, (r.prune p).CarriedWithin p epoch ((r.prune p).storedItems p) x

/-- What these loose commits hold is held elsewhere. -/
structure Accounted (gone : Set CommitId) : Prop where
  /-- A fragment that opens without any of them carries the change. -/
  change : ∀ commit ∈ r.storage.commitBlobs p.tree, commit.1 ∈ gone →
    ∀ env, commit.2.plain = .ok env → ∀ x ∈ env.plaintext,
      r.CarriedWithin p epoch (r.itemsWithout p gone) x
  /-- What a key in the envelope of one that opens leads to is recovered without any of them. -/
  keys : ∀ commit ∈ r.storage.commitBlobs p.tree, commit.1 ∈ gone →
    ∀ env, OpensItem epoch r.heads (r.storedItems p) (commit, env) →
      ∀ i, Leads (r.itemsWithout p gone) (commit, env) i →
        ∀ j, ReflTransGen (Leads (r.itemsWithout p gone)) i j → ∀ x ∈ j.2.plaintext,
          Recovered epoch r.heads (r.itemsWithout p gone) x

variable {p r epoch}

theorem mem_commitBlobs {id : CommitId} {blob : Ciphertext κ (List C)} {t : TreeId}
    {s : SnapshotStorage (Ciphertext κ (List C))} :
    (id, blob) ∈ s.commitBlobs t ↔ ∃ signed, (s.tree t).commits[id]? = some (signed, blob) := by
  simp only [SnapshotStorage.commitBlobs, List.mem_map, Prod.exists,
    ExtTreeMap.mem_toList_iff_getElem?_eq_some, Prod.mk.injEq]
  constructor
  · rintro ⟨_, signed, _, hget, rfl, rfl⟩
    exact ⟨signed, hget⟩
  · rintro ⟨signed, hget⟩
    exact ⟨id, signed, blob, hget, rfl, rfl⟩

theorem mem_commitBlobs_prune {commit : CommitId × Ciphertext κ (List C)} :
    commit ∈ (r.prune p).storage.commitBlobs p.tree ↔
      commit ∈ r.storage.commitBlobs p.tree ∧ commit.1 ∉ r.storage.doomed p.codec p.tree := by
  obtain ⟨id, blob⟩ := commit
  have hget : (((r.prune p).storage.tree p.tree).commits[id]?) =
      if id ∈ r.storage.doomed p.codec p.tree then none
      else (r.storage.tree p.tree).commits[id]? :=
    SnapshotStorage.getElem?_commits_prune p.codec r.storage p.tree id
  rw [mem_commitBlobs, mem_commitBlobs, hget]
  by_cases hd : id ∈ r.storage.doomed p.codec p.tree
  · simp [hd]
  · simp [hd]

theorem fragmentBlobs_prune :
    (r.prune p).storage.fragmentBlobs p.tree = r.storage.fragmentBlobs p.tree := by
  have hfragments : ((r.prune p).storage.tree p.tree).fragments =
      (r.storage.tree p.tree).fragments := SnapshotStorage.fragments_prune p.codec r.storage p.tree
  rw [SnapshotStorage.fragmentBlobs, SnapshotStorage.fragmentBlobs, hfragments]

/-- What storage holds: commits and fragments. -/
theorem mem_storedItems {item : Cref × Ciphertext κ (List C)} :
    item ∈ r.storedItems p ↔ item ∈ r.storage.commitBlobs p.tree ∨
      ∃ fragment ∈ r.storage.fragmentBlobs p.tree,
        item = (p.fragmentCref fragment.1, fragment.2) := by
  simp only [storedItems, held, Set.mem_ofPred_eq, List.mem_append, List.mem_map, eq_comm]

/-- Pruning leaves the items without the commits it drops. -/
theorem storedItems_prune : (r.prune p).storedItems p =
    r.itemsWithout p {id | id ∈ r.storage.doomed p.codec p.tree} := by
  ext item
  rw [mem_storedItems, mem_commitBlobs_prune, fragmentBlobs_prune]
  rfl

variable {gone gone' : Set CommitId}

theorem itemsWithout_subset : r.itemsWithout p gone ⊆ r.storedItems p := by
  intro item hitem
  exact mem_storedItems.2 (hitem.imp_left And.left)

theorem itemsWithout_anti (hsub : ∀ commit ∈ r.storage.commitBlobs p.tree, commit.1 ∈ gone →
    commit.1 ∈ gone') : r.itemsWithout p gone' ⊆ r.itemsWithout p gone := by
  intro item hitem
  exact hitem.imp_left fun h => ⟨h.1, fun hgone => h.2 (hsub item h.1 hgone)⟩

theorem gone_of_not_mem {item : Cref × Ciphertext κ (List C)} (h : item ∈ r.storedItems p)
    (hnot : item ∉ r.itemsWithout p gone) :
    item ∈ r.storage.commitBlobs p.tree ∧ item.1 ∈ gone := by
  rcases mem_storedItems.1 h with hcommit | hfragment
  · exact ⟨hcommit, by_contra fun hgone => hnot (.inl ⟨hcommit, hgone⟩)⟩
  · exact absurd (.inr hfragment) hnot

theorem carriedWithin_prune {x : C} :
    (r.prune p).CarriedWithin p epoch ((r.prune p).storedItems p) x ↔
      r.CarriedWithin p epoch (r.itemsWithout p {id | id ∈ r.storage.doomed p.codec p.tree}) x := by
  rw [CarriedWithin, CarriedWithin, fragmentBlobs_prune, storedItems_prune]
  rfl

theorem CarriedWithin.recovered {x : C} (h : r.CarriedWithin p epoch items x) :
    Recovered epoch r.heads items x := by
  obtain ⟨fragment, -, env, hopen, hx⟩ := h
  exact ⟨_, hopen, hx⟩

theorem CarriedWithin.mono {x : C} (h : r.CarriedWithin p epoch kept x) (hsub : kept ⊆ items) :
    r.CarriedWithin p epoch items x := by
  obtain ⟨fragment, hfragment, env, hopen, hx⟩ := h
  exact ⟨fragment, hfragment, env, hopen.mono hsub, hx⟩

/-- Without commits that are accounted for, all is recovered: what is read on a path through some of
them is read in the last of them, or below a key in its envelope. -/
theorem Accounted.recovered (h : r.Accounted p epoch gone) {x : C}
    (hx : Recovered epoch r.heads (r.storedItems p) x) :
    Recovered epoch r.heads (r.itemsWithout p gone) x := by
  obtain ⟨j, hopen, hx⟩ := hx
  rcases hopen.inside_or (r.itemsWithout p gone) with hkept | ⟨d, hd, hopen, hpath⟩
  · exact ⟨j, hkept, hx⟩
  · obtain ⟨hcommit, hgone⟩ := gone_of_not_mem hopen.mem hd
    rcases hpath.cases_head with rfl | ⟨i, hi, hpath⟩
    · exact (h.change d.1 hcommit hgone d.2 hopen.plain x hx).recovered
    · exact h.keys d.1 hcommit hgone d.2 hopen i hi j hpath x hx

/-- What a key in an opened commit leads to is read in the tree. -/
theorem recovered_below {commit : CommitId × Ciphertext κ (List C)} {env : Envelope κ (List C)}
    (hopen : OpensItem epoch r.heads (r.storedItems p) (commit, env))
    (hi : Leads (r.itemsWithout p gone) (commit, env) i)
    (hj : ReflTransGen (Leads (r.itemsWithout p gone)) i j) {x : C} (hx : x ∈ j.2.plaintext) :
    Recovered epoch r.heads (r.storedItems p) x :=
  ⟨j, (Reach.tail hopen (hi.mono itemsWithout_subset)).trans
    (ReflTransGen.mono (fun _ _ hlead => hlead.mono itemsWithout_subset) _ _ hj), hx⟩

/-- Fewer commits are accounted for as well. -/
theorem Accounted.mono (h : r.Accounted p epoch gone')
    (hsub : ∀ commit ∈ r.storage.commitBlobs p.tree, commit.1 ∈ gone → commit.1 ∈ gone') :
    r.Accounted p epoch gone := by
  have hitems := itemsWithout_anti hsub
  constructor
  · intro commit hcommit hgone env hplain x hx
    exact (h.change commit hcommit (hsub commit hcommit hgone) env hplain x hx).mono hitems
  · intro commit hcommit hgone env hopen i hi j hj x hx
    obtain ⟨k, hk, hx⟩ := h.recovered (recovered_below hopen hi hj hx)
    exact ⟨k, hk.mono hitems, hx⟩

/-- Pruning loses nothing exactly if the commits it drops are accounted for. -/
theorem keepsHistory_iff_accounted : r.KeepsHistory p epoch ↔
    r.Accounted p epoch {id | id ∈ r.storage.doomed p.codec p.tree} := by
  constructor
  · intro h
    refine ⟨fun commit hcommit hdoomed env hplain x hx => ?_,
      fun commit hcommit hdoomed env hopen i hi j hj x hx => ?_⟩
    · have hgone : commit ∉ (r.prune p).storage.commitBlobs p.tree := fun hmem =>
        (mem_commitBlobs_prune.1 hmem).2 hdoomed
      exact carriedWithin_prune.1 (h.carried commit hcommit hgone env hplain x hx)
    · have hrecovered := h.recovered x (recovered_below hopen hi hj hx)
      rwa [storedItems_prune] at hrecovered
  · intro h
    refine ⟨fun x hx => ?_, fun commit hcommit hgone env hplain x hx => ?_⟩
    · rw [storedItems_prune]
      exact h.recovered hx
    · have hdoomed : commit.1 ∈ r.storage.doomed p.codec p.tree :=
        by_contra fun hdoomed => hgone (mem_commitBlobs_prune.2 ⟨hcommit, hdoomed⟩)
      exact carriedWithin_prune.2 (h.change commit hcommit hdoomed env hplain x hx)

end Replica

/-! ## What minimisation may drop -/

/-- Minimisation drops a commit only if a fragment it is given claims it. -/
def DropsClaimed (claims : Fragment → CommitId → Bool)
    (minimize : List Fragment → List LooseCommit → List LooseCommit) : Prop :=
  ∀ fragments commits c, c ∈ commits → c ∉ minimize fragments commits →
    ∃ f ∈ fragments, claims f c.head

/-- All that may be dropped is. -/
def minimizeAll (claims : Fragment → CommitId → Bool) (fragments : List Fragment)
    (commits : List LooseCommit) : List LooseCommit :=
  commits.filter fun c => !fragments.any fun f => claims f c.head

theorem dropsClaimed_minimizeAll (claims : Fragment → CommitId → Bool) :
    DropsClaimed claims (minimizeAll claims) := by
  intro fragments commits c hc hdropped
  by_contra hnone
  refine hdropped (List.mem_filter.2 ⟨hc, ?_⟩)
  simpa using hnone

/-- The partition, under another minimisation. -/
def Partition.minimizing (p : Partition κ C)
    (minimize : List Fragment → List LooseCommit → List LooseCommit) : Partition κ C :=
  { p with codec := { p.codec with minimize } }

namespace Replica

variable (p : Partition κ C) (r : Replica κ C) {claims : Fragment → CommitId → Bool}

theorem mem_doomed {codec : Codec (Ciphertext κ (List C))}
    {s : SnapshotStorage (Ciphertext κ (List C))} {t : TreeId} {id : CommitId} :
    id ∈ s.doomed codec t ↔ SnapshotStorage.anchored (s.metadata t).2 ≠ [] ∧
      id ∈ (s.tree t).commits.keys ∧
      id ∉ (codec.minimize (SnapshotStorage.anchored (s.metadata t).2) (s.metadata t).1).map
        (·.head) := by
  simp only [SnapshotStorage.doomed]
  split_ifs with hempty
  · simpa using fun h => absurd (List.isEmpty_iff.1 hempty) h
  · rw [List.mem_filter, decide_eq_true_eq]
    exact ⟨fun h => ⟨fun hnil => hempty (List.isEmpty_iff.2 hnil), h⟩, And.right⟩

/-- A lawful minimisation lets prune drop claimed commits only. -/
theorem claimed_of_doomed {minimize : List Fragment → List LooseCommit → List LooseCommit}
    (hdrops : DropsClaimed claims minimize) {id : CommitId}
    (hid : id ∈ r.storage.doomed (p.minimizing minimize).codec p.tree) : r.Claimed p claims id := by
  obtain ⟨hanchored, -, hkept⟩ := mem_doomed.1 hid
  refine ⟨hanchored, fun c hc hhead => ?_⟩
  have hdropped : c ∉ minimize (SnapshotStorage.anchored (r.storage.metadata p.tree).2)
      (r.storage.metadata p.tree).1 := fun hmem => hkept (List.mem_map.2 ⟨c, hmem, hhead⟩)
  exact hhead ▸ hdrops _ _ c hc hdropped

/-- The minimisation that drops all it may has prune drop every claimed commit. -/
theorem doomed_of_claimed {id : CommitId} (hid : id ∈ (r.storage.tree p.tree).commits.keys)
    (hclaimed : r.Claimed p claims id) :
    id ∈ r.storage.doomed (p.minimizing (minimizeAll claims)).codec p.tree := by
  obtain ⟨hanchored, hclaims⟩ := hclaimed
  refine mem_doomed.2 ⟨hanchored, hid, fun hkept => ?_⟩
  obtain ⟨c, hc, rfl⟩ := List.mem_map.1 hkept
  obtain ⟨hc, hunclaimed⟩ := List.mem_filter.1 hc
  obtain ⟨f, hf, hclaim⟩ := hclaims c hc rfl
  rw [Bool.not_eq_true', List.any_eq_false] at hunclaimed
  exact hunclaimed f hf hclaim

/-- What is accounted for does not depend on the minimisation. -/
theorem accounted_minimizing {epoch : Ciphertext κ (List C) → Bool} {gone : Set CommitId}
    {minimize : List Fragment → List LooseCommit → List LooseCommit} :
    r.Accounted (p.minimizing minimize) epoch gone ↔ r.Accounted p epoch gone :=
  ⟨fun h => ⟨h.change, h.keys⟩, fun h => ⟨h.change, h.keys⟩⟩

/-- Whatever minimisation drops of what the fragments it is given claim, pruning loses nothing:
exactly if all that an anchored fragment claims is accounted for. -/
theorem prune_keepsHistory_iff (claims : Fragment → CommitId → Bool)
    (epoch : Ciphertext κ (List C) → Bool) :
    (∀ minimize, DropsClaimed claims minimize → r.KeepsHistory (p.minimizing minimize) epoch) ↔
      r.Accounted p epoch {id | r.Claimed p claims id} := by
  constructor
  · intro h
    have hkeeps := h (minimizeAll claims) (dropsClaimed_minimizeAll claims)
    have haccounted := (accounted_minimizing p r).1 (keepsHistory_iff_accounted.1 hkeeps)
    refine haccounted.mono fun commit hcommit hclaimed => ?_
    obtain ⟨signed, hget⟩ := mem_commitBlobs.1 hcommit
    have hkey : commit.1 ∈ (r.storage.tree p.tree).commits.keys :=
      ExtTreeMap.mem_keys.2 (ExtTreeMap.mem_iff_isSome_getElem?.2 (by rw [hget]; rfl))
    exact doomed_of_claimed p r hkey hclaimed
  · intro h minimize hdrops
    have haccounted : r.Accounted p epoch
        {id | id ∈ r.storage.doomed (p.minimizing minimize).codec p.tree} :=
      h.mono fun _ _ hdoomed => claimed_of_doomed p r hdrops hdoomed
    exact keepsHistory_iff_accounted.2 ((accounted_minimizing p r).2 haccounted)

end Replica

/-! ## A fragment sealed under another key -/

/-- What a fragment's metadata says that it covers. -/
def sampleClaims (f : Fragment) (id : CommitId) : Bool :=
  id = f.head || id ∈ f.checkpoints || id ∈ f.boundary

theorem dropsClaimed_samplePartition :
    DropsClaimed sampleClaims samplePartition.codec.minimize := by
  intro fragments commits c hc hdropped
  by_contra hnone
  refine hdropped (List.mem_filter.2 ⟨hc, List.all_eq_true.2 fun f hf => ?_⟩)
  have hclaims : ¬ sampleClaims f c.head := fun h => hnone ⟨f, hf, h⟩
  simp only [sampleClaims, Bool.or_eq_true, decide_eq_true_eq, not_or] at hclaims
  simpa using hclaims.1

/-- A fragment over the first change, under a key this device does not get. -/
def lockedFragment : Ciphertext Bytes32 (List Bool) :=
  ⟨1001, 5, .ok ⟨[false], []⟩⟩

/-- A device with the first change and that fragment. -/
def lockedOut : Replica Bytes32 Bool where
  storage :=
    let commit := sampleAuthors.ciphertext 1
    ((({} : SnapshotStorage _).persistItems samplePartition.codec samplePartition.tree
      [(Replica.signCommit samplePartition false commit ⟨0, []⟩, commit)]
      [(Replica.signFragment samplePartition sampleFragment lockedFragment ⟨1, []⟩,
        lockedFragment)]).1)
  heads := (∅ : Heads Bytes32).insert 1 1
  doc := { applied := [false] }

/-- The first change is dropped on the strength of a fragment that does not open, and is lost. -/
theorem unopened_fragment_drops :
    DropsClaimed sampleClaims samplePartition.codec.minimize ∧
      ¬ lockedOut.KeepsHistory samplePartition fun _ => false := by
  refine ⟨dropsClaimed_samplePartition, fun h => ?_⟩
  have hheld : lockedOut.held samplePartition =
      [(1, sampleAuthors.ciphertext 1), (1001, lockedFragment)] := by decide +kernel
  have hpruned : (lockedOut.prune samplePartition).held samplePartition =
      [(1001, lockedFragment)] := by decide +kernel
  have hkey : lockedOut.heads[(1 : Cref)]? = some 1 := by decide +kernel
  have hnokey : (lockedOut.prune samplePartition).heads[(1001 : Cref)]? = none := by decide +kernel
  have hread : Recovered (fun _ => false) lockedOut.heads
      (lockedOut.storedItems samplePartition) false := by
    refine ⟨((1, sampleAuthors.ciphertext 1), ⟨[false], []⟩), .of_mem ⟨?_, .inr ⟨1, hkey, ?_⟩⟩, ?_⟩
    · show _ ∈ lockedOut.held samplePartition
      rw [hheld]
      exact List.mem_cons_self
    · decide +kernel
    · exact List.mem_singleton_self _
  obtain ⟨i, ⟨start, ⟨hstart, hopen⟩, -⟩, -⟩ := h.recovered false hread
  obtain ⟨⟨cref, ct⟩, env⟩ := start
  have hmem : (cref, ct) ∈ (lockedOut.prune samplePartition).held samplePartition := hstart
  rw [hpruned] at hmem
  cases List.mem_singleton.1 hmem
  rcases hopen with ⟨hepoch, -⟩ | ⟨k, hk, -⟩
  · cases hepoch
  · rw [hnokey] at hk
    cases hk

end Polyvisor.Private
