import Polyvisor.Engine.Admission
import Polyvisor.Engine.PrivateFrontier

/-!
# Reading a private history back

Honest devices seal one ciphertext a content reference, so what can be read is a question about a
fixed graph: which envelope names which reference, and which of them a device holds and enters at.
A fragment is the roll-up of that graph, and the frontier of a device is a `Frontier.Holding`.

## Main results

* `opened_vaultOpen`: every head that `open` covers is named by an envelope the same call opened.
* `ReplicaInv` and `inv_step`: what the frontier of every device leads to.
* `total_read_back`: in a run in which nothing is pruned or covered that fragments on the frontier
  do not account for, the exported keys give back every applied change.
* `received_fragment_strands`: a device that prunes on the strength of a fragment it never opened.
-/

namespace Polyvisor.Private

open Std Frontier

set_option linter.unusedSectionVars false

variable {ι κ C : Type} [DecidableEq κ]

/-! ## Honest authors -/

/-- The references of a partition's commits and fragments are digests of different things. -/
structure Partition.Lawful (p : Partition κ C) : Prop where
  id_inj : Function.Injective p.graph.id
  id_ne : ∀ x y, p.graph.id x ≠ p.fragmentCref (p.graph.id y)
  deps_ne : ∀ {x i}, i ∈ p.graph.deps x → ∀ y, i ≠ p.fragmentCref (p.graph.id y)
  walk : p.walk.Lawful

/-- What the devices of the group seal: one key and one envelope a content reference. -/
structure Authors (κ C : Type) extends Authorship κ where
  envelope : Cref → Envelope κ (List C)

/-- The one ciphertext sealed for a content reference. -/
def Authors.ciphertext (a : Authors κ C) (cref : Cref) : Ciphertext κ (List C) :=
  ⟨cref, a.keyOf cref, .ok (a.envelope cref)⟩

/-- Honest sealing: a commit's envelope carries the change and keys of changes it was made on, a
fragment's envelope keys of what lies below it, and all the keys are right. -/
structure Authors.Honest (a : Authors κ C) (p : Partition κ C) : Prop where
  keys : ∀ {c q k}, (q, k) ∈ (a.envelope c).ancestors → k = a.keyOf q ∧ a.rank q < a.rank c
  ancestors : ∀ {c q k}, (q, k) ∈ (a.envelope c).ancestors →
    (∃ y, c = p.fragmentCref (p.graph.id y)) ∨ ∃ x, c = p.graph.id x ∧ q ∈ p.graph.deps x
  rank_deps : ∀ {x i}, i ∈ p.graph.deps x → a.rank i < a.rank (p.graph.id x)
  plaintext : ∀ x, (a.envelope (p.graph.id x)).plaintext = [x]

variable {p : Partition κ C} {a : Authors κ C}

@[simp]
theorem tryDecrypt_ciphertext {c : Cref} {k : κ} {plain : Except String (Envelope κ (List C))} :
    (a.ciphertext c).tryDecrypt k = some plain ↔ k = a.keyOf c ∧ .ok (a.envelope c) = plain := by
  rw [Ciphertext.tryDecrypt]
  by_cases h : k = a.keyOf c
  · simp [Authors.ciphertext, h]
  · simp [Authors.ciphertext, h]

/-- The graph of what honest authors have sealed. -/
def sealing (hp : p.Lawful) (ha : a.Honest p) : Sealing Cref where
  names c d := d ∈ (a.envelope c).ancestors.map Prod.fst
  rests c d := ∃ x, c = p.graph.id x ∧ d ∈ p.graph.deps x
  carries c d := (∃ y, c = p.fragmentCref (p.graph.id y)) ∧
    ∃ x ∈ (a.envelope c).plaintext, d = p.graph.id x
  rollup c := ∃ y, c = p.fragmentCref (p.graph.id y)
  rests_of_names := by
    intro c d hd hc
    obtain ⟨⟨_, k⟩, hmem, rfl⟩ := List.mem_map.1 hd
    exact (ha.ancestors hmem).resolve_left hc
  not_rollup_of_rests := by
    rintro c d ⟨x, -, hd⟩ ⟨head, rfl⟩
    exact hp.deps_ne hd head rfl
  not_rollup_of_carries := by
    rintro c d ⟨-, x, -, rfl⟩ ⟨head, heq⟩
    exact hp.id_ne x head heq

variable {hp : p.Lawful} {ha : a.Honest p}

theorem rank_lt_of_names {c d : Cref} (h : (sealing hp ha).names c d) : a.rank d < a.rank c := by
  obtain ⟨⟨_, k⟩, hmem, rfl⟩ := List.mem_map.1 h
  exact (ha.keys hmem).2

theorem not_rollup_id (x : C) : ¬ (sealing hp ha).rollup (p.graph.id x) :=
  fun ⟨head, heq⟩ => hp.id_ne x head heq

theorem rollup_head (f : BundledFragment p.graph) :
    (sealing hp ha).rollup (p.fragmentCref f.head) := by
  obtain ⟨y, -, hy⟩ := List.mem_map.1 f.head_mem
  exact ⟨y, by rw [hy]⟩

/-! ## Opening a batch -/

/-- What `open` found: the references it opened, each of them on the new frontier or named by
another, and so for every old head. -/
structure OpenedBatch (hp : p.Lawful) (ha : a.Honest p) (found : Set Cref)
    (heads heads' : Heads κ) (wanted : List (Cref × Ciphertext κ (List C)))
    (opened : List (Cref × List C)) : Prop where
  honest : HonestHeads a.toAuthorship heads'
  found_or_named : ∀ c ∈ found, c ∈ heads' ∨ ∃ d ∈ found, (sealing hp ha).names d c
  heads_or_named : ∀ c, c ∈ heads → c ∈ heads' ∨ ∃ d ∈ found, (sealing hp ha).names d c
  opened_found : ∀ item ∈ opened, item.1 ∈ found ∧ item.1 ∈ wanted.map Prod.fst ∧
    item.2 = (a.envelope item.1).plaintext

/-- What the first loop has collected. -/
structure EpochOpened (a : Authors κ C) (wanted : List (Cref × Ciphertext κ (List C)))
    (o : Opening κ (List C)) : Prop where
  reached : ∀ entry ∈ o.reached, entry.2 = a.keyOf entry.1 ∧ entry.1 ∈ wanted.map Prod.fst
  ancestors : ∀ entry ∈ o.ancestors, ∃ c ∈ o.reached.map Prod.fst,
    entry ∈ (a.envelope c).ancestors
  opened : ∀ item ∈ o.opened, item.1 ∈ o.reached.map Prod.fst ∧
    item.2 = (a.envelope item.1).plaintext
  dark : ∀ item ∈ o.dark, item ∈ wanted
  covered : o.covered = []

theorem epochOpened_openEpoch {epoch : Ciphertext κ (List C) → Bool}
    {wanted batch : List (Cref × Ciphertext κ (List C))}
    (hwanted : ∀ item ∈ wanted, item.2 = a.ciphertext item.1) (hbatch : batch ⊆ wanted)
    {o o' : Opening κ (List C)} (h : EpochOpened a wanted o)
    (heq : openEpoch epoch o batch = .ok o') : EpochOpened a wanted o' := by
  induction batch generalizing o with
  | nil =>
    cases heq
    exact h
  | cons item rest ih =>
    obtain ⟨cref, encrypted⟩ := item
    obtain ⟨hmem, hrest⟩ := List.cons_subset.1 hbatch
    obtain rfl : encrypted = a.ciphertext cref := hwanted _ hmem
    rw [openEpoch] at heq
    split at heq
    · simp only [Authors.ciphertext] at heq
      refine ih hrest ?_ heq
      refine ⟨fun entry hentry => ?_, fun entry hentry => ?_, fun item hitem => ?_, h.dark,
        h.covered⟩
      · rcases List.mem_append.1 hentry with hentry | hentry
        · exact h.reached entry hentry
        · rw [List.mem_singleton.1 hentry]
          exact ⟨rfl, List.mem_map_of_mem hmem⟩
      · rw [List.map_append]
        rcases List.mem_append.1 hentry with hentry | hentry
        · obtain ⟨c, hc, hentry⟩ := h.ancestors entry hentry
          exact ⟨c, List.mem_append_left _ hc, hentry⟩
        · exact ⟨cref, List.mem_append_right _ (List.mem_singleton_self _), hentry⟩
      · rw [List.map_append]
        rcases List.mem_append.1 hitem with hitem | hitem
        · obtain ⟨hc, hplain⟩ := h.opened item hitem
          exact ⟨List.mem_append_left _ hc, hplain⟩
        · rw [List.mem_singleton.1 hitem]
          exact ⟨List.mem_append_right _ (List.mem_singleton_self _), rfl⟩
    · refine ih hrest ?_ heq
      refine ⟨h.reached, h.ancestors, h.opened, fun item hitem => ?_, h.covered⟩
      rcases List.mem_append.1 hitem with hitem | hitem
      · exact h.dark item hitem
      · rwa [List.mem_singleton.1 hitem]

/-- A walk that starts at honest seeds in an honest store opens what was sealed. -/
theorem envelope_of_opens {store : Cref → Option (Ciphertext κ (List C))}
    {seeds : List (Ciphertext κ (List C) × κ)}
    (hstore : ∀ c ct, store c = some ct → ct = a.ciphertext c)
    (hseeds : ∀ seed ∈ seeds, ∃ c, seed.1 = a.ciphertext c) {c : Cref}
    {env : Envelope κ (List C)} (h : Opens store seeds c env) : env = a.envelope c := by
  cases h with
  | seed hmem hopen =>
    obtain ⟨c, rfl⟩ := hseeds _ hmem
    exact (Except.ok.inj (tryDecrypt_ciphertext.1 hopen).2).symm
  | ancestor _ _ hct hopen =>
    obtain rfl := hstore _ _ hct
    exact (Except.ok.inj (tryDecrypt_ciphertext.1 hopen).2).symm

/-- The references a call of `open` opens: what the epoch opened, and what the walk can. -/
def found (store : Cref → Option (Ciphertext κ (List C))) (heads : Heads κ)
    (wanted : List (Cref × Ciphertext κ (List C))) (o : Opening κ (List C)) : Set Cref :=
  {c | c ∈ o.reached.map Prod.fst ∨ ∃ env, Opens store (walkSeeds heads wanted o) c env}

/-- What the call has collected after the walk. -/
structure WalkOpened (hp : p.Lawful) (ha : a.Honest p) (found : Set Cref)
    (wanted : List (Cref × Ciphertext κ (List C))) (o : Opening κ (List C)) : Prop where
  ancestors : ∀ entry ∈ o.ancestors, ∃ d ∈ found, entry ∈ (a.envelope d).ancestors
  covered : ∀ c ∈ o.covered, ∃ d ∈ found, (sealing hp ha).names d c
  opened : ∀ item ∈ o.opened, item.1 ∈ found ∧ item.1 ∈ wanted.map Prod.fst ∧
    item.2 = (a.envelope item.1).plaintext

section Open

variable {store : Cref → Option (Ciphertext κ (List C))} {heads : Heads κ}
  {wanted : List (Cref × Ciphertext κ (List C))} {o : Opening κ (List C)}

/-- A seed is in the batch, and is held or was opened by the epoch. -/
theorem mem_walkSeeds (hwanted : ∀ item ∈ wanted, item.2 = a.ciphertext item.1)
    (h : EpochOpened a wanted o) {seed : Ciphertext κ (List C) × κ}
    (hseed : seed ∈ walkSeeds heads wanted o) :
    ∃ c, seed.1 = a.ciphertext c ∧ c ∈ wanted.map Prod.fst ∧
      (c ∈ heads ∨ c ∈ o.reached.map Prod.fst) := by
  rw [walkSeeds] at hseed
  rcases List.mem_append.1 hseed with hseed | hseed
  · obtain ⟨⟨cref, encrypted⟩, hdark, hkey⟩ := List.mem_filterMap.1 hseed
    obtain ⟨key, hget, rfl⟩ := Option.map_eq_some_iff.1 hkey
    have hmem := h.dark _ hdark
    refine ⟨cref, hwanted _ hmem, List.mem_map_of_mem hmem, .inl ?_⟩
    exact ExtTreeMap.isSome_getElem?_iff_mem.1 (Option.isSome_of_eq_some hget)
  · obtain ⟨⟨cref, key⟩, hreached, hlookup⟩ := List.mem_filterMap.1 hseed
    obtain ⟨encrypted, hget, rfl⟩ := Option.map_eq_some_iff.1 hlookup
    have hmem := mem_of_lookup hget
    exact ⟨cref, hwanted _ hmem, List.mem_map_of_mem hmem, .inr (List.mem_map_of_mem hreached)⟩

theorem walkOpened_walkDark (hwanted : ∀ item ∈ wanted, item.2 = a.ciphertext item.1)
    (hstore : ∀ c ct, store c = some ct → ct = a.ciphertext c) (h : EpochOpened a wanted o) :
    WalkOpened hp ha (found store heads wanted o) wanted
      (walkDark p.walk store heads wanted o) := by
  have hepoch (item : Cref × List C) (hitem : item ∈ o.opened) :
      item.1 ∈ found store heads wanted o ∧ item.1 ∈ wanted.map Prod.fst ∧
        item.2 = (a.envelope item.1).plaintext := by
    obtain ⟨hmem, hplain⟩ := h.opened item hitem
    obtain ⟨entry, hentry, heq⟩ := List.mem_map.1 hmem
    exact ⟨.inl hmem, heq ▸ (h.reached entry hentry).2, hplain⟩
  have hread (entry : Cref × κ) (hentry : entry ∈ o.ancestors) :
      ∃ d ∈ found store heads wanted o, entry ∈ (a.envelope d).ancestors := by
    obtain ⟨d, hd, hentry⟩ := h.ancestors entry hentry
    exact ⟨d, .inl hd, hentry⟩
  have hopens {c : Cref} {env : Envelope κ (List C)}
      (hc : Opens store (walkSeeds heads wanted o) c env) : env = a.envelope c := by
    refine envelope_of_opens hstore (fun seed hseed => ?_) hc
    obtain ⟨c, hc, -, -⟩ := mem_walkSeeds hwanted h hseed
    exact ⟨c, hc⟩
  rw [walkDark]
  split
  · refine ⟨hread, fun c hc => ?_, hepoch⟩
    rw [h.covered] at hc
    cases hc
  · refine ⟨fun entry hentry => ?_, fun c hc => ?_, fun item hitem => ?_⟩
    · rcases List.mem_append.1 hentry with hentry | hentry
      · exact hread entry hentry
      · obtain ⟨d, env, hd, hmem⟩ := hp.walk.next hentry
        exact ⟨d, .inr ⟨env, hd⟩, hopens hd ▸ hmem⟩
    · simp only [h.covered, List.nil_append, List.mem_filter, decide_eq_true_iff] at hc
      obtain ⟨hc, hseeded⟩ := hc
      obtain ⟨⟨_, plain⟩, hcomplete, rfl⟩ := List.mem_map.1 hc
      obtain ⟨env, hopen, -⟩ := hp.walk.complete hcomplete
      -- what is no seed was opened with a key from another envelope
      cases hopen with
      | seed hmem _ => exact absurd (List.mem_map_of_mem hmem) hseeded
      | @ancestor d env' _ k _ _ hd hkey _ _ =>
        exact ⟨d, .inr ⟨env', hd⟩, List.mem_map.2 ⟨(_, k), hopens hd ▸ hkey, rfl⟩⟩
    · rcases List.mem_append.1 hitem with hitem | hitem
      · exact hepoch item hitem
      · obtain ⟨⟨cref, encrypted⟩, hdark, hlookup⟩ := List.mem_filterMap.1 hitem
        obtain ⟨plain, hget, rfl⟩ := Option.map_eq_some_iff.1 hlookup
        obtain ⟨env, hopen, hplain⟩ := hp.walk.complete (mem_of_lookup hget)
        refine ⟨.inr ⟨env, hopen⟩, List.mem_map_of_mem (h.dark _ hdark), ?_⟩
        rw [← hplain, hopens hopen]

/-- Every head that `open` covers is named by an envelope the same call opened, and so is
everything it opened that is not on the new frontier. -/
theorem opened_vaultOpen (hwanted : ∀ item ∈ wanted, item.2 = a.ciphertext item.1)
    (hstore : ∀ c ct, store c = some ct → ct = a.ciphertext c)
    (hheads : HonestHeads a.toAuthorship heads) {epoch : Ciphertext κ (List C) → Bool}
    {known : List Cref} {heads' : Heads κ} {opened : List (Cref × List C)}
    (heq : vaultOpen p.walk epoch store heads wanted known = .ok (heads', opened)) :
    ∃ found : Set Cref, (∀ c ∈ found, c ∈ wanted.map Prod.fst ∨ ∃ ct, store c = some ct) ∧
      OpenedBatch hp ha found heads heads' wanted opened := by
  rw [vaultOpen] at heq
  cases hopen : openEpoch epoch {} wanted with
  | error e =>
    rw [hopen] at heq
    cases heq
  | ok o =>
    rw [hopen] at heq
    cases heq
    have hepoch : EpochOpened a wanted o := by
      refine epochOpened_openEpoch hwanted (List.Subset.refl _) ⟨?_, ?_, ?_, ?_, rfl⟩ hopen
      all_goals exact fun _ h => by cases h
    have hwalk : WalkOpened hp ha (found store heads wanted o) wanted
        (walkDark p.walk store heads wanted o) := walkOpened_walkDark hwanted hstore hepoch
    have hreached : (walkDark p.walk store heads wanted o).reached = o.reached := by
      rw [walkDark]
      split <;> rfl
    generalize hwalked : walkDark p.walk store heads wanted o = w at hwalk hreached
    have hnamed (c : Cref) (hc : c ∈ heads) :
        c ∈ advanceHeads heads (decideAncestors heads known w).reached
          (decideAncestors heads known w).covered ∨
        ∃ d ∈ found store heads wanted o, (sealing hp ha).names d c := by
      by_contra hnot
      rw [not_or] at hnot
      obtain ⟨hcovered, -⟩ := covered_of_not_mem_advanceHeads hc hnot.1
      rcases List.mem_append.1 hcovered with hcovered | hcovered
      · exact hnot.2 (hwalk.covered c hcovered)
      · obtain ⟨entry, hentry, rfl⟩ := List.mem_map.1 (List.mem_filter.1 hcovered).1
        obtain ⟨d, hd, hmem⟩ := hwalk.ancestors entry hentry
        exact hnot.2 ⟨d, hd, List.mem_map_of_mem hmem⟩
    have harrived (c : Cref) (hc : c ∈ o.reached.map Prod.fst) :
        c ∈ advanceHeads heads (decideAncestors heads known w).reached
          (decideAncestors heads known w).covered := by
      refine mem_advanceHeads_of_arrived heads _ ?_
      rw [decideAncestors, List.map_append, hreached]
      exact List.mem_append_left _ hc
    refine ⟨found store heads wanted o, fun c hc => ?_, fun c k hget => ?_, fun c hc => ?_, hnamed,
      hwalk.opened⟩
    · rcases hc with hc | ⟨env, hc⟩
      · obtain ⟨entry, hentry, rfl⟩ := List.mem_map.1 hc
        exact .inl (hepoch.reached entry hentry).2
      · cases hc with
        | @seed ct _ _ hmem _ =>
          obtain ⟨c, heq, hc, -⟩ := mem_walkSeeds hwanted hepoch hmem
          obtain rfl : ct = a.ciphertext c := heq
          exact .inl hc
        | ancestor _ _ hct _ => exact .inr ⟨_, hct⟩
    · rcases getElem?_advanceHeads hget with harrived | hget
      · rcases List.mem_append.1 harrived with hmem | hmem
        · rw [hreached] at hmem
          exact (hepoch.reached _ hmem).1
        · obtain ⟨d, -, hkey⟩ := hwalk.ancestors _ (List.mem_filter.1 hmem).1
          exact (ha.keys hkey).1
      · exact hheads c k hget
    · rcases hc with hc | ⟨env, hc⟩
      · exact .inl (harrived c hc)
      · cases hc with
        | @seed ct _ _ hmem _ =>
          obtain ⟨c, heq, -, hc | hc⟩ := mem_walkSeeds hwanted hepoch hmem
          · obtain rfl : ct = a.ciphertext c := heq
            exact hnamed c hc
          · obtain rfl : ct = a.ciphertext c := heq
            exact .inl (harrived c hc)
        | @ancestor d env' _ k _ _ hd hkey _ _ =>
          have henv : env' = a.envelope d := by
            refine envelope_of_opens hstore (fun seed hseed => ?_) hd
            obtain ⟨c, hc, -, -⟩ := mem_walkSeeds hwanted hepoch hseed
            exact ⟨c, hc⟩
          refine .inr ⟨d, .inr ⟨env', hd⟩, List.mem_map.2 ⟨(c, k), henv ▸ hkey, rfl⟩⟩

end Open

/-! ## One device -/

namespace Replica

/-- The device's storage and frontier, as a reader sees them. -/
def holding (p : Partition κ C) (r : Replica κ C) : Holding Cref where
  held := {c | c ∈ (r.storage.tree p.tree).commits ∨
    ∃ head, c = p.fragmentCref head ∧ head ∈ (r.storage.tree p.tree).fragments}
  heads := {c | c ∈ r.heads}

end Replica

variable {r r' : Replica κ C}

theorem mem_held {c : Cref} {ct : Ciphertext κ (List C)} :
    (c, ct) ∈ r.held p ↔
      (∃ signed, (r.storage.tree p.tree).commits[c]? = some (signed, ct)) ∨
      ∃ head, c = p.fragmentCref head ∧
        ∃ signed, (r.storage.tree p.tree).fragments[head]? = some (signed, ct) := by
  simp only [Replica.held, SnapshotStorage.commitBlobs, SnapshotStorage.fragmentBlobs,
    List.map_map, List.mem_append, List.mem_map, Prod.exists, Function.comp,
    ExtTreeMap.mem_toList_iff_getElem?_eq_some, Prod.mk.injEq]
  constructor
  · rintro (⟨i, signed, blob, hget, rfl, rfl⟩ | ⟨head, signed, blob, hget, rfl, rfl⟩)
    · exact .inl ⟨signed, hget⟩
    · exact .inr ⟨head, rfl, signed, hget⟩
  · rintro (⟨signed, hget⟩ | ⟨head, rfl, signed, hget⟩)
    · exact .inl ⟨c, signed, ct, hget, rfl, rfl⟩
    · exact .inr ⟨head, signed, ct, hget, rfl, rfl⟩

theorem mem_holding_held {c : Cref} : c ∈ (r.holding p).held ↔ ∃ ct, (c, ct) ∈ r.held p := by
  simp only [mem_held, Replica.holding, Set.mem_ofPred_eq, ← ExtTreeMap.isSome_getElem?_iff_mem,
    Option.isSome_iff_exists, Prod.exists]
  constructor
  · rintro (⟨signed, ct, h⟩ | ⟨head, rfl, signed, ct, h⟩)
    · exact ⟨ct, .inl ⟨signed, h⟩⟩
    · exact ⟨ct, .inr ⟨head, rfl, signed, h⟩⟩
  · rintro ⟨ct, ⟨signed, h⟩ | ⟨head, rfl, signed, h⟩⟩
    · exact .inl ⟨signed, ct, h⟩
    · exact .inr ⟨head, rfl, signed, ct, h⟩

/-- A commit as honest devices store it. -/
structure HonestCommit (p : Partition κ C) (a : Authors κ C) (i : CommitId)
    (item : Signed LooseCommit × Ciphertext κ (List C)) : Prop where
  id : ∃ x, i = p.graph.id x
  payload : ∃ payload, item.1.payload = some payload ∧ payload.head = i
  blob : item.2 = a.ciphertext i

/-- A fragment as honest devices store it. -/
structure HonestFragment (p : Partition κ C) (a : Authors κ C) (head : CommitId)
    (item : Signed Fragment × Ciphertext κ (List C)) : Prop where
  id : ∃ x, head = p.graph.id x
  payload : ∃ payload, item.1.payload = some payload ∧ payload.head = head
  blob : item.2 = a.ciphertext (p.fragmentCref head)

/-- What every step of the group keeps on every device. -/
structure ReplicaInv (hp : p.Lawful) (ha : a.Honest p) (r : Replica κ C) : Prop where
  commits : ∀ i item, (r.storage.tree p.tree).commits[i]? = some item → HonestCommit p a i item
  fragments : ∀ head item, (r.storage.tree p.tree).fragments[head]? = some item →
    HonestFragment p a head item
  heads : HonestHeads a.toAuthorship r.heads
  seen : ∀ entry ∈ r.seen, entry.2 = a.ciphertext entry.1
  held : ∀ entry ∈ r.held p, entry ∈ r.seen
  /-- What has left storage is a commit, and all it was made on is kept. -/
  gone : ∀ entry ∈ r.seen, entry.1 ∈ (r.holding p).held ∨
    ¬ (sealing hp ha).rollup entry.1 ∧
      ∀ z, (sealing hp ha).rests entry.1 z → (r.holding p).Kept (sealing hp ha) z
  known : ∀ x ∈ r.doc.known, (r.holding p).Recoverable (sealing hp ha) (p.graph.id x)

theorem ReplicaInv.blob_eq (h : ReplicaInv hp ha r) {entry : Cref × Ciphertext κ (List C)}
    (hentry : entry ∈ r.held p) : entry.2 = a.ciphertext entry.1 :=
  h.seen entry (h.held entry hentry)

theorem ReplicaInv.rollup_fragment (h : ReplicaInv hp ha r) {head : CommitId}
    (hhead : head ∈ (r.storage.tree p.tree).fragments) :
    (sealing hp ha).rollup (p.fragmentCref head) := by
  obtain ⟨item, hget⟩ := Option.isSome_iff_exists.1 (ExtTreeMap.isSome_getElem?_iff_mem.2 hhead)
  obtain ⟨y, rfl⟩ := (h.fragments head item hget).id
  exact ⟨y, rfl⟩

theorem replicaInv_empty : ReplicaInv hp ha ({} : Replica κ C) := by
  refine ⟨?_, ?_, ?_, ?_, ?_, ?_, ?_⟩
  all_goals simp [SnapshotStorage.tree, HonestHeads, Replica.held, SnapshotStorage.commitBlobs,
    SnapshotStorage.fragmentBlobs, Document.known]

/-- A step after which all that was followed still is, and every change that is new can be
recovered. -/
theorem ReplicaInv.move (h : ReplicaInv hp ha r)
    (hcommits : ∀ i item, (r'.storage.tree p.tree).commits[i]? = some item →
      HonestCommit p a i item)
    (hfragments : ∀ head item, (r'.storage.tree p.tree).fragments[head]? = some item →
      HonestFragment p a head item)
    (hheads : HonestHeads a.toAuthorship r'.heads)
    (hseen : ∀ entry ∈ r'.seen, entry ∈ r.seen ∨ entry ∈ r'.held p)
    (hheld : ∀ entry ∈ r'.held p, entry ∈ r'.seen)
    (hkeeps : Holding.Keeps (sealing hp ha) (r.holding p) (r'.holding p))
    (hknown : ∀ x ∈ r'.doc.known, x ∈ r.doc.known ∨
      (r'.holding p).Recoverable (sealing hp ha) (p.graph.id x)) : ReplicaInv hp ha r' where
  commits := hcommits
  fragments := hfragments
  heads := hheads
  seen entry hentry := by
    rcases hseen entry hentry with hentry | hentry
    · exact h.seen entry hentry
    · obtain ⟨c, ct⟩ := entry
      rcases mem_held.1 hentry with ⟨signed, hget⟩ | ⟨head, rfl, signed, hget⟩
      · exact (hcommits c _ hget).blob
      · exact (hfragments head _ hget).blob
  held := hheld
  gone entry hentry := by
    rcases hseen entry hentry with hentry | hentry
    · rcases h.gone entry hentry with hmem | ⟨hitem, hrest⟩
      · exact (hkeeps.dropped _ hmem).imp_right fun hdropped => ⟨hdropped.1, hdropped.2.2⟩
      · exact .inr ⟨hitem, fun z hz => hkeeps.toKeepsRollups.kept (hrest z hz)⟩
    · exact .inl (mem_holding_held.2 ⟨entry.2, hentry⟩)
  known x hx := by
    rcases hknown x hx with hx | hx
    · exact hkeeps.recoverable (h.known x hx)
    · exact hx

/-! ## Storing and dropping -/

@[simp]
theorem held_subset_seen_store (r : Replica κ C)
    (storage : SnapshotStorage (Ciphertext κ (List C))) {entry : Cref × Ciphertext κ (List C)}
    (h : entry ∈ (r.store p storage).held p) : entry ∈ (r.store p storage).seen :=
  List.mem_append_right _ h

theorem mem_seen_store {r : Replica κ C} {storage : SnapshotStorage (Ciphertext κ (List C))}
    {entry : Cref × Ciphertext κ (List C)} (h : entry ∈ (r.store p storage).seen) :
    entry ∈ r.seen ∨ entry ∈ (r.store p storage).held p :=
  List.mem_append.1 h

section Receive

variable {storage : SnapshotStorage (Ciphertext κ (List C))}
  {commits : List (Signed LooseCommit × Ciphertext κ (List C))}
  {fragments : List (Signed Fragment × Ciphertext κ (List C))}

/-- An honest batch leaves honest items. -/
theorem honestCommit_received (h : ReplicaInv hp ha r)
    (hreceived : SnapshotStorage.Received p.tree commits fragments r.storage storage)
    (hcommits : ∀ item ∈ commits, ∃ i, HonestCommit p a i item) {i : CommitId}
    {item : Signed LooseCommit × Ciphertext κ (List C)}
    (hget : (storage.tree p.tree).commits[i]? = some item) : HonestCommit p a i item := by
  rcases hreceived.commits i item hget with hget | ⟨hmem, payload, hpayload, hi⟩
  · exact h.commits i item hget
  · obtain ⟨i', hitem⟩ := hcommits item hmem
    obtain ⟨payload', hpayload', hi'⟩ := hitem.payload
    obtain rfl : payload = payload' := Option.some.inj (hpayload ▸ hpayload')
    rwa [← hi, hi']

theorem honestFragment_received (h : ReplicaInv hp ha r)
    (hreceived : SnapshotStorage.Received p.tree commits fragments r.storage storage)
    (hfragments : ∀ item ∈ fragments, ∃ head, HonestFragment p a head item) {head : CommitId}
    {item : Signed Fragment × Ciphertext κ (List C)}
    (hget : (storage.tree p.tree).fragments[head]? = some item) :
    HonestFragment p a head item := by
  rcases hreceived.fragments head item hget with hget | ⟨hmem, payload, hpayload, hhead⟩
  · exact h.fragments head item hget
  · obtain ⟨head', hitem⟩ := hfragments item hmem
    obtain ⟨payload', hpayload', hhead'⟩ := hitem.payload
    obtain rfl : payload = payload' := Option.some.inj (hpayload ▸ hpayload')
    rwa [← hhead, hhead']

theorem held_subset_received
    (hreceived : SnapshotStorage.Received p.tree commits fragments r.storage storage) {c : Cref}
    (hc : c ∈ (r.holding p).held) : c ∈ ((r.store p storage).holding p).held := by
  rcases hc with hc | ⟨head, rfl, hhead⟩
  · exact .inl (hreceived.mem_commits c hc)
  · exact .inr ⟨head, rfl, hreceived.mem_fragments head hhead⟩

/-- Storing an honest batch. -/
theorem inv_received (h : ReplicaInv hp ha r)
    (hreceived : SnapshotStorage.Received p.tree commits fragments r.storage storage)
    (hcommits : ∀ item ∈ commits, ∃ i, HonestCommit p a i item)
    (hfragments : ∀ item ∈ fragments, ∃ head, HonestFragment p a head item) :
    ReplicaInv hp ha (r.store p storage) :=
  h.move (fun _ _ => honestCommit_received h hreceived hcommits)
    (fun _ _ => honestFragment_received h hreceived hfragments) h.heads
    (fun _ => mem_seen_store) (fun _ => held_subset_seen_store r storage)
    (Holding.keeps_of_subset (fun _ => held_subset_received hreceived) fun _ hc => hc)
    fun _ => .inl

end Receive

/-- Pruning commits that fragments on the frontier account for. -/
theorem inv_prune (h : ReplicaInv hp ha r)
    (hdoomed : ∀ i ∈ r.storage.doomed p.codec p.tree,
      (r.holding p).Sheltered (sealing hp ha) i) : ReplicaInv hp ha (r.prune p) := by
  have hcommit {i : CommitId} {item : Signed LooseCommit × Ciphertext κ (List C)}
      (hget : (((r.storage.prune p.codec p.tree).1).tree p.tree).commits[i]? = some item) :
      (r.storage.tree p.tree).commits[i]? = some item := by
    rw [SnapshotStorage.getElem?_commits_prune] at hget
    split at hget
    · cases hget
    · exact hget
  have hcommits {c : Cref} (hc : c ∈ (r.storage.tree p.tree).commits) : ∃ x, c = p.graph.id x := by
    obtain ⟨item, hget⟩ := Option.isSome_iff_exists.1 (ExtTreeMap.isSome_getElem?_iff_mem.2 hc)
    exact (h.commits c item hget).id
  have hrollups : Holding.KeepsRollups (sealing hp ha) (r.holding p) ((r.prune p).holding p) := by
    refine ⟨fun c hc hrollup => ?_, fun c hc _ => .of_mem hc⟩
    rcases hc with hc | ⟨head, rfl, hhead⟩
    · obtain ⟨x, rfl⟩ := hcommits hc
      exact absurd hrollup (not_rollup_id x)
    · refine .inr ⟨head, rfl, ?_⟩
      show head ∈ (((r.storage.prune p.codec p.tree).1).tree p.tree).fragments
      rwa [SnapshotStorage.fragments_prune]
  have hkeeps : Holding.Keeps (sealing hp ha) (r.holding p) ((r.prune p).holding p) := by
    refine ⟨hrollups, fun c hc => .inl (.of_mem hc), fun c hc => ?_⟩
    rcases hc with hc | ⟨head, rfl, hhead⟩
    · by_cases hd : c ∈ r.storage.doomed p.codec p.tree
      · obtain ⟨x, rfl⟩ := hcommits hc
        exact .inr ⟨not_rollup_id x, hrollups.sheltered (hdoomed _ hd)⟩
      · refine .inl (.inl ?_)
        show c ∈ (((r.storage.prune p.codec p.tree).1).tree p.tree).commits
        rwa [← ExtTreeMap.isSome_getElem?_iff_mem, SnapshotStorage.getElem?_commits_prune,
          if_neg hd, ExtTreeMap.isSome_getElem?_iff_mem]
    · exact .inl (hrollups.held _ (.inr ⟨head, rfl, hhead⟩) (h.rollup_fragment hhead))
  refine h.move (fun i item hget => h.commits i item (hcommit hget)) (fun head item hget => ?_)
    h.heads (fun _ => mem_seen_store) (fun _ => held_subset_seen_store r _) hkeeps fun _ => .inl
  refine h.fragments head item ?_
  have hget : (((r.storage.prune p.codec p.tree).1).tree p.tree).fragments[head]? = some item :=
    hget
  rwa [SnapshotStorage.fragments_prune] at hget

/-! ## Sealing and covering -/

section Seal

variable {heads : Heads κ} {cref : Cref} {preds : List Cref} {change : List C} {key : κ}

/-- What is sealed for a reference is what the authors seal for it. -/
theorem envelope_of_sealed
    (h : (sealPrivate heads cref preds change key).ciphertext = a.ciphertext cref) :
    key = a.keyOf cref ∧ (a.envelope cref).plaintext = change ∧
      (a.envelope cref).ancestors.map Prod.fst =
        (sealPrivate heads cref preds change key).embedded := by
  simp only [sealPrivate, Authors.ciphertext, Ciphertext.mk.injEq, Except.ok.injEq,
    true_and] at h
  obtain ⟨rfl, henv⟩ := h
  rw [← henv]
  exact ⟨rfl, rfl, rfl⟩

theorem mem_confirm_self : cref ∈ confirm heads (sealPrivate heads cref preds change key) :=
  mem_advanceHeads_of_arrived heads _ (List.mem_singleton_self _)

/-- A head that a confirmed envelope takes off the frontier is named by it. -/
theorem mem_confirm_or_named
    (h : (sealPrivate heads cref preds change key).ciphertext = a.ciphertext cref) {c : Cref}
    (hc : c ∈ heads) : c ∈ confirm heads (sealPrivate heads cref preds change key) ∨
      (sealing hp ha).names cref c := by
  by_contra hnot
  rw [not_or] at hnot
  obtain ⟨hcovered, -⟩ := covered_of_not_mem_advanceHeads hc hnot.1
  refine hnot.2 ?_
  show c ∈ (a.envelope cref).ancestors.map Prod.fst
  rwa [(envelope_of_sealed h).2.2]

theorem honestHeads_confirm (hheads : HonestHeads a.toAuthorship heads)
    (h : (sealPrivate heads cref preds change key).ciphertext = a.ciphertext cref) :
    HonestHeads a.toAuthorship (confirm heads (sealPrivate heads cref preds change key)) := by
  intro c k hget
  rcases getElem?_advanceHeads hget with harrived | hget
  · cases List.mem_singleton.1 harrived
    exact (envelope_of_sealed h).1
  · exact hheads c k hget

/-- Storing an envelope and then confirming it. -/
theorem keeps_confirm
    (h : (sealPrivate r.heads cref preds change key).ciphertext = a.ciphertext cref)
    (hheads : r'.heads = confirm r.heads (sealPrivate r.heads cref preds change key))
    (hheld : (r.holding p).held ⊆ (r'.holding p).held) (hcref : cref ∈ (r'.holding p).held) :
    Holding.Keeps (sealing hp ha) (r.holding p) (r'.holding p) := by
  have hmem {c : Cref} (hc : c ∈ confirm r.heads (sealPrivate r.heads cref preds change key)) :
      (r'.holding p).Live (sealing hp ha) c := by
    refine .of_mem ?_
    show c ∈ r'.heads
    rwa [hheads]
  have hlive (c : Cref) (hc : c ∈ (r.holding p).heads) :
      (r'.holding p).Live (sealing hp ha) c := by
    rcases mem_confirm_or_named h hc with hc | hnamed
    · exact hmem hc
    · exact Holding.Live.step (hmem mem_confirm_self) hcref hnamed
  exact ⟨⟨fun c hc _ => hheld hc, fun c hc _ => hlive c hc⟩, fun c hc => .inl (hlive c hc),
    fun c hc => .inl (hheld hc)⟩

end Seal

/-- A change that is written here, sealed as the authors do and stored. -/
theorem inv_write (h : ReplicaInv hp ha r) {x : C} {key : κ} {signature : Signature}
    (hsealed : (r.sealCommit p x key).ciphertext = a.ciphertext (p.graph.id x))
    (hok : ∃ n, (r.addCommit p x key signature).2 = .ok n) :
    ReplicaInv hp ha (r.write p x key signature) := by
  rw [Replica.write]
  split
  next hready =>
    have hitem : HonestCommit p a (p.graph.id x)
        (Replica.signCommit p x (r.sealCommit p x key).ciphertext signature,
          (r.sealCommit p x key).ciphertext) :=
      ⟨⟨x, rfl⟩, ⟨_, rfl, rfl⟩, hsealed⟩
    have hreceived := SnapshotStorage.received_persistItems p.codec r.storage p.tree
      [(Replica.signCommit p x (r.sealCommit p x key).ciphertext signature,
        (r.sealCommit p x key).ciphertext)] []
    obtain ⟨n, hok⟩ := hok
    rcases hadd : r.addCommit p x key signature with ⟨storage, result⟩
    rw [hadd] at hok
    cases hok
    rw [Replica.addCommit] at hadd
    rw [hadd] at hreceived
    obtain ⟨_, hpayload, hmem⟩ :=
      SnapshotStorage.mem_commits_of_persistItems hadd (List.mem_singleton_self _)
    cases hpayload
    have hcommits : ∀ item ∈ [(Replica.signCommit p x (r.sealCommit p x key).ciphertext signature,
        (r.sealCommit p x key).ciphertext)], ∃ i, HonestCommit p a i item := by
      intro item hitem'
      rw [List.mem_singleton.1 hitem']
      exact ⟨_, hitem⟩
    refine h.move (fun _ _ => honestCommit_received h hreceived hcommits)
      (fun _ _ => honestFragment_received h hreceived (by simp))
      (honestHeads_confirm h.heads hsealed) (fun _ => mem_seen_store)
      (fun _ => held_subset_seen_store r storage)
      (keeps_confirm hsealed rfl (fun _ => held_subset_received hreceived) (.inl hmem))
      fun y hy => ?_
    rcases List.mem_append.1 hy with hy | hy
    · rcases List.mem_append.1 hy with hy | hy
      · exact .inl (List.mem_append_left _ hy)
      · cases List.mem_singleton.1 hy
        exact .inr (.inr ⟨.inl hmem, .of_mem mem_confirm_self⟩)
    · exact .inl (List.mem_append_right _ hy)
  next => exact h

/-- Taking off the frontier what roll-ups account for. -/
theorem inv_cover (h : ReplicaInv hp ha r) {members : List C}
    (hkept : ∀ x ∈ members, (r.holding p).Kept (sealing hp ha) (p.graph.id x)) :
    ReplicaInv hp ha { r with heads := cover r.heads (p.graph.ids members) } := by
  have hmem {c : Cref} (hc : c ∈ r.heads) : c ∈ cover r.heads (p.graph.ids members) ∨
      ∃ x ∈ members, p.graph.id x = c := by
    by_contra hnot
    rw [not_or] at hnot
    exact hnot.2 (List.mem_map.1 (covered_of_not_mem_advanceHeads hc hnot.1).1)
  have hrollups : Holding.KeepsRollups (sealing hp ha) (r.holding p)
      (Replica.holding p { r with heads := cover r.heads (p.graph.ids members) }) := by
    refine ⟨fun c hc _ => hc, fun c hc hrollup => ?_⟩
    rcases hmem hc with hc | ⟨x, -, rfl⟩
    · exact .of_mem hc
    · exact absurd hrollup (not_rollup_id x)
  refine h.move h.commits h.fragments (fun c k hget => ?_) (fun _ => .inl) h.held
    ⟨hrollups, fun c hc => ?_, fun c hc => .inl hc⟩ fun _ => .inl
  · rcases getElem?_advanceHeads hget with harrived | hget
    · cases harrived
    · exact h.heads c k hget
  · rcases hmem hc with hc | ⟨x, hx, rfl⟩
    · exact .inl (.of_mem hc)
    · exact .inr (hrollups.kept (hkept x hx))

/-! ## Installing a fragment -/

section Install

variable {f : BundledFragment p.graph} {key : κ} {signature : Signature}

/-- What the authors seal for a fragment is the members, with the keys this device holds of what
lies just below them. -/
theorem names_of_sealFragment
    (hsealed : (r.sealFragment p f key).ciphertext = a.ciphertext (p.fragmentCref f.head))
    {i : CommitId} (hi : i ∈ f.boundary) (hloose : ¬ r.storage.holdsFragment p.tree i)
    (hhead : i ∈ r.heads) : (sealing hp ha).names (p.fragmentCref f.head) i := by
  show i ∈ (a.envelope (p.fragmentCref f.head)).ancestors.map Prod.fst
  rw [(envelope_of_sealed hsealed).2.2]
  obtain ⟨k, hk⟩ := Option.isSome_iff_exists.1 (ExtTreeMap.isSome_getElem?_iff_mem.2 hhead)
  refine List.mem_map.2 ⟨(i, k), List.mem_filterMap.2 ⟨i, ?_, by rw [hk]; rfl⟩, rfl⟩
  exact List.mem_map.2 ⟨i, hi, if_neg hloose⟩

/-- Everything a fragment carries is kept by it, if what lies just below it is kept. The induction
is on the rank of a member. -/
theorem kept_member {s : Holding Cref} (hopen : s.Open (sealing hp ha) (p.fragmentCref f.head))
    (hmembers : (a.envelope (p.fragmentCref f.head)).plaintext = f.members) (hrange : IsRange f)
    (hboundary : ∀ i ∈ f.boundary, s.Kept (sealing hp ha) i) {x : C} (hx : x ∈ f.members) :
    s.Kept (sealing hp ha) (p.graph.id x) := by
  induction hd : a.rank (p.graph.id x) using Nat.strong_induction_on generalizing x with
  | _ d ih =>
    have hbundled : s.Bundled (sealing hp ha) (p.graph.id x) :=
      ⟨_, hopen, hopen.rollup, x, hmembers ▸ hx, rfl⟩
    refine .carried hbundled ?_
    rintro z ⟨y, hxy, hz⟩
    obtain rfl := hp.id_inj hxy
    rcases hrange x hx z hz with hmem | hmem
    · obtain ⟨y, hy, rfl⟩ := List.mem_map.1 hmem
      exact ih _ (hd ▸ ha.rank_deps hz) hy rfl
    · exact hboundary z hmem

/-- A fragment that is built here, on top of what is kept or on the frontier. -/
theorem inv_install (h : ReplicaInv hp ha r)
    (hsealed : (r.sealFragment p f key).ciphertext = a.ciphertext (p.fragmentCref f.head))
    (hboundary : ∀ i ∈ f.boundary, (r.holding p).Kept (sealing hp ha) i ∨
      ¬ r.storage.holdsFragment p.tree i ∧ i ∈ r.heads) :
    ReplicaInv hp ha (r.install p f key signature) := by
  rw [Replica.install]
  split
  next hfresh =>
    have hitem : HonestFragment p a f.head
        (Replica.signFragment p f (r.sealFragment p f key).ciphertext signature,
          (r.sealFragment p f key).ciphertext) :=
      ⟨(List.mem_map.1 f.head_mem).imp fun _ hx => hx.2.symm, ⟨_, rfl, rfl⟩, hsealed⟩
    have hfragments : ∀ item ∈ [(Replica.signFragment p f (r.sealFragment p f key).ciphertext
        signature, (r.sealFragment p f key).ciphertext)], ∃ head, HonestFragment p a head item := by
      intro item hitem'
      rw [List.mem_singleton.1 hitem']
      exact ⟨_, hitem⟩
    have hreceived := SnapshotStorage.received_persistItems p.codec r.storage p.tree []
      [(Replica.signFragment p f (r.sealFragment p f key).ciphertext signature,
        (r.sealFragment p f key).ciphertext)]
    rcases hadd : r.addFragment p f key signature with ⟨storage, result⟩
    rw [Replica.addFragment] at hadd
    rw [hadd] at hreceived
    cases result with
    | error e => exact inv_received h hreceived (by simp) hfragments
    | ok n =>
      obtain ⟨_, hpayload, hmem⟩ :=
        SnapshotStorage.mem_fragments_of_persistItems hadd (List.mem_singleton_self _)
      cases hpayload
      let r' : Replica κ C :=
        { r.store p storage with heads := confirm r.heads (r.sealFragment p f key) }
      have hheld : p.fragmentCref f.head ∈ (r'.holding p).held := .inr ⟨f.head, rfl, hmem⟩
      have hkeeps : Holding.Keeps (sealing hp ha) (r.holding p) (r'.holding p) :=
        keeps_confirm hsealed rfl (fun _ => held_subset_received hreceived) hheld
      have hinv : ReplicaInv hp ha r' :=
        h.move (fun _ _ => honestCommit_received h hreceived (by simp))
          (fun _ _ => honestFragment_received h hreceived hfragments)
          (honestHeads_confirm h.heads hsealed) (fun _ => mem_seen_store)
          (fun _ => held_subset_seen_store r storage) hkeeps fun _ => .inl
      have hopen : (r'.holding p).Open (sealing hp ha) (p.fragmentCref f.head) :=
        ⟨rollup_head f, hheld, .of_mem mem_confirm_self⟩
      refine inv_cover hinv fun x hx => ?_
      refine kept_member hopen (envelope_of_sealed hsealed).2.1 hfresh.2.1 (fun i hi => ?_) hx
      rcases hboundary i hi with hkept | ⟨hloose, hhead⟩
      · exact hkeeps.toKeepsRollups.kept hkept
      · exact .named hopen (names_of_sealFragment hsealed hi hloose hhead)
  next => exact h

end Install

/-! ## Absorbing -/

section Absorb

variable {epoch : Ciphertext κ (List C) → Bool} {cached : List Cref}
  {wanted : List (Cref × Ciphertext κ (List C))} {heads' : Heads κ} {opened : List (Cref × List C)}

/-- keyhive's working set holds what storage has held. -/
theorem ReplicaInv.working_eq (h : ReplicaInv hp ha r) (hwanted : ∀ item ∈ wanted, item ∈ r.held p)
    {c : Cref} {ct : Ciphertext κ (List C)} (hct : r.working cached wanted c = some ct) :
    ct = a.ciphertext c ∧ (c, ct) ∈ r.seen := by
  rw [Replica.working] at hct
  split at hct
  next item hitem =>
    cases hct
    have hmem := hwanted item (List.mem_of_find?_eq_some hitem)
    have hblob := h.blob_eq hmem
    obtain rfl : item.1 = c := by simpa [hblob, Authors.ciphertext] using List.find?_some hitem
    exact ⟨hblob, h.held item hmem⟩
  next =>
    split at hct
    · have hseen := mem_of_lookup hct
      exact ⟨h.seen _ hseen, hseen⟩
    · cases hct

/-- What one call of `open` leaves: everything that was followed still is, and so is everything it
opened. -/
structure OpenedBlobs (hp : p.Lawful) (ha : a.Honest p) (r : Replica κ C)
    (wanted : List (Cref × Ciphertext κ (List C))) (heads' : Heads κ)
    (opened : List (Cref × List C)) : Prop where
  honest : HonestHeads a.toAuthorship heads'
  keeps : Holding.Keeps (sealing hp ha) (r.holding p) (Replica.holding p { r with heads := heads' })
  followed : ∀ item ∈ opened,
    (Replica.holding p { r with heads := heads' }).Followed (sealing hp ha) item.1
  wanted : ∀ item ∈ opened, item.1 ∈ wanted.map Prod.fst
  plaintext : ∀ item ∈ opened, item.2 = (a.envelope item.1).plaintext

theorem opened_openBlobs (h : ReplicaInv hp ha r) (hwanted : ∀ item ∈ wanted, item ∈ r.held p)
    (heq : r.openBlobs p epoch cached wanted = .ok (heads', opened)) :
    OpenedBlobs hp ha r wanted heads' opened := by
  rw [Replica.openBlobs] at heq
  obtain ⟨found, hfound, hbatch⟩ : ∃ found : Set Cref,
      (∀ c ∈ found, c ∈ wanted.map Prod.fst ∨ ∃ ct, r.working cached wanted c = some ct) ∧
        OpenedBatch hp ha found r.heads heads' wanted opened :=
    opened_vaultOpen (fun item hitem => h.blob_eq (hwanted item hitem))
      (fun c ct hct => (h.working_eq hwanted hct).1) h.heads heq
  have hseen (c : Cref) (hc : c ∈ found) : ∃ ct, (c, ct) ∈ r.seen := by
    rcases hfound c hc with hc | ⟨ct, hct⟩
    · obtain ⟨⟨_, ct⟩, hitem, rfl⟩ := List.mem_map.1 hc
      exact ⟨ct, h.held _ (hwanted _ hitem)⟩
    · exact ⟨ct, (h.working_eq hwanted hct).2⟩
  obtain ⟨bound, hbound⟩ := exists_rank_le a.rank (r.seen.map Prod.fst)
  have hrank (c : Cref) (hc : c ∈ found) : a.rank c ≤ bound := by
    obtain ⟨ct, hct⟩ := hseen c hc
    exact hbound c (List.mem_map_of_mem hct)
  have hgone (c : Cref) (hc : c ∈ found) : c ∈ (r.holding p).held ∨
      ¬ (sealing hp ha).rollup c ∧
        ∀ z, (sealing hp ha).rests c z → (r.holding p).Kept (sealing hp ha) z := by
    obtain ⟨ct, hct⟩ := hseen c hc
    exact h.gone _ hct
  let s := Replica.holding p { r with heads := heads' }
  have hlive {c : Cref} (hc : c ∈ found) (hroll : (sealing hp ha).rollup c) :
      s.Live (sealing hp ha) c :=
    Holding.live_of_named (fun _ _ => rank_lt_of_names) hrank
      (fun x hx _ => hbatch.found_or_named x hx)
      (fun x hx hx' => (hgone x hx).resolve_right fun hgone => hgone.1 hx') hc hroll
  have hrollups : Holding.KeepsRollups (sealing hp ha) (r.holding p) s := by
    refine ⟨fun c hc _ => hc, fun c hc hroll => ?_⟩
    rcases hbatch.heads_or_named c hc with hc | ⟨d, hd, hdc⟩
    · exact .of_mem hc
    · have hdroll := Holding.rollup_of_names hdc hroll
      have hdheld : d ∈ s.held := (hgone d hd).resolve_right fun hgone => hgone.1 hdroll
      exact (hlive hd hdroll).step hdheld hdc
  have hrest (c : Cref) (hc : c ∈ found) : c ∈ s.held ∨ ¬ (sealing hp ha).rollup c ∧
      ∀ z, (sealing hp ha).rests c z → s.Kept (sealing hp ha) z :=
    (hgone c hc).imp_right fun hgone => ⟨hgone.1, fun z hz => hrollups.kept (hgone.2 z hz)⟩
  have hfollowed {c : Cref} (hc : c ∈ found) : s.Followed (sealing hp ha) c :=
    Holding.followed_of_named (fun _ _ => rank_lt_of_names) hrank
      (fun x hx => hbatch.found_or_named x hx) hrest hc
  refine ⟨hbatch.honest, ⟨hrollups, fun c hc => ?_, fun c hc => .inl hc⟩,
    fun item hitem => hfollowed (hbatch.opened_found item hitem).1,
    fun item hitem => (hbatch.opened_found item hitem).2.1,
    fun item hitem => (hbatch.opened_found item hitem).2.2⟩
  rcases hbatch.heads_or_named c hc with hc | ⟨d, hd, hdc⟩
  · exact .inl (.of_mem hc)
  · exact (hfollowed hd).of_names (hrest d hd) hdc

/-- A frontier that a call of `open` has moved. -/
theorem inv_opened (h : ReplicaInv hp ha r) (hopened : OpenedBlobs hp ha r wanted heads' opened) :
    ReplicaInv hp ha { r with heads := heads' } :=
  h.move h.commits h.fragments hopened.honest (fun _ => .inl) h.held hopened.keeps fun _ => .inl

/-- Handing changes to automerge: whatever it has read then, it had read or is one of them. -/
theorem mem_known_load {g : ChangeGraph C CommitId} {d : Document C} {changes : List C} {x : C}
    (hx : x ∈ (d.load g changes).known) : x ∈ d.known ∨ x ∈ changes := by
  obtain ⟨added, heq, hsub⟩ :=
    ChangeGraph.deliver_eq_append (g := g) (d.queued ++ changes).length d.applied
      (d.queued ++ changes)
  simp only [Document.known, Document.load, heq] at hx ⊢
  have hall (hx : x ∈ d.queued ++ changes) : x ∈ d.applied ++ d.queued ∨ x ∈ changes :=
    (List.mem_append.1 hx).imp_left fun hx => List.mem_append_right _ hx
  rcases List.mem_append.1 hx with hx | hx
  · rcases List.mem_append.1 hx with hx | hx
    · exact .inl (List.mem_append_left _ hx)
    · exact hall (hsub hx)
  · exact hall (List.mem_filter.1 hx).1

theorem mem_known_applyBundles {g : ChangeGraph C CommitId} {d : Document C}
    {bundles : List (CommitId × List C)} {x : C} (hx : x ∈ (d.applyBundles g bundles).known) :
    x ∈ d.known ∨ ∃ item ∈ bundles, x ∈ item.2 := by
  refine (mem_known_load hx).imp_right fun hx => ?_
  obtain ⟨item, hitem, hx⟩ := List.mem_flatMap.1 hx
  exact ⟨item, (List.mem_filter.1 hitem).1, hx⟩

theorem mem_known_apply {g : ChangeGraph C CommitId} {d : Document C}
    {items : List (CommitId × List C)} {x : C} (hx : x ∈ (d.apply g items).known) :
    x ∈ d.known ∨ ∃ item ∈ items, item.2 = [x] := by
  refine (mem_known_load hx).imp_right fun hx => ?_
  obtain ⟨⟨id, blob⟩, hitem, hx⟩ := List.mem_flatMap.1 hx
  refine ⟨_, (List.mem_filter.1 hitem).1, ?_⟩
  match blob, hx with
  | [c], hx => rw [List.mem_singleton.1 hx]

/-- What a reader follows and storage holds, the reader gets. -/
theorem recoverable_of_followed {s : Holding Cref} {c : Cref} (h : s.Followed (sealing hp ha) c)
    (hheld : c ∈ s.held) : s.Recoverable (sealing hp ha) c := by
  rcases h with hlive | hkept
  · exact .inr ⟨hheld, hlive⟩
  · cases hkept with
    | named hr hy => exact .inr ⟨hheld, hr.live_of_names hy⟩
    | carried hy _ => exact .inl hy

theorem held_of_wantedCommits {item : Cref × Ciphertext κ (List C)}
    (h : item ∈ r.wantedCommits p) : item ∈ r.held p :=
  List.mem_append_left _ (List.mem_filter.1 h).1

theorem id_of_wantedCommits (h : ReplicaInv hp ha r) {item : CommitId × Ciphertext κ (List C)}
    (hitem : item ∈ r.wantedCommits p) : ∃ x, item.1 = p.graph.id x := by
  obtain ⟨⟨i, stored⟩, hmem, rfl⟩ := List.mem_map.1 (List.mem_filter.1 hitem).1
  exact (h.commits i stored (ExtTreeMap.mem_toList_iff_getElem?_eq_some.1 hmem)).id

theorem mem_fragments_of_wantedBundles {item : CommitId × Ciphertext κ (List C)}
    (hitem : item ∈ r.wantedBundles p) : item.1 ∈ (r.storage.tree p.tree).fragments := by
  obtain ⟨⟨head, stored⟩, hmem, rfl⟩ := List.mem_map.1 (List.mem_filter.1 hitem).1
  rw [← ExtTreeMap.isSome_getElem?_iff_mem,
    ExtTreeMap.mem_toList_iff_getElem?_eq_some.1 hmem]
  rfl

theorem held_of_wantedBundles {item : Cref × Ciphertext κ (List C)}
    (h : item ∈ (r.wantedBundles p).map fun (head, blob) => (p.fragmentCref head, blob)) :
    item ∈ r.held p := by
  obtain ⟨bundle, hbundle, rfl⟩ := List.mem_map.1 h
  exact List.mem_append_right _ (List.mem_map_of_mem (List.mem_filter.1 hbundle).1)

variable (epoch cached) in
/-- The fragments' half of `absorb_app`. -/
theorem inv_openBundles (h : ReplicaInv hp ha r) :
    ReplicaInv hp ha (r.openBundles p epoch cached).1 ∧
      (r.openBundles p epoch cached).1.storage = r.storage ∧
      ∀ item ∈ (r.openBundles p epoch cached).2, ∀ x ∈ item.2,
        ((r.openBundles p epoch cached).1.holding p).Bundled (sealing hp ha) (p.graph.id x) := by
  rw [Replica.openBundles]
  split
  next heads' opened heq =>
    have hopened := opened_openBlobs h (fun _ => held_of_wantedBundles) heq
    refine ⟨inv_opened h hopened, rfl, fun item hitem x hx => ?_⟩
    obtain ⟨⟨cref, bundle⟩, hmem, hfind⟩ := List.mem_filterMap.1 hitem
    obtain ⟨fragment, hfragment, rfl⟩ := Option.map_eq_some_iff.1 hfind
    obtain rfl : p.fragmentCref fragment.1 = cref := by simpa using List.find?_some hfragment
    have hbundle : bundle = (a.envelope (p.fragmentCref fragment.1)).plaintext :=
      hopened.plaintext _ hmem
    have hroll : (sealing hp ha).rollup (p.fragmentCref fragment.1) :=
      h.rollup_fragment (mem_fragments_of_wantedBundles (List.mem_of_find?_eq_some hfragment))
    have hheld := held_of_wantedBundles (List.mem_map_of_mem (f := fun (head, blob) =>
      (p.fragmentCref head, blob)) (List.mem_of_find?_eq_some hfragment))
    refine ⟨_, ⟨hroll, ?_, (hopened.followed _ hmem).live hroll⟩, hroll, x, hbundle ▸ hx, rfl⟩
    exact mem_holding_held.2 ⟨_, hheld⟩
  next => exact ⟨h, rfl, fun item hitem => by cases hitem⟩

/-- `absorb_app` keeps what the frontier leads to, and all that lands can be recovered. -/
theorem inv_absorb (h : ReplicaInv hp ha r) : ReplicaInv hp ha (r.absorb p epoch cached) := by
  simp only [Replica.absorb]
  split
  · exact h
  obtain ⟨hinv, hstorage, hbundled⟩ := inv_openBundles epoch cached h
  generalize r.openBundles p epoch cached = result at hinv hstorage hbundled
  obtain ⟨r', bundles⟩ := result
  dsimp only at hinv hstorage hbundled ⊢
  split
  next heads' opened heq =>
    have hwanted (item : Cref × Ciphertext κ (List C)) (hitem : item ∈ r.wantedCommits p) :
        item ∈ r'.held p := by
      have hheld := held_of_wantedCommits hitem
      rwa [Replica.held, ← hstorage] at hheld
    have hopened := opened_openBlobs hinv hwanted heq
    refine hinv.move hinv.commits hinv.fragments hopened.honest (fun _ => .inl) hinv.held
      hopened.keeps fun x hx => ?_
    rcases mem_known_apply hx with hx | ⟨item, hitem, hplain⟩
    · rcases mem_known_applyBundles hx with hx | ⟨item, hitem, hx⟩
      · exact .inl hx
      · exact .inr (.inl (hopened.keeps.toKeepsRollups.bundled (hbundled item hitem x hx)))
    · obtain ⟨blob, hblob, heq⟩ := List.mem_map.1 (hopened.wanted item hitem)
      have hheld : item.1 ∈ (r'.holding p).held :=
        mem_holding_held.2 ⟨blob.2, heq ▸ hwanted blob hblob⟩
      have hrecoverable := recoverable_of_followed (hopened.followed item hitem) hheld
      have hid : item.1 = p.graph.id x := by
        obtain ⟨y, hy⟩ := id_of_wantedCommits h hblob
        have hplaintext := hopened.plaintext item hitem
        rw [← heq, hy, ha.plaintext y, hplain] at hplaintext
        rw [← heq, hy, List.singleton_inj.1 hplaintext]
      exact .inr (hid ▸ hrecoverable)
  next => exact hinv

end Absorb

/-! ## Enrolling -/

/-- Adopting the keys of an honest frontier. -/
theorem inv_enrol (h : ReplicaInv hp ha r) (h' : ReplicaInv hp ha r') :
    ReplicaInv hp ha
      { r with heads := importContentKeys r.heads (exportContentKeys r'.heads) } := by
  refine h.move h.commits h.fragments (fun c k hget => ?_) (fun _ => .inl) h.held
    (Holding.keeps_of_subset (fun _ hc => hc) fun c hc => ?_) fun _ => .inl
  · rcases getElem?_foldl_insert hget with hmem | hget
    · exact h'.heads c k (ExtTreeMap.mem_toList_iff_getElem?_eq_some.1 hmem)
    · exact h.heads c k hget
  · exact (mem_foldl_insert _ _ _).2 (.inr hc)

/-! ## Runs of the group -/

section Runs

variable [DecidableEq ι]

/-- What every step keeps on every device, and of the items on their way between them. -/
structure GroupInv (hp : p.Lawful) (ha : a.Honest p) (s : Group ι κ C) : Prop where
  replicas : ∀ d, ReplicaInv hp ha (s.replicas d)
  commits : ∀ item ∈ s.commits, ∃ i, HonestCommit p a i item
  fragments : ∀ item ∈ s.fragments, ∃ head, HonestFragment p a head item

/-- The steps that lose nothing: a write reaches storage; a fragment is built on top of what open
fragments keep, or of a commit on the frontier that heads no stored fragment; a commit is pruned
when an open fragment carries it and everything it was made on is kept. What is sealed is what the
authors seal. -/
def Shelters (hp : p.Lawful) (ha : a.Honest p) (s : Group ι κ C) : Label ι p → Prop
  | .write d c key signature =>
    let r := s.replicas d
    p.graph.Ready r.doc.applied c →
      (r.sealCommit p c key).ciphertext = a.ciphertext (p.graph.id c) ∧
        ∃ n, (r.addCommit p c key signature).2 = .ok n
  | .install d f key _ =>
    let r := s.replicas d
    (r.sealFragment p f key).ciphertext = a.ciphertext (p.fragmentCref f.head) ∧
      ∀ i ∈ f.boundary, (r.holding p).Kept (sealing hp ha) i ∨
        ¬ r.storage.holdsFragment p.tree i ∧ i ∈ r.heads
  | .prune d =>
    let r := s.replicas d
    ∀ i ∈ r.storage.doomed p.codec p.tree, (r.holding p).Sheltered (sealing hp ha) i
  | _ => True

/-- One device moved. -/
theorem inv_setReplica {s : Group ι κ C} (h : GroupInv hp ha s) {d : ι}
    (hr : ReplicaInv hp ha r) : GroupInv hp ha (s.setReplica p d r) := by
  refine ⟨fun d' => ?_, fun item hitem => ?_, fun item hitem => ?_⟩
  · by_cases hd : d' = d
    · subst hd
      simpa [Group.setReplica] using hr
    · simpa [Group.setReplica, hd] using h.replicas d'
  · rcases List.mem_append.1 hitem with hitem | hitem
    · exact h.commits item hitem
    · obtain ⟨i, hget⟩ := SnapshotStorage.mem_values.1 hitem
      exact ⟨i, hr.commits i item hget⟩
  · rcases List.mem_append.1 hitem with hitem | hitem
    · exact h.fragments item hitem
    · obtain ⟨head, hget⟩ := SnapshotStorage.mem_values.1 hitem
      exact ⟨head, hr.fragments head item hget⟩

theorem inv_step (s : Group ι κ C) (l : Label ι p) (hl : Shelters hp ha s l)
    (h : GroupInv hp ha s) : GroupInv hp ha (s.step p l) := by
  cases l with
  | write d c key signature =>
    refine inv_setReplica h ?_
    by_cases hready : p.graph.Ready (s.replicas d).doc.applied c
    · exact inv_write (h.replicas d) (hl hready).1 (hl hready).2
    · rw [Replica.write, if_neg hready]
      exact h.replicas d
  | install d f key signature => exact inv_setReplica h (inv_install (h.replicas d) hl.1 hl.2)
  | prune d => exact inv_setReplica h (inv_prune (h.replicas d) hl)
  | receive d commits fragments =>
    refine inv_setReplica h (inv_received (h.replicas d)
      (SnapshotStorage.received_persistItems p.codec _ p.tree _ _) (fun item hitem => ?_)
      fun item hitem => ?_)
    · obtain ⟨i, -, hget⟩ := List.mem_filterMap.1 hitem
      exact h.commits item (List.mem_of_getElem? hget)
    · obtain ⟨i, -, hget⟩ := List.mem_filterMap.1 hitem
      exact h.fragments item (List.mem_of_getElem? hget)
  | absorb d epoch cached => exact inv_setReplica h (inv_absorb (h.replicas d))
  | enrol adder joiner =>
    exact inv_setReplica h (inv_enrol (h.replicas joiner) (h.replicas adder))

/-- The reader gets the key of whatever the frontier leads to. -/
theorem recovers_of_live (h : ReplicaInv hp ha r) {c : Cref}
    (hc : (r.holding p).Live (sealing hp ha) c) : Recovers p r c (a.keyOf c) := by
  obtain ⟨start, hstart, hpath⟩ := hc
  induction hpath with
  | refl =>
    obtain ⟨k, hk⟩ := Option.isSome_iff_exists.1 (ExtTreeMap.isSome_getElem?_iff_mem.2 hstart)
    rw [← h.heads _ k hk]
    exact .exported (ExtTreeMap.mem_toList_iff_getElem?_eq_some.2 hk)
  | @tail d c _ hdc ih =>
    obtain ⟨ct, hct⟩ := mem_holding_held.1 hdc.1
    obtain ⟨⟨_, k⟩, hmem, rfl⟩ := List.mem_map.1 hdc.2
    have hopen : ct.tryDecrypt (a.keyOf d) = some (.ok (a.envelope d)) := by
      obtain rfl : ct = a.ciphertext d := h.blob_eq hct
      exact tryDecrypt_ciphertext.2 ⟨rfl, rfl⟩
    rw [← (ha.keys hmem).1]
    exact .ancestor ih hct hopen hmem

/-- The reader gets every change that is recoverable. -/
theorem readBack_of_recoverable (h : ReplicaInv hp ha r) {x : C}
    (hx : (r.holding p).Recoverable (sealing hp ha) (p.graph.id x)) : ReadBack p r x := by
  have hread {c : Cref} (hheld : c ∈ (r.holding p).held)
      (hlive : (r.holding p).Live (sealing hp ha) c) (hmem : x ∈ (a.envelope c).plaintext) :
      ReadBack p r x := by
    obtain ⟨ct, hct⟩ := mem_holding_held.1 hheld
    refine ⟨c, a.keyOf c, ct, a.envelope c, recovers_of_live h hlive, hct, ?_, hmem⟩
    obtain rfl : ct = a.ciphertext c := h.blob_eq hct
    exact tryDecrypt_ciphertext.2 ⟨rfl, rfl⟩
  rcases hx with ⟨c, hopen, -, y, hy, hxy⟩ | ⟨hheld, hlive⟩
  · obtain rfl := hp.id_inj hxy
    exact hread hopen.held hopen.live hy
  · exact hread hheld hlive (by simp [ha.plaintext x])

variable (hp) in
/-- In every run of such steps, whatever a device has applied can be read back from its storage
with the keys it exports. -/
theorem total_read_back (ha : a.Honest p) (ls : List (Label ι p))
    (hmeets : Transition.Meets (Group.step p) (Shelters hp ha) {} ls) (d : ι) :
    ∀ x ∈ ((Transition.run (Group.step p) {} ls).replicas d).doc.applied,
      ReadBack p ((Transition.run (Group.step p) {} ls).replicas d) x := by
  have hinv : GroupInv hp ha (Transition.run (Group.step p) {} ls) := by
    refine Transition.run_preserves_of_meets inv_step hmeets ⟨fun _ => replicaInv_empty, ?_, ?_⟩
    all_goals exact fun item hitem => by cases hitem
  intro x hx
  exact readBack_of_recoverable (hinv.replicas d)
    ((hinv.replicas d).known x (List.mem_append_left _ hx))

end Runs

/-! ## Two devices -/

/-- A depth-first walk over at most so many ciphertexts. The stack has them under the references
they were asked for by. -/
def depthFirst (store : Cref → Option (Ciphertext κ (List C))) :
    ℕ → List (Cref × Ciphertext κ (List C) × κ) → Walked κ (List C) → Walked κ (List C)
  | fuel + 1, (cref, encrypted, key) :: stack, w =>
    match encrypted.tryDecrypt key with
    | some (.ok env) =>
      let below := env.ancestors.filterMap fun (c, k) => (store c).map fun ct => (c, ct, k)
      depthFirst store fuel (below ++ stack)
        { complete := w.complete ++ [(cref, env.plaintext)]
          next := w.next ++ env.ancestors.filter fun (c, _) => (store c).isNone }
    | _ => depthFirst store fuel stack w
  | _, _, w => w

/-- The walk from these seeds. -/
def boundedWalk (fuel : ℕ) : CausalWalk κ (List C) := fun store seeds =>
  depthFirst store fuel (seeds.map fun (ct, k) => (ct.contentRef, ct, k)) {}

/-- What a walk has collected. -/
structure Collected (store : Cref → Option (Ciphertext κ (List C)))
    (seeds : List (Ciphertext κ (List C) × κ)) (w : Walked κ (List C)) : Prop where
  complete : ∀ entry ∈ w.complete, ∃ env, Opens store seeds entry.1 env ∧ env.plaintext = entry.2
  next : ∀ entry ∈ w.next, ∃ d env, Opens store seeds d env ∧ entry ∈ env.ancestors

theorem collected_depthFirst {store : Cref → Option (Ciphertext κ (List C))}
    {seeds : List (Ciphertext κ (List C) × κ)} {fuel : ℕ}
    {stack : List (Cref × Ciphertext κ (List C) × κ)} {w : Walked κ (List C)}
    (hstack : ∀ entry ∈ stack, ∀ env, entry.2.1.tryDecrypt entry.2.2 = some (.ok env) →
      Opens store seeds entry.1 env)
    (hw : Collected store seeds w) : Collected store seeds (depthFirst store fuel stack w) := by
  induction fuel generalizing stack w with
  | zero => exact hw
  | succ fuel ih =>
    match stack with
    | [] => exact hw
    | (cref, encrypted, key) :: stack =>
      obtain ⟨hfirst, hrest⟩ := List.forall_mem_cons.1 hstack
      rw [depthFirst]
      split
      next env hopen =>
        have henv : Opens store seeds cref env := hfirst env hopen
        refine ih (fun entry hentry => ?_) ⟨fun entry hentry => ?_, fun entry hentry => ?_⟩
        · rcases List.mem_append.1 hentry with hentry | hentry
          · obtain ⟨⟨c, k⟩, hkey, hentry⟩ := List.mem_filterMap.1 hentry
            obtain ⟨ct, hct, rfl⟩ := Option.map_eq_some_iff.1 hentry
            exact fun env' hopen' => .ancestor henv hkey hct hopen'
          · exact hrest entry hentry
        · rcases List.mem_append.1 hentry with hentry | hentry
          · exact hw.complete entry hentry
          · rw [List.mem_singleton.1 hentry]
            exact ⟨env, henv, rfl⟩
        · rcases List.mem_append.1 hentry with hentry | hentry
          · exact hw.next entry hentry
          · exact ⟨cref, env, henv, (List.mem_filter.1 hentry).1⟩
      next => exact ih hrest hw

theorem lawful_boundedWalk (fuel : ℕ) : (boundedWalk fuel : CausalWalk κ (List C)).Lawful := by
  have hcollected (store : Cref → Option (Ciphertext κ (List C)))
      (seeds : List (Ciphertext κ (List C) × κ)) :
      Collected store seeds (boundedWalk fuel store seeds) := by
    refine collected_depthFirst (fun entry hentry env hopen => ?_) ⟨?_, ?_⟩
    · obtain ⟨seed, hseed, rfl⟩ := List.mem_map.1 hentry
      exact .seed hseed hopen
    all_goals exact fun entry hentry => by cases hentry
  exact ⟨fun h => (hcollected _ _).complete _ h, fun h => (hcollected _ _).next _ h⟩

deriving instance DecidableEq for Ciphertext

/-- Two changes, the second on top of the first. -/
def sampleGraph : ChangeGraph Bool CommitId where
  id c := if c then 2 else 1
  deps c := if c then [1] else []

theorem mem_deps_sampleGraph {x : Bool} {i : CommitId} (h : i ∈ sampleGraph.deps x) :
    x = true ∧ i = 1 := by
  cases x with
  | false => cases h
  | true => exact ⟨rfl, List.mem_singleton.1 h⟩

/-- Minimisation drops what a fragment names as its head or a checkpoint. -/
def samplePartition : Partition Bytes32 Bool where
  graph := sampleGraph
  tree := 0
  fragmentCref head := head + 1000
  codec :=
    { blobMeta := fun _ => ⟨0, 0⟩
      ciphertextRefs := fun _ => none
      sharedCref := fun _ id => id
      hashRefs := fun _ => 0
      itemId := fun _ _ _ => 0
      decodeCommit := fun _ => none
      decodeFragment := fun _ => none
      minimize := fun fragments commits => commits.filter fun c =>
        fragments.all fun f => c.head ≠ f.head ∧ c.head ∉ f.checkpoints }
  walk := boundedWalk 10

theorem lawful_samplePartition : samplePartition.Lawful where
  id_inj := by
    intro x y
    revert x y
    decide +kernel
  id_ne := by decide +kernel
  deps_ne {x i} hi := by
    obtain ⟨-, rfl⟩ := mem_deps_sampleGraph hi
    decide +kernel
  walk := lawful_boundedWalk 10

/-- Each reference is sealed under itself. A fragment carries the first change and ends the
history. -/
def sampleAuthors : Authors Bytes32 Bool where
  keyOf c := c
  rank c := c.toNat
  envelope c :=
    if c = 2 then ⟨[true], [(1, 1)]⟩ else if c = 1 ∨ c = 1001 then ⟨[false], []⟩ else ⟨[], []⟩

theorem mem_ancestors_sampleAuthors {c q k : Bytes32}
    (h : (q, k) ∈ (sampleAuthors.envelope c).ancestors) : c = 2 ∧ q = 1 ∧ k = 1 := by
  simp only [sampleAuthors] at h
  split at h
  next hc => exact ⟨hc, by simpa using h⟩
  next => split at h <;> cases h

theorem honest_sampleAuthors : sampleAuthors.Honest samplePartition where
  keys {c q k} h := by
    obtain ⟨rfl, rfl, rfl⟩ := mem_ancestors_sampleAuthors h
    decide +kernel
  ancestors {c q k} h := by
    obtain ⟨rfl, rfl, rfl⟩ := mem_ancestors_sampleAuthors h
    exact .inr ⟨true, by decide +kernel⟩
  rank_deps {x i} hi := by
    obtain ⟨rfl, rfl⟩ := mem_deps_sampleGraph hi
    decide +kernel
  plaintext := by decide +kernel

/-- The fragment over the first change. -/
def sampleFragment : BundledFragment samplePartition.graph where
  head := 1
  boundary := []
  checkpoints := []
  members := [false]
  head_mem := by decide
  checkpoints_mem := by decide

/-- The second device reads the first one's change, and rolls it up. -/
def rollUp : List (Label Bool samplePartition) :=
  [.write false false 1 ⟨0, []⟩, .receive true [0] [], .absorb true (fun _ => true) [],
    .install true sampleFragment 1001 ⟨0, []⟩]

/-- The devices after that. -/
def rolledUp : Group Bool Bytes32 Bool :=
  Transition.run (Group.step samplePartition) {} rollUp

/-- Then it prunes. -/
def sampleRun : List (Label Bool samplePartition) :=
  rollUp ++ [.prune true]

theorem shelters_rolledUp : Shelters lawful_samplePartition honest_sampleAuthors rolledUp
    (.prune true) := by
  have hdoomed : (rolledUp.replicas true).storage.doomed samplePartition.codec
      samplePartition.tree = [1] := by decide +kernel
  have hheld : (1 : CommitId) ∈
      ((rolledUp.replicas true).storage.tree samplePartition.tree).fragments := by decide +kernel
  have hhead : (1001 : Cref) ∈ (rolledUp.replicas true).heads := by decide +kernel
  have hplain : false ∈ (sampleAuthors.envelope 1001).plaintext := by decide +kernel
  intro i hi
  obtain rfl : i = 1 := by simpa [hdoomed] using hi
  refine ⟨⟨1001, ⟨⟨false, rfl⟩, .inr ⟨1, rfl, hheld⟩, .of_mem hhead⟩, ⟨false, rfl⟩, false, hplain,
    rfl⟩, ?_⟩
  rintro z ⟨x, hx, hz⟩
  obtain ⟨rfl, -⟩ := mem_deps_sampleGraph hz
  exact absurd hx (by decide +kernel)

theorem total_read_back_sampleRun :
    ((Transition.run (Group.step samplePartition) {} sampleRun).replicas true).doc.applied =
        [false] ∧
      ReadBack samplePartition
        ((Transition.run (Group.step samplePartition) {} sampleRun).replicas true) false := by
  have hrollUp : Transition.Meets (Group.step samplePartition)
      (Shelters lawful_samplePartition honest_sampleAuthors) {} rollUp := by
    refine ⟨fun _ => ⟨?_, 1, ?_⟩, trivial, trivial, ⟨?_, fun i hi => ?_⟩, trivial⟩
    · decide +kernel
    · decide +kernel
    · decide +kernel
    · cases hi
  have hmeets : Transition.Meets (Group.step samplePartition)
      (Shelters lawful_samplePartition honest_sampleAuthors) {} sampleRun :=
    Transition.meets_append.2 ⟨hrollUp, shelters_rolledUp, trivial⟩
  have happlied : ((Transition.run (Group.step samplePartition) {} sampleRun).replicas
      true).doc.applied = [false] := by decide +kernel
  refine ⟨happlied,
    total_read_back lawful_samplePartition honest_sampleAuthors sampleRun hmeets true false ?_⟩
  rw [happlied]
  exact List.mem_singleton_self false

/-- The fragment reaches the device that wrote the first change, and goes unopened because its head
is applied there. The next change takes the first one's key off the frontier, and pruning then drops
the first one on the strength of the fragment. -/
theorem received_fragment_strands :
    let r := (Transition.run (Group.step samplePartition) {}
      (sampleRun ++ [.receive false [] [0], .absorb false (fun _ => true) [],
        .write false true 2 ⟨0, []⟩, .prune false])).replicas false
    r.doc.applied = [false, true] ∧ ¬ ReadBack samplePartition r false := by
  intro r
  have hkeys : exportContentKeys r.heads = [(2, 2)] := by decide +kernel
  have hheld : r.held samplePartition =
      [(2, sampleAuthors.ciphertext 2), (1001, sampleAuthors.ciphertext 1001)] := by decide +kernel
  have hrecovers {c k : Bytes32} (h : Recovers samplePartition r c k) : c = 2 ∨ c = 1 := by
    induction h with
    | exported hmem =>
      rw [hkeys] at hmem
      cases List.mem_singleton.1 hmem
      exact .inl rfl
    | @ancestor d k ct env c k' _ hct hopen hc ih =>
      have hct' : ct = sampleAuthors.ciphertext d := by
        rw [hheld] at hct
        rcases List.mem_cons.1 hct with heq | hct
        · cases heq
          rfl
        · cases List.mem_singleton.1 hct
          rfl
      rw [hct', tryDecrypt_ciphertext] at hopen
      cases Except.ok.inj hopen.2
      exact .inr (mem_ancestors_sampleAuthors hc).2.1
  refine ⟨by decide +kernel, ?_⟩
  rintro ⟨c, k, ct, env, hrec, hct, hopen, hmem⟩
  rw [hheld] at hct
  rcases List.mem_cons.1 hct with heq | hct
  · cases heq
    cases Except.ok.inj (tryDecrypt_ciphertext.1 hopen).2
    revert hmem
    decide +kernel
  · cases List.mem_singleton.1 hct
    rcases hrecovers hrec with h | h
    all_goals exact absurd h (by decide +kernel)

end Polyvisor.Private
