import Polyvisor.Engine.PrivateFrontier

/-!
# How small a frontier is

What `Vault::open` and `Vault::open_shared` of `engine/src/vault.rs` leave on the frontier of the
commits they open together. The frontier is meant to hold entry points only: a commit whose key an
envelope of the same batch carries is none.

`advance_heads` keeps whatever arrives with a call, also when the call covers it, and everything
that the epoch key opens arrives. `open_raw` takes the covered commits out of what arrives before
it calls `advance_heads`; the other two do not.

## Main results

* `not_mem_heads_vaultOpen_iff`: when a commit carried within a batch of `open` is no head.
* `not_mem_heads_openShared`: the same of a batch of `open_shared`.
-/

namespace Polyvisor.Minimal

open Std Frontier
open Shared (EpochOpens)
open Private (CausalWalk Opening Walked Opens vaultOpen walkDark walkSeeds decideAncestors)

variable {κ P : Type}

/-! ## Carried commits -/

/-- The envelope of the batch's commit `d` carries the key of its commit `c`. -/
def Carries (batch : List (Cref × Ciphertext κ P)) (d c : Cref) : Prop :=
  ∃ ctd env ctc, (d, ctd) ∈ batch ∧ ctd.plain = .ok env ∧ (c, ctc) ∈ batch ∧
    (c, ctc.key) ∈ env.ancestors

/-- A commit that was opened together with another one whose envelope carries its key. -/
def CarriedWithin (batch : List (Cref × Ciphertext κ P)) (opened : List (Cref × P)) (c : Cref) :
    Prop :=
  c ∈ opened.map Prod.fst ∧ ∃ d ∈ opened.map Prod.fst, d ≠ c ∧ Carries batch d c

/-- What is a head after `advance_heads`. -/
theorem mem_advanceHeads_iff {heads : Heads κ} {arrived : List (Cref × κ)} {covered : List Cref}
    {c : Cref} : c ∈ advanceHeads heads arrived covered ↔
      c ∈ arrived.map Prod.fst ∨ c ∈ heads ∧ c ∉ covered := by
  constructor
  · intro h
    by_cases harrived : c ∈ arrived.map Prod.fst
    · exact .inl harrived
    · rw [← ExtTreeMap.isSome_getElem?_iff_mem, advanceHeads, getElem?_foldl_erase] at h
      split at h
      · cases h
      · rename_i hkept
        have hmem := (mem_foldl_insert heads arrived c).1 (ExtTreeMap.isSome_getElem?_iff_mem.1 h)
        exact .inr ⟨hmem.resolve_left harrived, fun hc => hkept ⟨hc, harrived⟩⟩
  · rintro (h | ⟨h, hc⟩)
    · exact mem_advanceHeads_of_arrived heads covered h
    · exact mem_advanceHeads_of_not_covered arrived h hc

/-- A reference of a batch stands for one ciphertext of it. -/
theorem ciphertext_unique {batch : List (Cref × Ciphertext κ P)}
    (hnodup : (batch.map Prod.fst).Nodup) {c : Cref} {ct ct' : Ciphertext κ P}
    (h : (c, ct) ∈ batch) (h' : (c, ct') ∈ batch) : ct = ct' := by
  have heq := List.inj_on_of_nodup_map hnodup h h' rfl
  exact congrArg Prod.snd heq

theorem lookup_of_mem {batch : List (Cref × Ciphertext κ P)}
    (hnodup : (batch.map Prod.fst).Nodup) {c : Cref} {ct : Ciphertext κ P}
    (h : (c, ct) ∈ batch) : batch.lookup c = some ct := by
  cases hlookup : batch.lookup c with
  | none =>
    rw [List.lookup_eq_none_iff] at hlookup
    simpa using hlookup _ h
  | some ct' => rw [ciphertext_unique hnodup h (mem_of_lookup hlookup)]

theorem exists_lookup {β : Type} {l : List (Cref × β)} {c : Cref} (h : c ∈ l.map Prod.fst) :
    ∃ b, l.lookup c = some b := by
  obtain ⟨item, hitem, rfl⟩ := List.mem_map.1 h
  cases hget : l.lookup item.1 with
  | none =>
    rw [List.lookup_eq_none_iff] at hget
    simpa using hget item hitem
  | some b => exact ⟨b, rfl⟩

/-! ## A batch of a private partition -/

section Private

/-- What the first loop of `open` leaves. -/
structure EpochLoop (epoch : Ciphertext κ P → Bool) (batch : List (Cref × Ciphertext κ P))
    (o : Opening κ P) : Prop where
  reached : o.reached = (batch.filter (epoch ·.2)).map fun (c, ct) => (c, ct.key)
  dark : o.dark = batch.filter (!epoch ·.2)
  opened : o.opened.map Prod.fst = (batch.filter (epoch ·.2)).map Prod.fst
  ancestors : ∀ entry, entry ∈ o.ancestors ↔
    ∃ d ct env, (d, ct) ∈ batch ∧ epoch ct = true ∧ ct.plain = .ok env ∧ entry ∈ env.ancestors
  covered : o.covered = []

theorem epochLoop_nil (epoch : Ciphertext κ P → Bool) : EpochLoop epoch [] {} :=
  ⟨rfl, rfl, rfl, fun _ => by simp, rfl⟩

theorem epochLoop_openEpoch {epoch : Ciphertext κ P → Bool}
    {before rest : List (Cref × Ciphertext κ P)} {o o' : Opening κ P}
    (ho : EpochLoop epoch before o) (h : Private.openEpoch epoch o rest = .ok o') :
    EpochLoop epoch (before ++ rest) o' := by
  induction rest generalizing before o with
  | nil =>
    cases h
    rwa [List.append_nil]
  | cons item rest ih =>
    obtain ⟨cref, encrypted⟩ := item
    have hsplit : before ++ (cref, encrypted) :: rest =
        (before ++ [(cref, encrypted)]) ++ rest := by
      rw [List.append_assoc, List.singleton_append]
    rw [hsplit]
    rw [Private.openEpoch] at h
    by_cases hepoch : epoch encrypted = true
    · rw [if_pos hepoch] at h
      cases hplain : encrypted.plain with
      | error e =>
        rw [hplain] at h
        cases h
      | ok env =>
        rw [hplain] at h
        dsimp only at h
        refine ih ?_ h
        refine ⟨?_, ?_, ?_, fun entry => ?_, ho.covered⟩
        · simp [ho.reached, hepoch]
        · simp [ho.dark, hepoch]
        · simp [ho.opened, hepoch]
        · rw [List.mem_append, ho.ancestors]
          constructor
          · rintro (⟨d, ct, env', hmem, hrest⟩ | hentry)
            · exact ⟨d, ct, env', List.mem_append_left _ hmem, hrest⟩
            · exact ⟨cref, encrypted, env, List.mem_append_right _ List.mem_cons_self, hepoch,
                hplain, hentry⟩
          · rintro ⟨d, ct, env', hmem, hopens, hplain', hentry⟩
            rcases List.mem_append.1 hmem with hmem | hmem
            · exact .inl ⟨d, ct, env', hmem, hopens, hplain', hentry⟩
            · obtain ⟨rfl, rfl⟩ := Prod.mk.inj (List.mem_singleton.1 hmem)
              rw [hplain] at hplain'
              cases hplain'
              exact .inr hentry
    · rw [if_neg hepoch] at h
      refine ih ?_ h
      refine ⟨?_, ?_, ?_, fun entry => ?_, ho.covered⟩
      · simp [ho.reached, hepoch]
      · simp [ho.dark, hepoch]
      · simp [ho.opened, hepoch]
      · rw [ho.ancestors]
        constructor
        · rintro ⟨d, ct, env', hmem, hrest⟩
          exact ⟨d, ct, env', List.mem_append_left _ hmem, hrest⟩
        · rintro ⟨d, ct, env', hmem, hopens, hrest⟩
          rcases List.mem_append.1 hmem with hmem | hmem
          · exact ⟨d, ct, env', hmem, hopens, hrest⟩
          · obtain ⟨rfl, rfl⟩ := Prod.mk.inj (List.mem_singleton.1 hmem)
            exact absurd hopens hepoch

variable (walk : CausalWalk κ P) (epoch : Ciphertext κ P → Bool)
  (store : Cref → Option (Ciphertext κ P)) (heads : Heads κ)
  (batch : List (Cref × Ciphertext κ P)) (known : List Cref)

/-- Where the walk of a batch starts: at what is dark and has a held key, and at what the epoch
opens. -/
def entries : List (Ciphertext κ P × κ) :=
  ((batch.filter (!epoch ·.2)).filterMap fun (c, ct) => heads[c]?.map fun key => (ct, key)) ++
    (batch.filter (epoch ·.2)).map fun (_, ct) => (ct, ct.key)

/-- What the walk answers. It starts only where something is dark and there is an entry. -/
def answer : Walked κ P :=
  if (batch.filter (!epoch ·.2)).isEmpty || (entries epoch heads batch).isEmpty then {}
  else walk store (entries epoch heads batch)

/-- What takes a commit off the frontier that the epoch key does not open: an envelope that the
epoch key opens names it, the walk reports it as missing from the ciphertext store, or the walk
opens it without starting at it. -/
def Covers (c : Cref) : Prop :=
  (∃ d ct env, (d, ct) ∈ batch ∧ epoch ct = true ∧ ct.plain = .ok env ∧
      c ∈ env.ancestors.map Prod.fst) ∨
    c ∈ (answer walk epoch store heads batch).next.map Prod.fst ∨
    c ∉ (entries epoch heads batch).map fun seed => seed.1.contentRef

variable {walk epoch store heads batch known}

theorem walkSeeds_eq (hnodup : (batch.map Prod.fst).Nodup) {o : Opening κ P}
    (ho : EpochLoop epoch batch o) : walkSeeds heads batch o = entries epoch heads batch := by
  rw [walkSeeds, entries, ho.dark, ho.reached, List.filterMap_map]
  congr 1
  rw [← List.filterMap_eq_map]
  refine List.filterMap_congr fun item hitem => ?_
  obtain ⟨c, ct⟩ := item
  have hmem : (c, ct) ∈ batch := List.mem_of_mem_filter hitem
  simp [lookup_of_mem hnodup hmem]

/-- What `open` has read once the walk is over. -/
structure WalkLoop (walk : CausalWalk κ P) (epoch : Ciphertext κ P → Bool)
    (store : Cref → Option (Ciphertext κ P)) (heads : Heads κ)
    (batch : List (Cref × Ciphertext κ P)) (o : Opening κ P) : Prop where
  reached : o.reached = (batch.filter (epoch ·.2)).map fun (c, ct) => (c, ct.key)
  opened : ∀ c, c ∈ o.opened.map Prod.fst ↔ EpochOpens batch epoch c ∨
    EpochOpens batch (!epoch ·) c ∧
      c ∈ (answer walk epoch store heads batch).complete.map Prod.fst
  ancestors : ∀ c, c ∈ o.ancestors.map Prod.fst ↔
    (∃ d ct env, (d, ct) ∈ batch ∧ epoch ct = true ∧ ct.plain = .ok env ∧
        c ∈ env.ancestors.map Prod.fst) ∨
      c ∈ (answer walk epoch store heads batch).next.map Prod.fst
  covered : ∀ c, c ∈ o.covered ↔
    c ∈ (answer walk epoch store heads batch).complete.map Prod.fst ∧
      c ∉ (entries epoch heads batch).map fun seed => seed.1.contentRef

theorem mem_map_fst_filter {p : Ciphertext κ P → Bool} {c : Cref} :
    c ∈ (batch.filter (p ·.2)).map Prod.fst ↔ EpochOpens batch p c := by
  simp only [List.mem_map, List.mem_filter]
  constructor
  · rintro ⟨⟨c, ct⟩, ⟨hmem, hp⟩, rfl⟩
    exact ⟨ct, hmem, hp⟩
  · rintro ⟨ct, hmem, hp⟩
    exact ⟨(c, ct), ⟨hmem, hp⟩, rfl⟩

theorem EpochLoop.mem_ancestors {o : Opening κ P} (ho : EpochLoop epoch batch o) (c : Cref) :
    c ∈ o.ancestors.map Prod.fst ↔ ∃ d ct env, (d, ct) ∈ batch ∧ epoch ct = true ∧
      ct.plain = .ok env ∧ c ∈ env.ancestors.map Prod.fst := by
  constructor
  · intro h
    obtain ⟨entry, hentry, rfl⟩ := List.mem_map.1 h
    obtain ⟨d, ct, env, hmem, hopens, hplain, hanc⟩ := (ho.ancestors entry).1 hentry
    exact ⟨d, ct, env, hmem, hopens, hplain, List.mem_map_of_mem hanc⟩
  · rintro ⟨d, ct, env, hmem, hopens, hplain, hanc⟩
    obtain ⟨entry, hentry, rfl⟩ := List.mem_map.1 hanc
    exact List.mem_map_of_mem ((ho.ancestors entry).2 ⟨d, ct, env, hmem, hopens, hplain, hentry⟩)

theorem walkLoop_walkDark (hnodup : (batch.map Prod.fst).Nodup) {o : Opening κ P}
    (ho : EpochLoop epoch batch o) :
    WalkLoop walk epoch store heads batch (walkDark walk store heads batch o) := by
  have hopened (c : Cref) : c ∈ o.opened.map Prod.fst ↔ EpochOpens batch epoch c := by
    rw [ho.opened, mem_map_fst_filter]
  rw [walkDark, walkSeeds_eq hnodup ho]
  by_cases hskip : (o.dark.isEmpty || (entries epoch heads batch).isEmpty) = true
  · have hanswer : answer walk epoch store heads batch = {} := by
      rw [ho.dark] at hskip
      exact if_pos hskip
    simp only [hskip, if_true]
    refine ⟨ho.reached, fun c => ?_, fun c => ?_, fun c => ?_⟩
    · rw [hopened, hanswer]
      simp
    · rw [ho.mem_ancestors, hanswer]
      simp
    · rw [ho.covered, hanswer]
      simp
  · have hanswer : answer walk epoch store heads batch =
        walk store (entries epoch heads batch) := by
      rw [ho.dark] at hskip
      exact if_neg hskip
    simp only [hskip, Bool.false_eq_true, if_false]
    refine ⟨ho.reached, fun c => ?_, fun c => ?_, fun c => ?_⟩
    · rw [List.map_append, List.mem_append, hopened, hanswer]
      refine or_congr_right ?_
      constructor
      · intro h
        obtain ⟨item, hitem, rfl⟩ := List.mem_map.1 h
        obtain ⟨⟨cref, encrypted⟩, hmem, hlookup⟩ := List.mem_filterMap.1 hitem
        obtain ⟨plain, hget, rfl⟩ := Option.map_eq_some_iff.1 hlookup
        rw [ho.dark, List.mem_filter] at hmem
        exact ⟨⟨encrypted, hmem⟩, List.mem_map_of_mem (mem_of_lookup hget)⟩
      · rintro ⟨⟨ct, hmem, hdark⟩, hcomplete⟩
        obtain ⟨plain, hget⟩ := exists_lookup hcomplete
        refine List.mem_map.2 ⟨(c, plain), List.mem_filterMap.2 ⟨(c, ct), ?_, ?_⟩, rfl⟩
        · rw [ho.dark, List.mem_filter]
          exact ⟨hmem, hdark⟩
        · simp [hget]
    · rw [List.map_append, List.mem_append, ho.mem_ancestors, hanswer]
    · simp [ho.covered, hanswer]

theorem mem_reached_decideAncestors {o : Opening κ P} {c : Cref} :
    c ∈ (decideAncestors heads known o).reached.map Prod.fst ↔ c ∈ o.reached.map Prod.fst ∨
      c ∈ o.ancestors.map Prod.fst ∧
        ¬ (c ∈ o.opened.map Prod.fst ∨ c ∈ heads ∨ c ∈ known) := by
  rw [decideAncestors, List.map_append, List.mem_append]
  refine or_congr_right ?_
  constructor
  · intro h
    obtain ⟨entry, hentry, rfl⟩ := List.mem_map.1 h
    obtain ⟨hmem, hnot⟩ := List.mem_filter.1 hentry
    refine ⟨List.mem_map_of_mem hmem, ?_⟩
    simpa only [Bool.not_eq_true', Bool.or_eq_false_iff, decide_eq_false_iff_not, not_or,
      and_assoc] using hnot
  · rintro ⟨h, hnot⟩
    obtain ⟨entry, hentry, rfl⟩ := List.mem_map.1 h
    refine List.mem_map_of_mem (List.mem_filter.2 ⟨hentry, ?_⟩)
    simpa only [Bool.not_eq_true', Bool.or_eq_false_iff, decide_eq_false_iff_not, not_or,
      and_assoc] using hnot

theorem mem_covered_decideAncestors {o : Opening κ P} {c : Cref} :
    c ∈ (decideAncestors heads known o).covered ↔ c ∈ o.covered ∨
      c ∈ o.ancestors.map Prod.fst ∧ (c ∈ o.opened.map Prod.fst ∨ c ∈ heads ∨ c ∈ known) := by
  rw [decideAncestors, List.mem_append, List.mem_filter]
  simp only [Bool.or_eq_true, decide_eq_true_eq, or_assoc]

/-- When a commit that another commit of the same batch carries is no head after `open`: iff the
epoch key does not open it, and if it was a head before, something takes it off. -/
theorem not_mem_heads_vaultOpen_iff (hnodup : (batch.map Prod.fst).Nodup) {heads' : Heads κ}
    {opened : List (Cref × P)}
    (h : vaultOpen walk epoch store heads batch known = .ok (heads', opened)) {c : Cref}
    (hc : CarriedWithin batch opened c) :
    c ∉ heads' ↔ ¬ EpochOpens batch epoch c ∧
      (c ∈ heads → Covers walk epoch store heads batch c) := by
  rw [vaultOpen] at h
  cases hopen : Private.openEpoch epoch {} batch with
  | error e =>
    rw [hopen] at h
    cases h
  | ok o =>
    rw [hopen] at h
    cases h
    have hloop : EpochLoop epoch batch o := epochLoop_openEpoch (epochLoop_nil epoch) hopen
    have hwalk : WalkLoop walk epoch store heads batch (walkDark walk store heads batch o) :=
      walkLoop_walkDark hnodup hloop
    generalize walkDark walk store heads batch o = w at hwalk hc
    have hnow : c ∈ w.opened.map Prod.fst := hc.1
    -- what was opened is not among the ancestors that become heads
    have hreached : c ∈ (decideAncestors heads known w).reached.map Prod.fst ↔
        EpochOpens batch epoch c := by
      rw [mem_reached_decideAncestors, hwalk.reached, List.map_map]
      exact Iff.trans (or_iff_left fun h => h.2 (.inl hnow)) mem_map_fst_filter
    have hcovered : c ∈ (decideAncestors heads known w).covered ↔
        c ∈ w.covered ∨ c ∈ w.ancestors.map Prod.fst := by
      rw [mem_covered_decideAncestors, and_iff_left (.inl hnow)]
    rw [mem_advanceHeads_iff, hreached, hcovered, not_or]
    refine and_congr_right fun hepoch => ?_
    have hcomplete := (((hwalk.opened c).1 hnow).resolve_left hepoch).2
    rw [hwalk.covered, hwalk.ancestors, Covers, and_iff_right hcomplete, not_and, not_not,
      or_comm, or_assoc]

end Private

/-! ## A batch of a shareable document -/

section Shared

open Shared (Walk pop seeds openWalk openShared readEnvelope readEnvelope_ok turns walk_exhausts)

variable {epoch : Ciphertext κ P → Bool} {heads : Heads κ} {batch : List (Cref × Ciphertext κ P)}
  {known : List Cref} {parents : ExtTreeMap Cref (List Cref)} {order : List Cref}

theorem contains_iff {w : Walk κ P} {c : Cref} :
    w.contains c = true ↔ c ∈ w.opened.map Prod.fst := by
  simp [Walk.contains]

theorem contains_opened {w : Walk κ P} {queue : List (Cref × κ)} {cref c : Cref} {plain : P} :
    ({ w with queue, opened := w.opened ++ [(cref, plain)] } : Walk κ P).contains c = true ↔
      w.contains c = true ∨ cref = c := by
  rw [Shared.contains_open, Bool.or_eq_true, decide_eq_true_iff]

/-- What the first loop of `open_shared` leaves. -/
structure SharedLoop (epoch : Ciphertext κ P → Bool) (batch : List (Cref × Ciphertext κ P))
    (w : Walk κ P) : Prop where
  reached : w.reached.map Prod.fst = (batch.filter (epoch ·.2)).map Prod.fst
  opened : w.opened.map Prod.fst = (batch.filter (epoch ·.2)).map Prod.fst
  queue : ∀ d ct env, (d, ct) ∈ batch → epoch ct = true → ct.plain = .ok env →
    env.ancestors ⊆ w.queue
  queued : ∀ entry ∈ w.queue, ∃ item ∈ batch, ∃ env, item.2.plain = .ok env ∧
    entry ∈ env.ancestors
  covered : w.covered = []

theorem sharedLoop_openEpoch {before rest : List (Cref × Ciphertext κ P)} {w w' : Walk κ P}
    (hw : SharedLoop epoch before w) (h : Shared.openEpoch epoch parents w rest = .ok w') :
    SharedLoop epoch (before ++ rest) w' := by
  induction rest generalizing before w with
  | nil =>
    cases h
    rwa [List.append_nil]
  | cons item rest ih =>
    obtain ⟨cref, encrypted⟩ := item
    have hsplit : before ++ (cref, encrypted) :: rest =
        (before ++ [(cref, encrypted)]) ++ rest := by
      rw [List.append_assoc, List.singleton_append]
    rw [hsplit]
    rw [Shared.openEpoch] at h
    split at h
    · cases h
    by_cases hepoch : epoch encrypted = true
    · rw [if_pos hepoch] at h
      cases henv : readEnvelope parents cref encrypted.plain with
      | error e =>
        rw [henv] at h
        cases h
      | ok env =>
        rw [henv] at h
        have hplain := readEnvelope_ok henv
        refine ih ?_ h
        refine ⟨?_, ?_, fun d ct env' hmem hopens hplain' => ?_, fun entry hentry => ?_, hw.covered⟩
        · simp [hw.reached, hepoch]
        · simp [hw.opened, hepoch]
        · rcases List.mem_append.1 hmem with hmem | hmem
          · exact List.subset_append_of_subset_left _ (hw.queue d ct env' hmem hopens hplain')
          · obtain ⟨rfl, rfl⟩ := Prod.mk.inj (List.mem_singleton.1 hmem)
            rw [hplain] at hplain'
            cases hplain'
            exact List.subset_append_right _ _
        · rcases List.mem_append.1 hentry with hentry | hentry
          · obtain ⟨item, hitem, hrest⟩ := hw.queued entry hentry
            exact ⟨item, List.mem_append_left _ hitem, hrest⟩
          · exact ⟨_, List.mem_append_right _ List.mem_cons_self, env, hplain, hentry⟩
    · rw [if_neg hepoch] at h
      refine ih ?_ h
      refine ⟨?_, ?_, fun d ct env' hmem hopens hplain' => ?_, fun entry hentry => ?_, hw.covered⟩
      · simp [hw.reached, hepoch]
      · simp [hw.opened, hepoch]
      · rcases List.mem_append.1 hmem with hmem | hmem
        · exact hw.queue d ct env' hmem hopens hplain'
        · obtain ⟨rfl, rfl⟩ := Prod.mk.inj (List.mem_singleton.1 hmem)
          exact absurd hopens hepoch
      · obtain ⟨item, hitem, hrest⟩ := hw.queued entry hentry
        exact ⟨item, List.mem_append_left _ hitem, hrest⟩

variable [DecidableEq κ]

/-- What every turn of the queue keeps. -/
structure WalkInv (epoch : Ciphertext κ P → Bool) (batch : List (Cref × Ciphertext κ P))
    (w : Walk κ P) : Prop where
  /-- What arrives is opened by the epoch or not in the batch. -/
  reached : ∀ c, c ∈ w.reached.map Prod.fst →
    EpochOpens batch epoch c ∨ c ∉ batch.map Prod.fst
  epoch : ∀ c, EpochOpens batch epoch c → c ∈ w.reached.map Prod.fst ∧ w.contains c = true
  opened : ∀ c, w.contains c = true → c ∈ batch.map Prod.fst
  /-- A key an opened envelope carries is still to come up, or what it opens is open, or it is for
  something else. -/
  carried : ∀ d ct env, w.contains d = true → (d, ct) ∈ batch → ct.plain = .ok env →
    ∀ c k, (c, k) ∈ env.ancestors → (c, k) ∈ w.queue ∨ w.contains c = true ∨
      (c, k) ∈ w.reached ∧ c ∉ batch.map Prod.fst ∨ ∃ ct', (c, ct') ∈ batch ∧ k ≠ ct'.key

/-- An envelope of another commit, open already, carries the key of `c`. -/
def OpenCarries (batch : List (Cref × Ciphertext κ P)) (w : Walk κ P) (c : Cref) : Prop :=
  ∃ d, d ≠ c ∧ w.contains d = true ∧ Carries batch d c

/-- Where a commit stands that was a head under its key and that the epoch does not open: it is
covered; or it waits in the queue for its own key, and for another one if an open envelope carries
it; or it is open, and comes up again if an open envelope carries it. -/
def Pending (batch : List (Cref × Ciphertext κ P)) (c : Cref) (key : κ) (w : Walk κ P) : Prop :=
  c ∈ w.covered ∨
    w.contains c = false ∧ 1 ≤ w.queue.count (c, key) ∧
      (OpenCarries batch w c → 2 ≤ w.queue.count (c, key)) ∨
    w.contains c = true ∧ (OpenCarries batch w c → c ∈ w.queue.map Prod.fst)

/-- A turn of the queue, by what it does with the entry. -/
theorem pop_cases {w w' : Walk κ P} {cref : Cref} {key : κ} {queue : List (Cref × κ)}
    (h : pop batch parents w cref key queue = .ok w') :
    (w.contains cref = true ∧ w' = { w with queue, covered := w.covered ++ [cref] }) ∨
    (w.contains cref = false ∧ cref ∉ batch.map Prod.fst ∧
      w' = { w with queue, reached := w.reached ++ [(cref, key)] }) ∨
    (w.contains cref = false ∧ ∃ ct, (cref, ct) ∈ batch ∧ batch.lookup cref = some ct ∧
      (key ≠ ct.key ∧ w' = { w with queue } ∨
        key = ct.key ∧ ∃ env, ct.plain = .ok env ∧ w' = { w with
          queue := queue ++ env.ancestors
          opened := w.opened ++ [(cref, env.plaintext)] })) := by
  rw [pop] at h
  by_cases hopen : w.contains cref = true
  · rw [if_pos hopen] at h
    cases h
    exact .inl ⟨hopen, rfl⟩
  rw [if_neg hopen] at h
  rw [Bool.not_eq_true] at hopen
  refine .inr ?_
  cases hlookup : batch.lookup cref with
  | none =>
    rw [hlookup] at h
    cases h
    refine .inl ⟨hopen, fun hmem => ?_, rfl⟩
    obtain ⟨item, hitem, rfl⟩ := List.mem_map.1 hmem
    rw [List.lookup_eq_none_iff] at hlookup
    simpa using hlookup _ hitem
  | some ct =>
    rw [hlookup] at h
    refine .inr ⟨hopen, ct, mem_of_lookup hlookup, rfl, ?_⟩
    dsimp only at h
    rw [Ciphertext.tryDecrypt] at h
    by_cases hkey : key = ct.key
    · rw [if_pos hkey] at h
      dsimp only at h
      cases henv : readEnvelope parents cref ct.plain with
      | error e =>
        rw [henv] at h
        cases h
      | ok env =>
        rw [henv] at h
        cases h
        exact .inr ⟨hkey, env, readEnvelope_ok henv, rfl⟩
    · rw [if_neg hkey] at h
      cases h
      exact .inl ⟨hkey, rfl⟩

theorem walkInv_pop (hnodup : (batch.map Prod.fst).Nodup) {w w' : Walk κ P} {cref : Cref} {key : κ}
    {queue : List (Cref × κ)} (hqueue : w.queue = (cref, key) :: queue)
    (hw : WalkInv epoch batch w) (h : pop batch parents w cref key queue = .ok w') :
    WalkInv epoch batch w' := by
  have hin {c : Cref} {k : κ} (hmem : (c, k) ∈ w.queue) :
      (c, k) = (cref, key) ∨ (c, k) ∈ queue := by
    rwa [hqueue, List.mem_cons] at hmem
  rcases pop_cases h with ⟨hopen, rfl⟩ | ⟨hopen, hout, rfl⟩ |
    ⟨hopen, ct₀, hmem₀, -, ⟨hkey, rfl⟩ | ⟨hkey, env₀, hplain₀, rfl⟩⟩
  · refine ⟨hw.reached, hw.epoch, hw.opened, fun d ct env hd hmem hplain c k hanc => ?_⟩
    rcases hw.carried d ct env hd hmem hplain c k hanc with hin' | hrest
    · rcases hin hin' with heq | hlater
      · obtain ⟨rfl, rfl⟩ := Prod.mk.inj heq
        exact .inr (.inl hopen)
      · exact .inl hlater
    · exact .inr hrest
  · refine ⟨fun c hc => ?_, fun c hc => ⟨?_, (hw.epoch c hc).2⟩, hw.opened,
      fun d ct env hd hmem hplain c k hanc => ?_⟩
    · rw [List.map_append, List.mem_append] at hc
      rcases hc with hc | hc
      · exact hw.reached c hc
      · rw [List.map_singleton, List.mem_singleton] at hc
        exact .inr (hc ▸ hout)
    · rw [List.map_append, List.mem_append]
      exact .inl (hw.epoch c hc).1
    · rcases hw.carried d ct env hd hmem hplain c k hanc with
        hin' | hopen' | ⟨hreached, hno⟩ | hrest
      · rcases hin hin' with heq | hlater
        · obtain ⟨rfl, rfl⟩ := Prod.mk.inj heq
          exact .inr (.inr (.inl ⟨List.mem_append_right _ List.mem_cons_self, hout⟩))
        · exact .inl hlater
      · exact .inr (.inl hopen')
      · exact .inr (.inr (.inl ⟨List.mem_append_left _ hreached, hno⟩))
      · exact .inr (.inr (.inr hrest))
  · refine ⟨hw.reached, hw.epoch, hw.opened, fun d ct env hd hmem hplain c k hanc => ?_⟩
    rcases hw.carried d ct env hd hmem hplain c k hanc with hin' | hrest
    · rcases hin hin' with heq | hlater
      · obtain ⟨rfl, rfl⟩ := Prod.mk.inj heq
        exact .inr (.inr (.inr ⟨ct₀, hmem₀, hkey⟩))
      · exact .inl hlater
    · exact .inr hrest
  · refine ⟨hw.reached, fun c hc => ⟨(hw.epoch c hc).1, contains_opened.2 (.inl (hw.epoch c hc).2)⟩,
      fun c hc => ?_, fun d ct env hd hmem hplain c k hanc => ?_⟩
    · rcases contains_opened.1 hc with hc | rfl
      · exact hw.opened c hc
      · exact List.mem_map_of_mem hmem₀
    · rcases contains_opened.1 hd with hd | rfl
      · rcases hw.carried d ct env hd hmem hplain c k hanc with hin' | hopen' | hrest
        · rcases hin hin' with heq | hlater
          · obtain ⟨rfl, rfl⟩ := Prod.mk.inj heq
            exact .inr (.inl (contains_opened.2 (.inr rfl)))
          · exact .inl (List.mem_append_left _ hlater)
        · exact .inr (.inl (contains_opened.2 (.inl hopen')))
        · exact .inr (.inr hrest)
      · obtain rfl := ciphertext_unique hnodup hmem hmem₀
        rw [hplain] at hplain₀
        cases hplain₀
        exact .inl (List.mem_append_right _ hanc)

/-- A turn of the queue keeps a pending commit pending. -/
theorem pending_pop (hnodup : (batch.map Prod.fst).Nodup) {w w' : Walk κ P} {cref : Cref} {key : κ}
    {queue : List (Cref × κ)} (hqueue : w.queue = (cref, key) :: queue) {c : Cref}
    {ct : Ciphertext κ P} (hmem : (c, ct) ∈ batch) (hp : Pending batch c ct.key w)
    (h : pop batch parents w cref key queue = .ok w') : Pending batch c ct.key w' := by
  have hcount : w.queue.count (c, ct.key) =
      queue.count (c, ct.key) + if cref = c ∧ key = ct.key then 1 else 0 := by
    rw [hqueue, List.count_cons]
    congr 1
    by_cases heq : cref = c ∧ key = ct.key
    · rw [if_pos heq, heq.1, heq.2]
      simp
    · rw [if_neg heq, if_neg]
      simpa using heq
  have hwaits (hne : cref ≠ c) (hin : c ∈ w.queue.map Prod.fst) : c ∈ queue.map Prod.fst := by
    rw [hqueue, List.map_cons, List.mem_cons] at hin
    exact hin.resolve_left fun heq => hne heq.symm
  rcases pop_cases h with ⟨hopen, rfl⟩ | ⟨hopen, hout, rfl⟩ |
    ⟨hopen, ct₀, hmem₀, -, ⟨hkey, rfl⟩ | ⟨hkey, env₀, hplain₀, rfl⟩⟩
  · by_cases heq : cref = c
    · exact .inl (heq ▸ List.mem_append_right _ List.mem_cons_self)
    rcases hp with hp | ⟨hclosed, hone, htwo⟩ | ⟨hclosed, hwait⟩
    · exact .inl (List.mem_append_left _ hp)
    · rw [hcount, if_neg fun hboth => heq hboth.1] at hone htwo
      exact .inr (.inl ⟨hclosed, hone, htwo⟩)
    · exact .inr (.inr ⟨hclosed, fun hcarries => hwaits heq (hwait hcarries)⟩)
  · -- what is not in the batch is another commit
    have heq : cref ≠ c := fun heq => hout (heq ▸ List.mem_map_of_mem hmem)
    rcases hp with hp | ⟨hclosed, hone, htwo⟩ | ⟨hclosed, hwait⟩
    · exact .inl hp
    · rw [hcount, if_neg fun hboth => heq hboth.1] at hone htwo
      exact .inr (.inl ⟨hclosed, hone, htwo⟩)
    · exact .inr (.inr ⟨hclosed, fun hcarries => hwaits heq (hwait hcarries)⟩)
  · -- the key is not the commit's own
    have hother : ¬ (cref = c ∧ key = ct.key) := by
      rintro ⟨rfl, heq⟩
      exact hkey (ciphertext_unique hnodup hmem₀ hmem ▸ heq)
    rcases hp with hp | ⟨hclosed, hone, htwo⟩ | ⟨hclosed, hwait⟩
    · exact .inl hp
    · rw [hcount, if_neg hother] at hone htwo
      exact .inr (.inl ⟨hclosed, hone, htwo⟩)
    · have heq : cref ≠ c := by
        rintro rfl
        rw [hopen] at hclosed
        cases hclosed
      exact .inr (.inr ⟨hclosed, fun hcarries => hwaits heq (hwait hcarries)⟩)
  · -- an envelope is opened
    by_cases heq : cref = c
    · -- it is the commit's own: the one more entry it had is still to come up
      subst heq
      rcases hp with hp | ⟨-, -, htwo⟩ | ⟨hclosed, -⟩
      · exact .inl hp
      · refine .inr (.inr ⟨contains_opened.2 (.inr rfl), ?_⟩)
        rintro ⟨d, hne, hd, hcarries⟩
        have hd : w.contains d = true :=
          (contains_opened.1 hd).resolve_right fun heq => hne heq.symm
        have hleft := htwo ⟨d, hne, hd, hcarries⟩
        rw [hcount] at hleft
        have hpos : 0 < queue.count (cref, ct.key) := by
          split at hleft <;> omega
        have hin := List.count_pos_iff.1 hpos
        rw [List.map_append]
        exact List.mem_append_left _ (List.mem_map_of_mem hin)
      · rw [hopen] at hclosed
        cases hclosed
    · have hclosed' : ({ w with
          queue := queue ++ env₀.ancestors
          opened := w.opened ++ [(cref, env₀.plaintext)] } : Walk κ P).contains c =
          w.contains c := by
        rw [Shared.contains_open]
        simp [heq]
      -- either an envelope that carries it was open before, or it is the one opened now
      have hold : OpenCarries batch ({ w with
          queue := queue ++ env₀.ancestors
          opened := w.opened ++ [(cref, env₀.plaintext)] } : Walk κ P) c →
          OpenCarries batch w c ∨ (c, ct.key) ∈ env₀.ancestors := by
        rintro ⟨d, hne, hd, hcarries⟩
        rcases contains_opened.1 hd with hd | rfl
        · exact .inl ⟨d, hne, hd, hcarries⟩
        · obtain ⟨ctd, env, ctc, hmemd, hplain, hmemc, hanc⟩ := hcarries
          obtain rfl := ciphertext_unique hnodup hmemd hmem₀
          obtain rfl := ciphertext_unique hnodup hmemc hmem
          rw [hplain] at hplain₀
          cases hplain₀
          exact .inr hanc
      rcases hp with hp | ⟨hclosed, hone, htwo⟩ | ⟨hclosed, hwait⟩
      · exact .inl hp
      · rw [hcount, if_neg fun hboth => heq hboth.1] at hone htwo
        refine .inr (.inl ⟨hclosed'.trans hclosed, ?_, fun hcarries => ?_⟩)
        · rw [List.count_append]
          omega
        · rw [List.count_append]
          rcases hold hcarries with hbefore | hanc
          · have := htwo hbefore
            omega
          · have := List.count_pos_iff.2 hanc
            omega
      · refine .inr (.inr ⟨hclosed'.trans hclosed, fun hcarries => ?_⟩)
        rw [List.map_append, List.mem_append]
        rcases hold hcarries with hbefore | hanc
        · exact .inl (hwaits heq (hwait hbefore))
        · exact .inr (List.mem_map_of_mem hanc)

/-- What every turn keeps, the whole walk keeps. -/
theorem walk_keeps {I : Walk κ P → Prop}
    (hpop : ∀ w w' cref key queue, w.queue = (cref, key) :: queue → I w →
      pop batch parents w cref key queue = .ok w' → I w')
    {fuel : ℕ} {w w' : Walk κ P} (hw : I w)
    (h : Shared.walk batch parents fuel w = .ok w') : I w' := by
  induction fuel generalizing w with
  | zero =>
    cases h
    exact hw
  | succ fuel ih =>
    rw [Shared.walk] at h
    cases hqueue : w.queue with
    | nil =>
      rw [hqueue] at h
      cases h
      exact hw
    | cons entry queue =>
      obtain ⟨cref, key⟩ := entry
      rw [hqueue] at h
      dsimp only at h
      cases hturn : pop batch parents w cref key queue with
      | error e =>
        rw [hturn] at h
        cases h
      | ok w₁ =>
        rw [hturn] at h
        exact ih (hpop w w₁ cref key queue hqueue hw hturn) h

omit [DecidableEq κ] in
theorem mem_seeds {c : Cref} {k : κ} (hbatch : c ∈ batch.map Prod.fst)
    (hheads : heads[c]? = some k) : (c, k) ∈ seeds heads batch order := by
  have hkeys : c ∈ heads.keys :=
    ExtTreeMap.mem_keys.2 (ExtTreeMap.isSome_getElem?_iff_mem.1 (by rw [hheads]; rfl))
  rw [seeds, List.mem_filterMap]
  refine ⟨c, List.mem_dedup.2 (List.mem_append_right _ hkeys), ?_⟩
  obtain ⟨ct, hlookup⟩ := exists_lookup hbatch
  simp [hlookup, hheads]

/-- A walk up to its end, from what its start has and every turn keeps. -/
theorem openWalk_keeps {I : Walk κ P → Prop}
    (hpop : ∀ w w' cref key queue, w.queue = (cref, key) :: queue → I w →
      pop batch parents w cref key queue = .ok w' → I w')
    (hstart : ∀ w, SharedLoop epoch batch w →
      I { w with queue := w.queue ++ seeds heads batch order })
    {w : Walk κ P} (h : openWalk heads batch epoch parents order = .ok w) :
    I w ∧ w.queue = [] := by
  rw [openWalk] at h
  cases hepoch : Shared.openEpoch epoch parents {} batch with
  | error e =>
    rw [hepoch] at h
    cases h
  | ok w₀ =>
    rw [hepoch] at h
    have hnil : SharedLoop epoch [] ({} : Walk κ P) :=
      ⟨rfl, rfl, fun _ _ _ hmem => (List.not_mem_nil hmem).elim,
        fun _ hentry => (List.not_mem_nil hentry).elim, rfl⟩
    have hloop : SharedLoop epoch batch w₀ := sharedLoop_openEpoch hnil hepoch
    exact ⟨walk_keeps hpop (hstart w₀ hloop) h, walk_exhausts le_rfl h⟩

omit [DecidableEq κ] in
theorem walkInv_start (hnodup : (batch.map Prod.fst).Nodup) {w : Walk κ P}
    (hw : SharedLoop epoch batch w) :
    WalkInv epoch batch { w with queue := w.queue ++ seeds heads batch order } := by
  have hmem (c : Cref) : w.contains c = true ↔ EpochOpens batch epoch c := by
    rw [contains_iff, hw.opened, mem_map_fst_filter]
  refine ⟨fun c hc => ?_, fun c hc => ⟨?_, (hmem c).2 hc⟩, fun c hc => ?_,
    fun d ct env hd hd' hplain c k hanc => ?_⟩
  · exact .inl (mem_map_fst_filter.1 (hw.reached ▸ hc))
  · change c ∈ w.reached.map Prod.fst
    rw [hw.reached]
    exact mem_map_fst_filter.2 hc
  · obtain ⟨ct, hct, -⟩ := (hmem c).1 hc
    exact List.mem_map_of_mem hct
  · obtain ⟨ct', hct', hopens⟩ := (hmem d).1 hd
    obtain rfl := ciphertext_unique hnodup hd' hct'
    exact .inl (List.mem_append_left _ (hw.queue d ct env hd' hopens hplain hanc))

/-- A commit on the frontier under its own key starts pending. -/
theorem pending_start (hnodup : (batch.map Prod.fst).Nodup) {w : Walk κ P}
    (hw : SharedLoop epoch batch w) {c : Cref} {ct : Ciphertext κ P} (hmem : (c, ct) ∈ batch)
    (hepoch : ¬ EpochOpens batch epoch c) (hheads : heads[c]? = some ct.key) :
    Pending batch c ct.key { w with queue := w.queue ++ seeds heads batch order } := by
  have hopens (d : Cref) : w.contains d = true ↔ EpochOpens batch epoch d := by
    rw [contains_iff, hw.opened, mem_map_fst_filter]
  have hseed : 1 ≤ (seeds heads batch order).count (c, ct.key) :=
    List.count_pos_iff.2 (mem_seeds (List.mem_map_of_mem hmem) hheads)
  refine .inr (.inl ⟨?_, ?_, ?_⟩)
  · rw [← Bool.not_eq_true]
    exact fun h => hepoch ((hopens c).1 h)
  · rw [List.count_append]
    omega
  · rintro ⟨d, -, hd, ctd, env, ctc, hmemd, hplain, hmemc, hanc⟩
    obtain ⟨ct', hct', hepochd⟩ := (hopens d).1 hd
    obtain rfl := ciphertext_unique hnodup hmemd hct'
    obtain rfl := ciphertext_unique hnodup hmemc hmem
    have hqueue := List.count_pos_iff.2 (hw.queue d ctd env hmemd hepochd hplain hanc)
    rw [List.count_append]
    omega

/-- When a commit that another commit of the same batch carries is no head after `open_shared`: only
if the epoch key does not open it, and if that is so, at least when it was no head before, or one
that the caller has applied, or one under the key that opens it. -/
theorem not_mem_heads_openShared (hnodup : (batch.map Prod.fst).Nodup) {heads' : Heads κ}
    {opened : List (Cref × P)}
    (h : openShared heads batch epoch known parents order = .ok (heads', opened)) {c : Cref}
    (hc : CarriedWithin batch opened c) :
    (c ∉ heads' → ¬ EpochOpens batch epoch c) ∧
      (¬ EpochOpens batch epoch c → (c ∈ heads → c ∈ known ∨
        ∃ ct, (c, ct) ∈ batch ∧ heads[c]? = some ct.key) → c ∉ heads') := by
  rw [openShared] at h
  cases hwalk : openWalk heads batch epoch parents order with
  | error e =>
    rw [hwalk] at h
    cases h
  | ok w =>
    rw [hwalk] at h
    cases h
    obtain ⟨hinv, hqueue⟩ := openWalk_keeps (I := WalkInv epoch batch)
      (fun w w' cref key queue hq hw hturn => walkInv_pop hnodup hq hw hturn)
      (fun w hw => walkInv_start hnodup hw) hwalk
    have hopen : w.contains c = true := contains_iff.2 hc.1
    have hreached : c ∈ w.reached.map Prod.fst ↔ EpochOpens batch epoch c := by
      refine ⟨fun hmem => ?_, fun hepoch => (hinv.epoch c hepoch).1⟩
      exact (hinv.reached c hmem).resolve_right fun hout => hout (hinv.opened c hopen)
    rw [mem_advanceHeads_iff, hreached, not_or]
    refine ⟨fun h => h.1, fun hepoch hheld => ⟨hepoch, ?_⟩⟩
    rintro ⟨hmem, hkept⟩
    rw [List.mem_append, not_or] at hkept
    rcases hheld hmem with hknown | ⟨ct, hct, hkey⟩
    · exact hkept.2 hknown
    · have hpending := (openWalk_keeps (I := Pending batch c ct.key)
        (fun w w' cref key queue hq hw hturn => pending_pop hnodup hq hct hw hturn)
        (fun w hw => pending_start hnodup hw hct hepoch hkey) hwalk).1
      rcases hpending with hcovered | ⟨hclosed, -, -⟩ | ⟨-, hwait⟩
      · exact hkept.1 hcovered
      · rw [hopen] at hclosed
        cases hclosed
      · -- the queue is empty, but another open envelope carries it
        obtain ⟨d, hd, hne, hcarries⟩ := hc.2
        have hin := hwait ⟨d, hne, contains_iff.2 hd, hcarries⟩
        rw [hqueue] at hin
        cases hin

end Shared

end Polyvisor.Minimal
