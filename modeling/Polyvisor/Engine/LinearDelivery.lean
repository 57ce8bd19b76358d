import Polyvisor.Engine.FrontierMinimal

/-!
# Linear histories

What a linear history leaves on the frontier when it is delivered in causal order, in any batches:
each call of `open` or `open_shared` gets what has not been applied yet.

In a private partition the commit before a batch is held, so the batch covers it. In a shareable
document it is not in the batch, so its key arrives again and stays.

## Main results

* `onePrivate_iff`, `oneShared_iff`: when a linear history has one entry on the frontier after each
  batch.
* `frontier_minimal`: when the frontier is as small as the envelopes of a batch allow.
* `carried_commit_is_head`: two commits that leave two entries.
-/

namespace Polyvisor.Minimal

open Std Frontier
open Shared (EpochOpens)
open Private (CausalWalk Opening Opens vaultOpen walkDark decideAncestors)

variable {κ P : Type}

/-! ## Linear histories -/

/-- A linear history: every envelope carries the key of the commit before, and nothing else. -/
def Linear : Option (Cref × κ) → List (Cref × Ciphertext κ P) → Prop
  | _, [] => True
  | before, (c, ct) :: rest =>
    ct.contentRef = c ∧ (∃ change, ct.plain = .ok ⟨change, before.toList⟩) ∧
      Linear (some (c, ct.key)) rest

/-- The last commit so far, with its key. -/
def lastOf (before : Option (Cref × κ)) (batch : List (Cref × Ciphertext κ P)) :
    Option (Cref × κ) :=
  (batch.getLast?.map fun (c, ct) => (c, ct.key)).or before

/-- Only the last commit of a batch opens under the epoch key. -/
def OnlyLast (epoch : Ciphertext κ P → Bool) (batch : List (Cref × Ciphertext κ P)) : Prop :=
  ∀ item ∈ batch.dropLast, epoch item.2 = false

/-- Exactly one of the commits is on the frontier. -/
def OneEntry (refs : List Cref) (heads : Heads κ) : Prop :=
  ∃! c, c ∈ refs ∧ c ∈ heads

/-- Of the commits, the frontier has this one. -/
def Tip (refs : List Cref) (heads : Heads κ) (tip : Option (Cref × κ)) : Prop :=
  ∀ c ∈ refs, c ∈ heads ↔ ∃ k, tip = some (c, k)

theorem lastOf_append (before : Option (Cref × κ)) (xs ys : List (Cref × Ciphertext κ P)) :
    lastOf before (xs ++ ys) = lastOf (lastOf before xs) ys := by
  rw [lastOf, lastOf, lastOf, List.getLast?_append, Option.map_or, Option.or_assoc]

theorem linear_append {before : Option (Cref × κ)} {xs ys : List (Cref × Ciphertext κ P)} :
    Linear before (xs ++ ys) ↔ Linear before xs ∧ Linear (lastOf before xs) ys := by
  induction xs generalizing before with
  | nil => simp [Linear, lastOf]
  | cons item xs ih =>
    obtain ⟨c, ct⟩ := item
    have hlast : lastOf before ((c, ct) :: xs) = lastOf (some (c, ct.key)) xs :=
      lastOf_append before [(c, ct)] xs
    rw [List.cons_append, Linear, Linear, ih, hlast]
    tauto

theorem Linear.sealed {before : Option (Cref × κ)} {batch : List (Cref × Ciphertext κ P)}
    (h : Linear before batch) {item : Cref × Ciphertext κ P} (hitem : item ∈ batch) :
    item.2.contentRef = item.1 ∧ ∃ env, item.2.plain = .ok env := by
  induction batch generalizing before with
  | nil => cases hitem
  | cons x rest ih =>
    rcases List.mem_cons.1 hitem with rfl | hrest
    · obtain ⟨hcref, ⟨change, hplain⟩, -⟩ := h
      exact ⟨hcref, _, hplain⟩
    · exact ih h.2.2 hrest

/-- What an envelope of a linear history carries is the key of the commit before it. -/
theorem Linear.carried {before : Option (Cref × κ)} {batch : List (Cref × Ciphertext κ P)}
    (h : Linear before batch) {item : Cref × Ciphertext κ P} (hitem : item ∈ batch)
    {env : Envelope κ P} (hplain : item.2.plain = .ok env) {entry : Cref × κ}
    (hentry : entry ∈ env.ancestors) :
    before = some entry ∨ ∃ x ∈ batch, entry = (x.1, x.2.key) := by
  induction batch generalizing before with
  | nil => cases hitem
  | cons x rest ih =>
    obtain ⟨-, ⟨change, hx⟩, hrest⟩ := h
    rcases List.mem_cons.1 hitem with rfl | hmem
    · rw [hx] at hplain
      cases hplain
      exact .inl (Option.mem_toList.1 hentry)
    · rcases ih hrest hmem with heq | ⟨y, hy, heq⟩
      · exact .inr ⟨x, List.mem_cons_self, (Option.some.inj heq).symm⟩
      · exact .inr ⟨y, List.mem_cons_of_mem _ hy, heq⟩

/-- What holds of the last commit, and of a commit whenever it holds of one that carries its key,
holds of a whole linear batch. -/
theorem Linear.downward {Q : Cref × Ciphertext κ P → Prop} {before : Option (Cref × κ)}
    {batch : List (Cref × Ciphertext κ P)} (h : Linear before batch)
    (hlast : ∀ item ∈ batch.getLast?, Q item)
    (hdown : ∀ x ∈ batch, ∀ y ∈ batch, ∀ env, y.2.plain = .ok env →
      (x.1, x.2.key) ∈ env.ancestors → Q y → Q x) : ∀ item ∈ batch, Q item := by
  induction batch generalizing before with
  | nil => exact fun item hitem => (List.not_mem_nil hitem).elim
  | cons x rest ih =>
    obtain ⟨-, -, hrest⟩ := h
    have htail : ∀ item ∈ rest, Q item := by
      refine ih hrest (fun item hitem => hlast item ?_)
        fun a ha b hb => hdown a (List.mem_cons_of_mem _ ha) b (List.mem_cons_of_mem _ hb)
      rcases rest with _ | ⟨y, rest⟩
      · cases hitem
      · simpa [List.getLast?_cons_cons] using hitem
    refine List.forall_mem_cons.2 ⟨?_, htail⟩
    rcases rest with _ | ⟨y, rest⟩
    · exact hlast x (by simp)
    · -- the next commit's envelope carries its key
      obtain ⟨-, ⟨change, hplain⟩, -⟩ := hrest
      refine hdown x List.mem_cons_self y (List.mem_cons_of_mem _ List.mem_cons_self) _ hplain ?_
        (htail y List.mem_cons_self)
      simp

/-- The first commit of a batch carries the key of the one before the batch. -/
theorem Linear.first {entry : Cref × κ} {batch : List (Cref × Ciphertext κ P)}
    (h : Linear (some entry) batch) (hne : batch ≠ []) :
    ∃ item ∈ batch, ∃ env, item.2.plain = .ok env ∧ entry ∈ env.ancestors := by
  rcases batch with _ | ⟨item, rest⟩
  · exact absurd rfl hne
  · obtain ⟨-, ⟨change, hplain⟩, -⟩ := h
    exact ⟨item, List.mem_cons_self, _, hplain, by simp⟩

theorem lastOf_of_ne_nil (before : Option (Cref × κ)) {batch : List (Cref × Ciphertext κ P)}
    (hne : batch ≠ []) : ∃ item, batch.getLast? = some item ∧ item ∈ batch ∧
      lastOf before batch = some (item.1, item.2.key) := by
  obtain ⟨item, hitem⟩ := List.getLast?_isSome.2 hne |> Option.isSome_iff_exists.1
  exact ⟨item, hitem, List.mem_of_getLast? hitem, by simp [lastOf, hitem]⟩

/-- With only the last commit opened by the epoch key, that one is the only one it opens. -/
theorem epochOpens_iff_last {epoch : Ciphertext κ P → Bool} {batch : List (Cref × Ciphertext κ P)}
    {item : Cref × Ciphertext κ P} (hlast : batch.getLast? = some item)
    (hepoch : epoch item.2 = true) (honly : OnlyLast epoch batch) {c : Cref} :
    EpochOpens batch epoch c ↔ c = item.1 := by
  have hsplit : batch = batch.dropLast ++ [item] :=
    (List.dropLast_append_getLast? item hlast).symm
  constructor
  · rintro ⟨ct, hmem, hopens⟩
    rw [hsplit, List.mem_append, List.mem_singleton] at hmem
    rcases hmem with hmem | rfl
    · rw [honly _ hmem] at hopens
      cases hopens
    · rfl
  · rintro rfl
    exact ⟨item.2, List.mem_of_getLast? hlast, hepoch⟩

theorem Tip.oneEntry {refs : List Cref} {heads : Heads κ} {entry : Cref × κ}
    (h : Tip refs heads (some entry)) (hmem : entry.1 ∈ refs) : OneEntry refs heads := by
  refine ⟨entry.1, ⟨hmem, (h _ hmem).2 ⟨entry.2, rfl⟩⟩, ?_⟩
  rintro c ⟨hc, hhead⟩
  obtain ⟨k, heq⟩ := (h c hc).1 hhead
  exact (congrArg Prod.fst (Option.some.inj heq)).symm

/-- Where all that the epoch opens becomes a head, a batch that leaves one entry has nothing that
it opens but its last commit. -/
theorem onlyLast_of_oneEntry {epoch : Ciphertext κ P → Bool}
    {batch : List (Cref × Ciphertext κ P)} (hnodup : (batch.map Prod.fst).Nodup)
    (hlast : ∀ item ∈ batch.getLast?, epoch item.2 = true) {refs : List Cref}
    (hrefs : batch.map Prod.fst ⊆ refs) {heads : Heads κ}
    (hheads : ∀ c, EpochOpens batch epoch c → c ∈ heads) (hone : OneEntry refs heads) :
    OnlyLast epoch batch := by
  intro item hitem
  by_contra hepoch
  rw [Bool.not_eq_false] at hepoch
  have hne : batch ≠ [] := by
    rintro rfl
    cases hitem
  obtain ⟨l, hl, hmem, -⟩ := lastOf_of_ne_nil none hne
  have hmem' := List.mem_of_mem_dropLast hitem
  have heq : item.1 = l.1 := by
    obtain ⟨c, -, huniq⟩ := hone
    rw [huniq item.1 ⟨hrefs (List.mem_map_of_mem hmem'), hheads _ ⟨item.2, hmem', hepoch⟩⟩,
      huniq l.1 ⟨hrefs (List.mem_map_of_mem hmem), hheads _ ⟨l.2, hmem, hlast l hl⟩⟩]
  have hsplit : batch.map Prod.fst = batch.dropLast.map Prod.fst ++ [l.1] := by
    conv_lhs => rw [← List.dropLast_append_getLast? l hl]
    rw [List.map_append, List.map_singleton]
  rw [hsplit, List.nodup_append] at hnodup
  exact hnodup.2.2 item.1 (List.mem_map_of_mem hitem) l.1 List.mem_cons_self heq

/-! ### Deliveries to a private partition -/

section PrivateDelivery

/-- A batch that is delivered, what the epoch opens of it, and what the ciphertext store has by
then. -/
structure Delivery (κ P : Type) where
  batch : List (Cref × Ciphertext κ P)
  epoch : Ciphertext κ P → Bool
  store : Cref → Option (Ciphertext κ P)

/-- The frontier and the commits applied. -/
structure Reader (κ : Type) where
  heads : Heads κ
  known : List Cref := []

/-- `open` on one batch after another; what it opens is applied. -/
def receive (walk : CausalWalk κ P) (r : Reader κ) (d : Delivery κ P) : Reader κ :=
  match vaultOpen walk d.epoch d.store r.heads d.batch r.known with
  | .ok (heads, opened) => { heads, known := r.known ++ opened.map Prod.fst }
  | .error _ => r

variable [DecidableEq κ]

/-- A walk that gives up nothing: what can be opened it opens, and what it has a key for and the
ciphertext store does not have it reports. -/
structure Exhausts (walk : CausalWalk κ P) (store : Cref → Option (Ciphertext κ P))
    (seeds : List (Ciphertext κ P × κ)) : Prop where
  complete : ∀ c env, Opens store seeds c env → c ∈ (walk store seeds).complete.map Prod.fst
  next : ∀ d env c k, Opens store seeds d env → (c, k) ∈ env.ancestors → store c = none →
    c ∈ (walk store seeds).next.map Prod.fst

/-- How a batch of a linear history is delivered: it has commits, the last of them opens under the
epoch key, the ciphertext store holds it and otherwise only commits of the history, and the walk
from the right keys gives up nothing. -/
structure Delivery.Whole (walk : CausalWalk κ P) (history : List (Cref × Ciphertext κ P))
    (d : Delivery κ P) : Prop where
  nonempty : d.batch ≠ []
  last : ∀ item ∈ d.batch.getLast?, d.epoch item.2 = true
  refilled : ∀ c ct, (c, ct) ∈ d.batch → d.store c = some ct
  stored : ∀ c ct, d.store c = some ct → (c, ct) ∈ history
  walk : ∀ seeds, (∀ seed ∈ seeds, ∃ c, (c, seed.1) ∈ d.batch ∧ seed.2 = seed.1.key) →
    Exhausts walk d.store seeds

variable {walk : CausalWalk κ P} {epoch : Ciphertext κ P → Bool}
  {store : Cref → Option (Ciphertext κ P)} {heads : Heads κ}
  {history before batch after : List (Cref × Ciphertext κ P)} {known : List Cref}

/-- What can be opened of a linear history from its right keys: its commits up to those the walk
starts at, with their own envelopes. -/
theorem Opens.of_linear (hlinear : Linear none (before ++ batch))
    (hnodup : (history.map Prod.fst).Nodup) (hsub : before ++ batch ⊆ history)
    (hstored : ∀ c ct, store c = some ct → (c, ct) ∈ history)
    {seeds : List (Ciphertext κ P × κ)} (hseeds : ∀ seed ∈ seeds, ∃ c, (c, seed.1) ∈ batch)
    {c : Cref} {env : Envelope κ P} (h : Opens store seeds c env) :
    ∃ ct, (c, ct) ∈ before ++ batch ∧ ct.plain = .ok env := by
  have hdecrypt {ct : Ciphertext κ P} {k : κ} {env : Envelope κ P}
      (h : ct.tryDecrypt k = some (.ok env)) : ct.plain = .ok env := by
    rw [Ciphertext.tryDecrypt] at h
    split at h
    · exact Option.some.inj h
    · cases h
  induction h with
  | @seed ct k env hmem hopen =>
    obtain ⟨c, hc⟩ := hseeds _ hmem
    have hin : (c, ct) ∈ before ++ batch := List.mem_append_right _ hc
    have hcref : ct.contentRef = c := (hlinear.sealed hin).1
    rw [hcref]
    exact ⟨ct, hin, hdecrypt hopen⟩
  | @ancestor d env c k ct env' _ hc hct hopen ih =>
    obtain ⟨ctd, hd, hplain⟩ := ih
    obtain heq | ⟨x, hx, heq⟩ := hlinear.carried hd hplain hc
    · cases heq
    · obtain ⟨rfl, -⟩ := Prod.mk.inj heq
      obtain rfl := ciphertext_unique hnodup (hstored _ _ hct) (hsub hx)
      exact ⟨_, hx, hdecrypt hopen⟩

omit [DecidableEq κ] in
theorem vaultOpen_ok (walk : CausalWalk κ P) (epoch : Ciphertext κ P → Bool)
    (store : Cref → Option (Ciphertext κ P)) (heads : Heads κ) (known : List Cref)
    (hnodup : (batch.map Prod.fst).Nodup)
    (hsealed : ∀ item ∈ batch, ∃ env, item.2.plain = .ok env) :
    ∃ o, WalkLoop walk epoch store heads batch o ∧
      vaultOpen walk epoch store heads batch known =
        .ok (advanceHeads heads (decideAncestors heads known o).reached
          (decideAncestors heads known o).covered, o.opened) := by
  have hok : ∀ (rest : List (Cref × Ciphertext κ P)) (o : Opening κ P),
      (∀ item ∈ rest, ∃ env, item.2.plain = .ok env) →
        ∃ o', Private.openEpoch epoch o rest = .ok o' := by
    intro rest
    induction rest with
    | nil => exact fun o _ => ⟨o, rfl⟩
    | cons item rest ih =>
      intro o hall
      obtain ⟨env, hplain⟩ := hall item List.mem_cons_self
      have hrest := fun item h => hall item (List.mem_cons_of_mem _ h)
      rw [Private.openEpoch]
      split
      · rw [hplain]
        exact ih _ hrest
      · exact ih _ hrest
  obtain ⟨o, hopen⟩ := hok batch {} hsealed
  refine ⟨walkDark walk store heads batch o, walkLoop_walkDark hnodup ?_, ?_⟩
  · exact epochLoop_openEpoch (epochLoop_nil epoch) hopen
  · rw [vaultOpen, hopen]
    rfl

omit [DecidableEq κ] in
/-- A commit on the way between two halves of a history is in one of them only. -/
theorem disjoint_of_nodup (hnodup : (history.map Prod.fst).Nodup)
    (hhistory : history = before ++ batch ++ after) {c : Cref} (hb : c ∈ before.map Prod.fst)
    (hc : c ∈ batch.map Prod.fst) : False := by
  rw [hhistory, List.map_append, List.map_append, List.nodup_append, List.nodup_append] at hnodup
  exact hnodup.1.2.2 c hb c hc rfl

omit [DecidableEq κ] in
/-- No commit of a batch was on the frontier before, so its walk starts at what the epoch opens. -/
theorem entries_eq_of_tip (epoch : Ciphertext κ P → Bool) (hnodup : (history.map Prod.fst).Nodup)
    (hhistory : history = before ++ batch ++ after)
    (htip : Tip (history.map Prod.fst) heads (lastOf none before)) :
    entries epoch heads batch = (batch.filter (epoch ·.2)).map fun (_, ct) => (ct, ct.key) := by
  refine List.append_left_eq_self.2 (List.filterMap_eq_nil_iff.2 ?_)
  intro item hitem
  obtain ⟨c, ct⟩ := item
  have hmem : (c, ct) ∈ batch := List.mem_of_mem_filter hitem
  have hc : c ∈ history.map Prod.fst := by
    rw [hhistory]
    exact List.mem_map_of_mem (List.mem_append_left _ (List.mem_append_right _ hmem))
  have hnone : c ∉ heads := by
    intro hhead
    obtain ⟨k, heq⟩ := (htip c hc).1 hhead
    have hbefore : c ∈ before.map Prod.fst := by
      rw [lastOf, Option.or_none, Option.map_eq_some_iff] at heq
      obtain ⟨x, hx, heq⟩ := heq
      have hfst : x.1 = c := congrArg Prod.fst heq
      rw [← hfst]
      exact List.mem_map_of_mem (List.mem_of_getLast? hx)
    exact disjoint_of_nodup hnodup hhistory hbefore (List.mem_map_of_mem hmem)
  simp [ExtTreeMap.getElem?_eq_none hnone]

omit [DecidableEq κ] in
/-- Where one commit of a batch is dark and another opens under the epoch key, the walk runs. -/
theorem answer_eq {item opening : Cref × Ciphertext κ P} (hitem : item ∈ batch)
    (hdark : epoch item.2 = false) (hopening : opening ∈ batch) (hopens : epoch opening.2 = true) :
    answer walk epoch store heads batch = walk store (entries epoch heads batch) := by
  have hmem : item ∈ batch.filter (!epoch ·.2) := List.mem_filter.2 ⟨hitem, by simp [hdark]⟩
  have hentry : (opening.2, opening.2.key) ∈ entries epoch heads batch :=
    List.mem_append_right _ (List.mem_map.2 ⟨opening, List.mem_filter.2 ⟨hopening, hopens⟩, rfl⟩)
  refine if_neg ?_
  rw [Bool.or_eq_true, List.isEmpty_iff, List.isEmpty_iff, not_or]
  exact ⟨List.ne_nil_of_mem hmem, List.ne_nil_of_mem hentry⟩

/-- The whole of a delivered batch can be opened. -/
theorem opens_of_whole {d : Delivery κ P} (hnodup : (history.map Prod.fst).Nodup)
    (hhistory : history = before ++ d.batch ++ after) (hlinear : Linear none history)
    (hd : d.Whole walk history) (htip : Tip (history.map Prod.fst) heads (lastOf none before)) :
    ∀ item ∈ d.batch, ∃ env, item.2.plain = .ok env ∧
      Opens d.store (entries d.epoch heads d.batch) item.1 env := by
  have hbatch : Linear (lastOf none before) d.batch := by
    rw [hhistory, linear_append, linear_append] at hlinear
    exact hlinear.1.2
  refine hbatch.downward (fun item hitem => ?_) fun x hx y hy env hplain hanc hQ => ?_
  · have hmem := List.mem_of_getLast? hitem
    obtain ⟨hcref, env, hplain⟩ := hbatch.sealed hmem
    refine ⟨env, hplain, ?_⟩
    rw [← hcref]
    refine .seed (k := item.2.key) ?_ (by rw [Ciphertext.tryDecrypt, if_pos rfl, hplain])
    rw [entries_eq_of_tip d.epoch hnodup hhistory htip]
    exact List.mem_map.2 ⟨item, List.mem_filter.2 ⟨hmem, hd.last item hitem⟩, rfl⟩
  · obtain ⟨env', hplain', hopens⟩ := hQ
    rw [hplain] at hplain'
    cases hplain'
    obtain ⟨-, envx, hplainx⟩ := hbatch.sealed hx
    refine ⟨envx, hplainx, .ancestor hopens hanc (hd.refilled _ _ hx) ?_⟩
    rw [Ciphertext.tryDecrypt, if_pos rfl, hplainx]

/-- The next batch of a linear history is delivered to who has read what comes before it. -/
structure Delivery.Continues (walk : CausalWalk κ P)
    (history before after : List (Cref × Ciphertext κ P)) (r : Reader κ) (d : Delivery κ P) :
    Prop where
  nodup : (history.map Prod.fst).Nodup
  split : history = before ++ d.batch ++ after
  linear : Linear none history
  whole : d.Whole walk history
  known : before.map Prod.fst ⊆ r.known
  tip : Tip (history.map Prod.fst) r.heads (lastOf none before)

namespace Delivery.Continues

variable {d : Delivery κ P} {r : Reader κ} {o : Opening κ P}
  (h : d.Continues walk history before after r)
include h

theorem subset : before ++ d.batch ⊆ history := by
  rw [h.split]
  exact List.subset_append_left _ _

theorem batch_subset : d.batch.map Prod.fst ⊆ history.map Prod.fst := by
  rw [h.split]
  exact List.map_subset _ (List.subset_append_of_subset_left _ (List.subset_append_right _ _))

theorem batch_nodup : (d.batch.map Prod.fst).Nodup := by
  have hnodup := h.nodup
  rw [h.split, List.map_append, List.map_append, List.nodup_append, List.nodup_append] at hnodup
  exact hnodup.1.2.1

theorem past_linear : Linear none (before ++ d.batch) := by
  have hlinear := h.linear
  rw [h.split, linear_append] at hlinear
  exact hlinear.1

theorem batch_linear : Linear (lastOf none before) d.batch :=
  (linear_append.1 h.past_linear).2

/-- The call returns `Ok`. -/
theorem vaultOpen_ok : ∃ o, WalkLoop walk d.epoch d.store r.heads d.batch o ∧
    vaultOpen walk d.epoch d.store r.heads d.batch r.known =
      .ok (advanceHeads r.heads (decideAncestors r.heads r.known o).reached
        (decideAncestors r.heads r.known o).covered, o.opened) :=
  Minimal.vaultOpen_ok walk d.epoch d.store r.heads r.known h.batch_nodup
    fun _ hitem => (h.batch_linear.sealed hitem).2

/-- The walk starts at commits of the batch, from their keys. -/
theorem seeds : ∀ seed ∈ entries d.epoch r.heads d.batch,
    ∃ c, (c, seed.1) ∈ d.batch ∧ seed.2 = seed.1.key := by
  intro seed hseed
  rw [entries_eq_of_tip d.epoch h.nodup h.split h.tip] at hseed
  obtain ⟨⟨c, ct⟩, hmem, rfl⟩ := List.mem_map.1 hseed
  exact ⟨c, List.mem_of_mem_filter hmem, rfl⟩

theorem exhausts : Exhausts walk d.store (entries d.epoch r.heads d.batch) :=
  h.whole.walk _ h.seeds

theorem opens : ∀ item ∈ d.batch, ∃ env, item.2.plain = .ok env ∧
    Opens d.store (entries d.epoch r.heads d.batch) item.1 env :=
  opens_of_whole h.nodup h.split h.linear h.whole h.tip

/-- Where a commit of the batch is dark, the walk runs. -/
theorem answer_of_dark {item : Cref × Ciphertext κ P} (hitem : item ∈ d.batch)
    (hdark : d.epoch item.2 = false) : answer walk d.epoch d.store r.heads d.batch =
      walk d.store (entries d.epoch r.heads d.batch) := by
  obtain ⟨l, hl, hlmem, -⟩ := lastOf_of_ne_nil none h.whole.nonempty
  exact answer_eq hitem hdark hlmem (h.whole.last l hl)

/-- The whole batch is opened. -/
theorem opened (hloop : WalkLoop walk d.epoch d.store r.heads d.batch o) :
    d.batch.map Prod.fst ⊆ o.opened.map Prod.fst := by
  intro c hc
  obtain ⟨item, hitem, rfl⟩ := List.mem_map.1 hc
  rw [hloop.opened]
  by_cases hdark : d.epoch item.2 = false
  · obtain ⟨env, -, henv⟩ := h.opens item hitem
    refine .inr ⟨⟨item.2, hitem, by simp [hdark]⟩, ?_⟩
    rw [h.answer_of_dark hitem hdark]
    exact h.exhausts.complete _ env henv
  · exact .inl ⟨item.2, hitem, by simpa using hdark⟩

/-- What an envelope of a delivered commit carries was delivered before it. -/
theorem delivered_of_carried {c e : Cref} {ct : Ciphertext κ P} {env : Envelope κ P}
    (he : (e, ct) ∈ before ++ d.batch) (hplain : ct.plain = .ok env)
    (hanc : c ∈ env.ancestors.map Prod.fst) : c ∈ (before ++ d.batch).map Prod.fst := by
  obtain ⟨entry, hentry, rfl⟩ := List.mem_map.1 hanc
  rcases h.past_linear.carried he hplain hentry with heq | ⟨x, hx, rfl⟩
  · cases heq
  · exact List.mem_map_of_mem hx

/-- Whatever is carried was delivered by now. -/
theorem ancestors (hlawful : walk.Lawful)
    (hloop : WalkLoop walk d.epoch d.store r.heads d.batch o) :
    o.ancestors.map Prod.fst ⊆ (before ++ d.batch).map Prod.fst := by
  intro c hc
  rcases (hloop.ancestors c).1 hc with ⟨e, ct, env, he, -, hplain, hanc⟩ | hnext
  · exact h.delivered_of_carried (List.mem_append_right _ he) hplain hanc
  · rw [answer] at hnext
    split at hnext
    · cases hnext
    · obtain ⟨entry, hentry, rfl⟩ := List.mem_map.1 hnext
      obtain ⟨e, env, henv, hanc⟩ := hlawful.next hentry
      obtain ⟨ct, he, hplain⟩ := Opens.of_linear h.past_linear h.nodup h.subset h.whole.stored
        (fun seed hseed => (h.seeds seed hseed).imp fun _ h => h.1) henv
      exact h.delivered_of_carried he hplain (List.mem_map_of_mem hanc)

/-- Nothing that is carried is left to be asked for. -/
theorem held_of_carried (hlawful : walk.Lawful)
    (hloop : WalkLoop walk d.epoch d.store r.heads d.batch o) {c : Cref}
    (hc : c ∈ o.ancestors.map Prod.fst) :
    c ∈ o.opened.map Prod.fst ∨ c ∈ r.heads ∨ c ∈ r.known := by
  have hmem := h.ancestors hlawful hloop hc
  rw [List.map_append, List.mem_append] at hmem
  rcases hmem with hmem | hmem
  · exact .inr (.inr (h.known hmem))
  · exact .inl (h.opened hloop hmem)

/-- The tip so far is carried by the first commit of the batch. -/
theorem tip_covered (hlawful : walk.Lawful)
    (hloop : WalkLoop walk d.epoch d.store r.heads d.batch o) {c : Cref} {k : κ}
    (heq : lastOf none before = some (c, k)) :
    c ∈ (decideAncestors r.heads r.known o).covered := by
  rw [mem_covered_decideAncestors]
  obtain ⟨x, hx, rfl, rfl⟩ : ∃ x ∈ before, x.1 = c ∧ x.2.key = k := by
    rw [lastOf, Option.or_none, Option.map_eq_some_iff] at heq
    obtain ⟨x, hx, heq⟩ := heq
    exact ⟨x, List.mem_of_getLast? hx, congrArg Prod.fst heq, congrArg Prod.snd heq⟩
  have hnamed (hmem : x.1 ∈ o.ancestors.map Prod.fst) : x.1 ∈ o.covered ∨
      x.1 ∈ o.ancestors.map Prod.fst ∧
        (x.1 ∈ o.opened.map Prod.fst ∨ x.1 ∈ r.heads ∨ x.1 ∈ r.known) :=
    .inr ⟨hmem, h.held_of_carried hlawful hloop hmem⟩
  have hbatch := h.batch_linear
  rw [heq] at hbatch
  obtain ⟨f, hf, env, hplain, hanc⟩ := hbatch.first h.whole.nonempty
  by_cases hdark : d.epoch f.2 = false
  · obtain ⟨env', hplain', henv⟩ := h.opens f hf
    rw [hplain] at hplain'
    cases hplain'
    cases hstore : d.store x.1 with
    | none =>
      refine hnamed ((hloop.ancestors _).2 (.inr ?_))
      rw [h.answer_of_dark hf hdark]
      exact h.exhausts.next _ env _ _ henv hanc hstore
    | some ct =>
      -- its ciphertext is still there, so the walk goes on into it
      have hx' := List.mem_append_left d.batch hx
      obtain rfl := ciphertext_unique h.nodup (h.whole.stored _ _ hstore) (h.subset hx')
      obtain ⟨-, envx, hplainx⟩ := h.past_linear.sealed hx'
      refine .inl ((hloop.covered _).2 ⟨?_, fun hseeded => ?_⟩)
      · rw [h.answer_of_dark hf hdark]
        refine h.exhausts.complete _ envx (.ancestor henv hanc hstore ?_)
        rw [Ciphertext.tryDecrypt, if_pos rfl, hplainx]
      · obtain ⟨seed, hseed, hcref⟩ := List.mem_map.1 hseeded
        obtain ⟨c, hc, -⟩ := h.seeds seed hseed
        rw [(h.batch_linear.sealed hc).1] at hcref
        exact disjoint_of_nodup h.nodup h.split (List.mem_map_of_mem hx)
          (hcref ▸ List.mem_map_of_mem hc)
  · refine hnamed ((hloop.ancestors _).2 (.inl ?_))
    exact ⟨f.1, f.2, env, hf, by simpa using hdark, hplain, List.mem_map_of_mem hanc⟩

theorem known_receive : (before ++ d.batch).map Prod.fst ⊆ (receive walk r d).known := by
  obtain ⟨o, hloop, hopen⟩ := h.vaultOpen_ok
  rw [receive, hopen, List.map_append]
  exact List.append_subset.2 ⟨List.subset_append_of_subset_left _ h.known,
    List.subset_append_of_subset_right _ (h.opened hloop)⟩

/-- A batch whose last commit alone opens under the epoch key leaves that commit, of all the
history. -/
theorem tip_receive (hlawful : walk.Lawful) (honly : OnlyLast d.epoch d.batch) :
    Tip (history.map Prod.fst) (receive walk r d).heads (lastOf none (before ++ d.batch)) := by
  obtain ⟨o, hloop, hopen⟩ := h.vaultOpen_ok
  obtain ⟨l, hl, hlmem, hlast⟩ := lastOf_of_ne_nil (lastOf none before) h.whole.nonempty
  have hepoch (c : Cref) : EpochOpens d.batch d.epoch c ↔ c = l.1 :=
    epochOpens_iff_last hl (h.whole.last l hl) honly
  have hlast' : lastOf none (before ++ d.batch) = some (l.1, l.2.key) := by
    rw [lastOf_append, hlast]
  intro c hc
  rw [receive, hopen, mem_advanceHeads_iff, mem_reached_decideAncestors, hloop.reached,
    List.map_map, hlast']
  constructor
  · rintro ((hmem | ⟨hmem, hnot⟩) | ⟨hhead, hnot⟩)
    · obtain rfl := (hepoch c).1 (mem_map_fst_filter.1 hmem)
      exact ⟨_, rfl⟩
    · exact absurd (h.held_of_carried hlawful hloop hmem) hnot
    · obtain ⟨k, heq⟩ := (h.tip c hc).1 hhead
      exact absurd (h.tip_covered hlawful hloop heq) hnot
  · rintro ⟨k, heq⟩
    obtain rfl := congrArg Prod.fst (Option.some.inj heq)
    exact .inl (.inl (mem_map_fst_filter.2 ((hepoch _).2 rfl)))

/-- The batch leaves one entry iff the epoch key opens nothing of it but its last commit. -/
theorem oneEntry_iff (hlawful : walk.Lawful) :
    OneEntry (history.map Prod.fst) (receive walk r d).heads ↔ OnlyLast d.epoch d.batch := by
  constructor
  · refine onlyLast_of_oneEntry h.batch_nodup h.whole.last h.batch_subset fun c hc => ?_
    obtain ⟨o, hloop, hopen⟩ := h.vaultOpen_ok
    rw [receive, hopen]
    refine mem_advanceHeads_of_arrived _ _ (mem_reached_decideAncestors.2 (.inl ?_))
    rw [hloop.reached, List.map_map]
    exact mem_map_fst_filter.2 hc
  · intro honly
    obtain ⟨l, -, hlmem, hlast⟩ := lastOf_of_ne_nil (lastOf none before) h.whole.nonempty
    have htip := h.tip_receive hlawful honly
    have hlast' : lastOf none (before ++ d.batch) = some (l.1, l.2.key) := by
      rw [lastOf_append, hlast]
    rw [hlast'] at htip
    exact htip.oneEntry (h.batch_subset (List.mem_map_of_mem hlmem))

end Delivery.Continues

/-- A linear history that is delivered in batches to a private partition has one entry on the
frontier after each of them iff the epoch key opens nothing of a batch but its last commit. -/
theorem onePrivate_iff (hlawful : walk.Lawful) {deliveries : List (Delivery κ P)} {r : Reader κ}
    (hnodup : (history.map Prod.fst).Nodup)
    (hhistory : history = before ++ deliveries.flatMap (·.batch))
    (hlinear : Linear none history) (hd : ∀ d ∈ deliveries, d.Whole walk history)
    (hknown : before.map Prod.fst ⊆ r.known)
    (htip : Tip (history.map Prod.fst) r.heads (lastOf none before)) :
    Transition.Meets (receive walk)
        (fun r d => OneEntry (history.map Prod.fst) (receive walk r d).heads) r deliveries ↔
      ∀ d ∈ deliveries, OnlyLast d.epoch d.batch := by
  induction deliveries generalizing before r with
  | nil => simp [Transition.Meets]
  | cons d rest ih =>
    have hsplit : history = before ++ d.batch ++ rest.flatMap (·.batch) := by
      rw [hhistory, List.flatMap_cons, List.append_assoc]
    have h : d.Continues walk history before (rest.flatMap (·.batch)) r :=
      ⟨hnodup, hsplit, hlinear, hd d List.mem_cons_self, hknown, htip⟩
    rw [Transition.Meets, List.forall_mem_cons, h.oneEntry_iff hlawful]
    refine and_congr_right fun honly => ?_
    exact ih hsplit (fun d hmem => hd d (List.mem_cons_of_mem _ hmem)) h.known_receive
      (h.tip_receive hlawful honly)

end PrivateDelivery

/-! ### Deliveries to a shareable document -/

section SharedDelivery

open Shared (Walk pop seeds openWalk openShared readEnvelope admits)

variable [DecidableEq κ]

/-- A batch of a shareable document, with the signed parents and the order in which the head map is
iterated. -/
structure SharedDelivery (κ P : Type) where
  batch : List (Cref × Ciphertext κ P)
  epoch : Ciphertext κ P → Bool
  parents : ExtTreeMap Cref (List Cref)
  order : List Cref

/-- `open_shared` on one batch after another; what it opens is applied. -/
def receiveShared (r : Reader κ) (d : SharedDelivery κ P) : Reader κ :=
  match openShared r.heads d.batch d.epoch r.known d.parents d.order with
  | .ok (heads, opened) => { heads, known := r.known ++ opened.map Prod.fst }
  | .error _ => r

/-- How a batch of a linear history is delivered: it has commits, the last of them opens under the
epoch key, and what an envelope carries is a signed parent. -/
structure SharedDelivery.Whole (d : SharedDelivery κ P) : Prop where
  nonempty : d.batch ≠ []
  last : ∀ item ∈ d.batch.getLast?, d.epoch item.2 = true
  signed : ∀ item ∈ d.batch, ∀ env, item.2.plain = .ok env → admits d.parents item.1 env = true

variable {epoch : Ciphertext κ P → Bool} {heads : Heads κ} {known : List Cref}
  {history before batch after : List (Cref × Ciphertext κ P)}
  {parents : ExtTreeMap Cref (List Cref)} {order : List Cref}

/-- What is in the queue or has arrived is opened by the epoch, was a head, or is carried by an
envelope of the batch. -/
def FromBatch (epoch : Ciphertext κ P → Bool) (heads : Heads κ)
    (batch : List (Cref × Ciphertext κ P)) (w : Walk κ P) : Prop :=
  ∀ c, c ∈ w.queue.map Prod.fst ∨ c ∈ w.reached.map Prod.fst →
    EpochOpens batch epoch c ∨ c ∈ heads ∨
      ∃ item ∈ batch, ∃ env, item.2.plain = .ok env ∧ c ∈ env.ancestors.map Prod.fst

theorem fromBatch_pop {w w' : Walk κ P} {cref : Cref} {key : κ} {queue : List (Cref × κ)}
    (hqueue : w.queue = (cref, key) :: queue) (hw : FromBatch epoch heads batch w)
    (h : pop batch parents w cref key queue = .ok w') : FromBatch epoch heads batch w' := by
  have hlater {c : Cref} (hc : c ∈ queue.map Prod.fst) : c ∈ w.queue.map Prod.fst := by
    rw [hqueue]
    exact List.mem_cons_of_mem _ hc
  rcases pop_cases h with ⟨-, rfl⟩ | ⟨-, -, rfl⟩ |
    ⟨-, ct₀, hmem₀, -, ⟨-, rfl⟩ | ⟨-, env₀, hplain₀, rfl⟩⟩
  · exact fun c hc => hw c (hc.imp_left hlater)
  · intro c hc
    rw [List.map_append, List.mem_append] at hc
    rcases hc with hc | hc | hc
    · exact hw c (.inl (hlater hc))
    · exact hw c (.inr hc)
    · refine hw c (.inl ?_)
      rw [hqueue]
      exact List.mem_cons.2 (.inl (List.mem_singleton.1 hc))
  · exact fun c hc => hw c (hc.imp_left hlater)
  · intro c hc
    rw [List.map_append, List.mem_append] at hc
    rcases hc with (hc | hc) | hc
    · exact hw c (.inl (hlater hc))
    · exact .inr (.inr ⟨_, hmem₀, env₀, hplain₀, hc⟩)
    · exact hw c (.inr hc)

omit [DecidableEq κ] in
theorem fromBatch_start {w : Walk κ P} (hw : SharedLoop epoch batch w) :
    FromBatch epoch heads batch { w with queue := w.queue ++ seeds heads batch order } := by
  intro c hc
  rw [List.map_append, List.mem_append] at hc
  rcases hc with (hc | hc) | hc
  · obtain ⟨entry, hentry, rfl⟩ := List.mem_map.1 hc
    obtain ⟨item, hitem, env, hplain, hanc⟩ := hw.queued entry hentry
    exact .inr (.inr ⟨item, hitem, env, hplain, List.mem_map_of_mem hanc⟩)
  · obtain ⟨entry, hentry, rfl⟩ := List.mem_map.1 hc
    have hget := Shared.getElem?_of_mem_seeds (c := entry.1) (k := entry.2) hentry
    exact .inr (.inl (ExtTreeMap.isSome_getElem?_iff_mem.1 (Option.isSome_of_eq_some hget)))
  · rw [hw.reached] at hc
    exact .inl (mem_map_fst_filter.1 hc)

omit [DecidableEq κ] in
theorem readEnvelope_eq {cref : Cref} {plain : Except String (Envelope κ P)} {env : Envelope κ P}
    (hplain : plain = .ok env) (hadmits : admits parents cref env = true) :
    readEnvelope parents cref plain = .ok env := by
  rw [hplain]
  exact if_pos hadmits

/-- A walk of a batch whose envelopes carry signed parents only comes to its end. -/
theorem openWalk_ok (heads : Heads κ) (epoch : Ciphertext κ P → Bool) (order : List Cref)
    (hsealed : ∀ item ∈ batch, item.2.contentRef = item.1 ∧ ∃ env, item.2.plain = .ok env ∧
      admits parents item.1 env = true) :
    ∃ w, openWalk heads batch epoch parents order = .ok w := by
  have hepoch : ∀ (rest : List (Cref × Ciphertext κ P)) (w : Walk κ P), rest ⊆ batch →
      ∃ w', Shared.openEpoch epoch parents w rest = .ok w' := by
    intro rest
    induction rest with
    | nil => exact fun w _ => ⟨w, rfl⟩
    | cons item rest ih =>
      intro w hsub
      obtain ⟨hitem, hrest⟩ := List.cons_subset.1 hsub
      obtain ⟨hcref, env, hplain, hadmits⟩ := hsealed item hitem
      rw [Shared.openEpoch, if_neg (not_not.2 hcref)]
      split
      · rw [readEnvelope_eq hplain hadmits]
        exact ih _ hrest
      · exact ih _ hrest
  have hwalk : ∀ (fuel : ℕ) (w : Walk κ P), ∃ w', Shared.walk batch parents fuel w = .ok w' := by
    intro fuel
    induction fuel with
    | zero => exact fun w => ⟨w, rfl⟩
    | succ fuel ih =>
      intro w
      rw [Shared.walk]
      cases w.queue with
      | nil => exact ⟨w, rfl⟩
      | cons entry queue =>
        obtain ⟨cref, key⟩ := entry
        obtain ⟨w', hpop⟩ : ∃ w', pop batch parents w cref key queue = .ok w' := by
          rw [pop]
          split
          · exact ⟨_, rfl⟩
          · cases hlookup : batch.lookup cref with
            | none => exact ⟨_, rfl⟩
            | some ct =>
              obtain ⟨-, env, hplain, hadmits⟩ := hsealed _ (mem_of_lookup hlookup)
              dsimp only
              by_cases hkey : key = ct.key
              · rw [Ciphertext.tryDecrypt, if_pos hkey]
                dsimp only
                rw [readEnvelope_eq hplain hadmits]
                exact ⟨_, rfl⟩
              · rw [Ciphertext.tryDecrypt, if_neg hkey]
                exact ⟨_, rfl⟩
        dsimp only
        rw [hpop]
        exact ih w'
  obtain ⟨w, hw⟩ := hepoch batch {} (List.Subset.refl _)
  rw [openWalk, hw]
  exact hwalk _ _

/-- What a whole batch of a linear history leaves: the commits the epoch opens are heads, and so is
the one before the batch; and of the batch nothing else, if nothing of it was one. -/
theorem mem_heads_receiveShared {d : SharedDelivery κ P} {r : Reader κ}
    (hnodup : (history.map Prod.fst).Nodup) (hhistory : history = before ++ d.batch ++ after)
    (hlinear : Linear none history) (hd : d.Whole) :
    (∀ c, EpochOpens d.batch d.epoch c → c ∈ (receiveShared r d).heads) ∧
      (∀ entry, lastOf none before = some entry → entry.1 ∈ (receiveShared r d).heads) ∧
      ((∀ c ∈ history.map Prod.fst, c ∉ r.heads) → before = [] →
        ∀ c ∈ history.map Prod.fst, c ∈ (receiveShared r d).heads →
          EpochOpens d.batch d.epoch c) := by
  obtain ⟨hpast, hbatch⟩ : Linear none (before ++ d.batch) ∧
      Linear (lastOf none before) d.batch := by
    rw [hhistory, linear_append] at hlinear
    exact ⟨hlinear.1, (linear_append.1 hlinear.1).2⟩
  have hnodup' : (d.batch.map Prod.fst).Nodup := by
    rw [hhistory, List.map_append, List.map_append, List.nodup_append, List.nodup_append] at hnodup
    exact hnodup.1.2.1
  have hsealed : ∀ item ∈ d.batch, item.2.contentRef = item.1 ∧
      ∃ env, item.2.plain = .ok env ∧ admits d.parents item.1 env = true := by
    intro item hitem
    obtain ⟨hcref, env, hplain⟩ := hbatch.sealed hitem
    exact ⟨hcref, env, hplain, hd.signed item hitem env hplain⟩
  obtain ⟨w, hwalk⟩ := openWalk_ok r.heads d.epoch d.order hsealed
  obtain ⟨hinv, hqueue⟩ := openWalk_keeps (I := WalkInv d.epoch d.batch)
    (fun w w' cref key queue hq hw hturn => walkInv_pop hnodup' hq hw hturn)
    (fun w hw => walkInv_start hnodup' hw) hwalk
  obtain ⟨hfrom, -⟩ := openWalk_keeps (I := FromBatch d.epoch r.heads d.batch)
    (fun w w' cref key queue hq hw hturn => fromBatch_pop hq hw hturn)
    (fun w hw => fromBatch_start hw) hwalk
  have hreceive : receiveShared r d = ⟨advanceHeads r.heads w.reached (w.covered ++ r.known),
      r.known ++ w.opened.map Prod.fst⟩ := by
    rw [receiveShared, openShared, hwalk]
    rfl
  rw [hreceive]
  -- the whole batch is opened
  have hopened : ∀ item ∈ d.batch, w.contains item.1 = true := by
    refine hbatch.downward (fun item hitem => ?_) fun x hx y hy env hplain hanc hQ => ?_
    · exact (hinv.epoch _ ⟨item.2, List.mem_of_getLast? hitem, hd.last item hitem⟩).2
    · rcases hinv.carried y.1 y.2 env hQ hy hplain _ _ hanc with
        hq | hopen | ⟨-, hout⟩ | ⟨ct, hct, hkey⟩
      · rw [hqueue] at hq
        cases hq
      · exact hopen
      · exact absurd (List.mem_map_of_mem hx) hout
      · exact absurd (congrArg Ciphertext.key (ciphertext_unique hnodup' hx hct)) hkey
  refine ⟨fun c hc => ?_, fun entry heq => ?_, fun hnone hfirst c hc hhead => ?_⟩
  · exact mem_advanceHeads_of_arrived _ _ (hinv.epoch c hc).1
  · -- the key of the commit before comes up and opens nothing of the batch
    rw [heq] at hbatch
    obtain ⟨f, hf, env, hplain, hanc⟩ := hbatch.first hd.nonempty
    have hout : entry.1 ∉ d.batch.map Prod.fst := by
      rw [lastOf, Option.or_none, Option.map_eq_some_iff] at heq
      obtain ⟨x, hx, heq⟩ := heq
      have hfst : x.1 = entry.1 := congrArg Prod.fst heq
      rw [← hfst]
      exact disjoint_of_nodup hnodup hhistory (List.mem_map_of_mem (List.mem_of_getLast? hx))
    rcases hinv.carried f.1 f.2 env (hopened f hf) hf hplain _ _ hanc with
      hq | hopen | ⟨hreached, -⟩ | ⟨ct, hct, -⟩
    · rw [hqueue] at hq
      cases hq
    · exact absurd (hinv.opened _ hopen) hout
    · exact mem_advanceHeads_of_arrived _ _ (List.mem_map_of_mem hreached)
    · exact absurd (List.mem_map_of_mem hct) hout
  · rcases mem_advanceHeads_iff.1 hhead with hreached | ⟨hold, -⟩
    · refine (hinv.reached c hreached).resolve_right fun hout => ?_
      rcases hfrom c (.inr hreached) with ⟨ct, hct, -⟩ | hold | ⟨item, hitem, env, hplain, hanc⟩
      · exact hout (List.mem_map_of_mem hct)
      · exact hnone c hc hold
      · obtain ⟨entry, hentry, rfl⟩ := List.mem_map.1 hanc
        rw [hfirst] at hbatch
        rcases hbatch.carried hitem hplain hentry with heq | ⟨x, hx, rfl⟩
        · cases heq
        · exact hout (List.mem_map_of_mem hx)
    · exact absurd hold (hnone c hc)

/-- A linear history that is delivered in batches to a shareable document has one entry on the
frontier after each of them iff it comes in one batch, and the epoch key opens nothing of it but
the last commit. -/
theorem oneShared_iff {deliveries : List (SharedDelivery κ P)} {r : Reader κ}
    (hnodup : (history.map Prod.fst).Nodup) (hhistory : history = deliveries.flatMap (·.batch))
    (hlinear : Linear none history) (hd : ∀ d ∈ deliveries, d.Whole)
    (hnone : ∀ c ∈ history.map Prod.fst, c ∉ r.heads) :
    Transition.Meets receiveShared
        (fun r d => OneEntry (history.map Prod.fst) (receiveShared r d).heads) r deliveries ↔
      deliveries.length ≤ 1 ∧ ∀ d ∈ deliveries, OnlyLast d.epoch d.batch := by
  rcases deliveries with _ | ⟨d, rest⟩
  · simp [Transition.Meets]
  have hsplit : history = [] ++ d.batch ++ rest.flatMap (·.batch) := by
    rw [hhistory, List.flatMap_cons, List.nil_append]
  have hwhole := hd d List.mem_cons_self
  obtain ⟨hepoch, -, honly⟩ := mem_heads_receiveShared (r := r) hnodup hsplit hlinear hwhole
  have hnodup' : (d.batch.map Prod.fst).Nodup := by
    rw [hsplit, List.nil_append, List.map_append, List.nodup_append] at hnodup
    exact hnodup.1
  have hrefs : d.batch.map Prod.fst ⊆ history.map Prod.fst := by
    rw [hsplit, List.nil_append]
    exact List.map_subset _ (List.subset_append_left _ _)
  have hone : OneEntry (history.map Prod.fst) (receiveShared r d).heads ↔
      OnlyLast d.epoch d.batch := by
    constructor
    · exact onlyLast_of_oneEntry hnodup' hwhole.last hrefs hepoch
    · intro h
      obtain ⟨l, hl, hlmem, -⟩ := lastOf_of_ne_nil none hwhole.nonempty
      have hlast (c : Cref) := epochOpens_iff_last hl (hwhole.last l hl) h (c := c)
      refine ⟨l.1, ⟨hrefs (List.mem_map_of_mem hlmem), hepoch _ ((hlast _).2 rfl)⟩, ?_⟩
      rintro c ⟨hc, hhead⟩
      exact (hlast c).1 (honly hnone rfl c hc hhead)
  rcases rest with _ | ⟨d', rest⟩
  · simp [Transition.Meets, hone]
  · -- the second batch brings the tip of the first one back
    have hfalse : ¬ OneEntry (history.map Prod.fst)
        (receiveShared (receiveShared r d) d').heads := by
      rintro ⟨c, -, huniq⟩
      have hsplit' : history = d.batch ++ d'.batch ++ rest.flatMap (·.batch) := by
        rw [hhistory, List.flatMap_cons, List.flatMap_cons, List.append_assoc]
      have hwhole' := hd d' (List.mem_cons_of_mem _ List.mem_cons_self)
      obtain ⟨hepoch', htip, -⟩ := mem_heads_receiveShared (r := receiveShared r d) hnodup hsplit'
        hlinear hwhole'
      obtain ⟨l, hl, hlmem, hlast⟩ := lastOf_of_ne_nil none hwhole.nonempty
      obtain ⟨l', hl', hlmem', -⟩ := lastOf_of_ne_nil none hwhole'.nonempty
      have hrefs' : d'.batch.map Prod.fst ⊆ history.map Prod.fst := by
        rw [hsplit']
        exact List.map_subset _
          (List.subset_append_of_subset_left _ (List.subset_append_right _ _))
      have heq : l.1 = l'.1 := by
        rw [huniq l.1 ⟨hrefs (List.mem_map_of_mem hlmem), htip _ hlast⟩,
          huniq l'.1 ⟨hrefs' (List.mem_map_of_mem hlmem'),
            hepoch' _ ⟨l'.2, hlmem', hwhole'.last l' hl'⟩⟩]
      exact disjoint_of_nodup hnodup hsplit' (List.mem_map_of_mem hlmem)
        (heq ▸ List.mem_map_of_mem hlmem')
    simp [Transition.Meets, hfalse]

end SharedDelivery

/-! ## How small a frontier is -/

/-- Of the commits a call opens together whose key another one of them carries:

* after `open`, one is off the frontier iff the epoch key does not open it and, if it was on the
  frontier before, something takes it off (`Covers`);
* after `open_shared`, one is off the frontier only if the epoch key does not open it, and then it
  is, unless it was on the frontier under a key that does not open it.

A linear history that is delivered in batches has one entry on the frontier after each of them iff
the epoch key opens nothing of a batch but its last commit and, in a shareable document, there is
one batch. -/
theorem frontier_minimal [DecidableEq κ] :
    (∀ (walk : CausalWalk κ P) (epoch : Ciphertext κ P → Bool)
        (store : Cref → Option (Ciphertext κ P)) (heads : Heads κ)
        (batch : List (Cref × Ciphertext κ P)) (known : List Cref) (heads' : Heads κ)
        (opened : List (Cref × P)), (batch.map Prod.fst).Nodup →
        vaultOpen walk epoch store heads batch known = .ok (heads', opened) →
        ∀ c, CarriedWithin batch opened c →
          (c ∉ heads' ↔ ¬ EpochOpens batch epoch c ∧
            (c ∈ heads → Covers walk epoch store heads batch c))) ∧
      (∀ (epoch : Ciphertext κ P → Bool) (heads : Heads κ) (batch : List (Cref × Ciphertext κ P))
        (known : List Cref) (parents : ExtTreeMap Cref (List Cref)) (order : List Cref)
        (heads' : Heads κ) (opened : List (Cref × P)), (batch.map Prod.fst).Nodup →
        Shared.openShared heads batch epoch known parents order = .ok (heads', opened) →
        ∀ c, CarriedWithin batch opened c →
          (c ∉ heads' → ¬ EpochOpens batch epoch c) ∧
            (¬ EpochOpens batch epoch c → (c ∈ heads → c ∈ known ∨
              ∃ ct, (c, ct) ∈ batch ∧ heads[c]? = some ct.key) → c ∉ heads')) ∧
      (∀ (walk : CausalWalk κ P) (history : List (Cref × Ciphertext κ P))
        (deliveries : List (Delivery κ P)) (heads : Heads κ), walk.Lawful →
        (history.map Prod.fst).Nodup → history = deliveries.flatMap (·.batch) →
        Linear none history → (∀ d ∈ deliveries, d.Whole walk history) →
        (∀ c ∈ history.map Prod.fst, c ∉ heads) →
        (Transition.Meets (receive walk)
            (fun r d => OneEntry (history.map Prod.fst) (receive walk r d).heads) { heads }
            deliveries ↔
          ∀ d ∈ deliveries, OnlyLast d.epoch d.batch)) ∧
      ∀ (history : List (Cref × Ciphertext κ P)) (deliveries : List (SharedDelivery κ P))
        (heads : Heads κ), (history.map Prod.fst).Nodup →
        history = deliveries.flatMap (·.batch) → Linear none history →
        (∀ d ∈ deliveries, d.Whole) → (∀ c ∈ history.map Prod.fst, c ∉ heads) →
        (Transition.Meets receiveShared
            (fun r d => OneEntry (history.map Prod.fst) (receiveShared r d).heads) { heads }
            deliveries ↔
          deliveries.length ≤ 1 ∧ ∀ d ∈ deliveries, OnlyLast d.epoch d.batch) := by
  refine ⟨fun walk epoch store heads batch known heads' opened hnodup h c hc => ?_,
    fun epoch heads batch known parents order heads' opened hnodup h c hc => ?_,
    fun walk history deliveries heads hlawful hnodup hhistory hlinear hd hnone => ?_,
    fun history deliveries heads hnodup hhistory hlinear hd hnone => ?_⟩
  · exact not_mem_heads_vaultOpen_iff hnodup h hc
  · exact not_mem_heads_openShared hnodup h hc
  · have htip : Tip (history.map Prod.fst) heads (lastOf (none : Option (Cref × κ))
        ([] : List (Cref × Ciphertext κ P))) := by
      refine fun c hc => ⟨fun hhead => absurd hhead (hnone c hc), ?_⟩
      rintro ⟨k, ⟨⟩⟩
    have hhistory' : history = [] ++ deliveries.flatMap (·.batch) := hhistory
    exact onePrivate_iff hlawful hnodup hhistory' hlinear hd (List.nil_subset _) htip
  · exact oneShared_iff hnodup hhistory hlinear hd hnone

/-! ### Two commits -/

/-- Every reference is its own key: commit 1, and commit 2 on top of it. -/
def first : Cref × Ciphertext Cref Unit := (1, ⟨1, 1, .ok ⟨(), []⟩⟩)

@[inherit_doc first]
def second : Cref × Ciphertext Cref Unit := (2, ⟨2, 2, .ok ⟨(), [(1, 1)]⟩⟩)

/-- A walk that goes no further than the envelopes it starts at. -/
def shortWalk : CausalWalk Cref Unit := fun store seeds =>
  let opened := seeds.filterMap fun (ct, k) =>
    match ct.tryDecrypt k with
    | some (.ok env) => some (ct.contentRef, env)
    | _ => none
  { complete := opened.map fun (c, env) => (c, env.plaintext)
    next := opened.flatMap fun (_, env) => env.ancestors.filter fun (c, _) => (store c).isNone }

theorem mem_opened_shortWalk {seeds : List (Ciphertext Cref Unit × Cref)} {c : Cref}
    {env : Envelope Cref Unit} :
    (c, env) ∈ (seeds.filterMap fun (ct, k) =>
      match ct.tryDecrypt k with
      | some (.ok env) => some (ct.contentRef, env)
      | _ => none) ↔
    ∃ ct k, (ct, k) ∈ seeds ∧ ct.contentRef = c ∧ ct.tryDecrypt k = some (.ok env) := by
  rw [List.mem_filterMap]
  constructor
  · rintro ⟨⟨ct, k⟩, hmem, heq⟩
    dsimp only at heq
    split at heq
    · rename_i hopen
      cases heq
      exact ⟨ct, k, hmem, rfl, hopen⟩
    · cases heq
  · rintro ⟨ct, k, hmem, rfl, hopen⟩
    exact ⟨(ct, k), hmem, by simp only [hopen]⟩

theorem shortWalk_lawful : shortWalk.Lawful where
  complete := by
    intro store seeds c plain h
    obtain ⟨⟨c, env⟩, hmem, heq⟩ := List.mem_map.1 h
    cases heq
    obtain ⟨ct, k, hseed, rfl, hopen⟩ := mem_opened_shortWalk.1 hmem
    exact ⟨env, .seed hseed hopen, rfl⟩
  next := by
    intro store seeds c k h
    obtain ⟨⟨d, env⟩, hmem, hanc⟩ := List.mem_flatMap.1 h
    obtain ⟨ct, k', hseed, rfl, hopen⟩ := mem_opened_shortWalk.1 hmem
    exact ⟨_, env, .seed hseed hopen, (List.mem_filter.1 hanc).1⟩

/-- Two commits that are delivered one by one, each under the epoch key, with nothing else in the
ciphertext store. -/
def oneByOne : List (Delivery Cref Unit) :=
  [⟨[first], fun _ => true, fun c => if c = 1 then some first.2 else none⟩,
    ⟨[second], fun _ => true, fun c => if c = 2 then some second.2 else none⟩]

/-- The same two in one batch. -/
def together : Delivery Cref Unit :=
  ⟨[first, second], fun _ => true, fun c => if c = 1 then some first.2 else
    if c = 2 then some second.2 else none⟩

/-- The two to a shareable document, in one batch, and the epoch key opens what it opens. -/
def togetherShared (epoch : Ciphertext Cref Unit → Bool) : SharedDelivery Cref Unit :=
  ⟨[first, second], epoch, (∅ : ExtTreeMap Cref (List Cref)).insert 2 [1], []⟩

/-- What `open` and `open_shared` leave of the two when the epoch key opens both. -/
def togetherHeads : Heads Cref :=
  advanceHeads ∅ [(1, 1), (2, 2)] [1]

theorem carriedWithin_together :
    CarriedWithin [first, second] [((1 : Cref), ()), (2, ())] 1 := by
  refine ⟨List.mem_cons_self, 2, by simp, by decide, second.2, ⟨(), [(1, 1)]⟩, first.2, ?_, rfl, ?_,
    List.mem_cons_self⟩
  · exact List.mem_cons_of_mem _ List.mem_cons_self
  · exact List.mem_cons_self

theorem linear_together : Linear none [first, second] :=
  ⟨rfl, ⟨(), rfl⟩, rfl, ⟨(), rfl⟩, trivial⟩

/-- A commit and the next one, opened under the epoch key in one batch, both stay on the frontier,
after `open` and after `open_shared`; so the two have two entries. In a shareable document they have
two also when they come one by one. -/
theorem carried_commit_is_head :
    vaultOpen shortWalk (fun _ => true) together.store ∅ [first, second] [] =
        .ok (togetherHeads, [(1, ()), (2, ())]) ∧
      Shared.openShared ∅ [first, second] (fun _ => true) []
          ((∅ : ExtTreeMap Cref (List Cref)).insert 2 [1]) [] =
        .ok (togetherHeads, [(1, ()), (2, ())]) ∧
      CarriedWithin [first, second] [((1 : Cref), ()), (2, ())] 1 ∧ 1 ∈ togetherHeads ∧
      ¬ OneEntry [1, 2] (receive shortWalk { heads := ∅ } together).heads ∧
      (receiveShared (receiveShared { heads := ∅ } ⟨[first], fun _ => true, ∅, []⟩)
        ⟨[second], fun _ => true, (∅ : ExtTreeMap Cref (List Cref)).insert 2 [1], []⟩).heads.keys =
          [1, 2] := by
  refine ⟨rfl, rfl, carriedWithin_together, by decide, ?_, by decide⟩
  rintro ⟨c, -, huniq⟩
  have hone := huniq 1 ⟨by simp, by decide⟩
  have htwo := huniq 2 ⟨by simp, by decide⟩
  exact absurd (hone.trans htwo.symm) (by decide)

theorem whole_oneByOne : ∀ d ∈ oneByOne, d.Whole shortWalk [first, second] := by
  have hwhole (c : Cref) (item : Cref × Ciphertext Cref Unit) (hc : item.1 = c)
      (hmem : item ∈ [first, second]) (hcref : item.2.contentRef = c) (hkey : item.2.key = c)
      {env : Envelope Cref Unit} (hplain : item.2.plain = .ok env)
      (hanc : ∀ entry ∈ env.ancestors, entry.1 ≠ c) :
      Delivery.Whole shortWalk [first, second]
        ⟨[item], fun _ => true, fun x => if x = c then some item.2 else none⟩ := by
    obtain ⟨c, ct⟩ := item
    subst hc
    refine ⟨by simp, fun _ _ => rfl, fun x ct' h => ?_, fun x ct' h => ?_, fun seeds hseeds => ?_⟩
    · obtain ⟨rfl, rfl⟩ := Prod.mk.inj (List.mem_singleton.1 h)
      exact if_pos rfl
    · dsimp only at h
      split at h
      · next heq =>
        cases h
        exact heq ▸ hmem
      · cases h
    · -- nothing leads back to the commit itself, and nothing else is in the store
      have hopens {x : Cref} {env' : Envelope Cref Unit}
          (h : Opens (fun x => if x = c then some ct else none) seeds x env') :
          x = c ∧ env' = env ∧ (ct, ct.key) ∈ seeds := by
        induction h with
        | @seed ct' k env' hseed hopen =>
          obtain ⟨y, hy, hk⟩ := hseeds _ hseed
          obtain ⟨rfl, rfl⟩ := Prod.mk.inj (List.mem_singleton.1 hy)
          dsimp only at hk
          subst hk
          rw [Ciphertext.tryDecrypt, if_pos rfl] at hopen
          rw [hplain] at hopen
          cases hopen
          exact ⟨hcref, rfl, hseed⟩
        | @ancestor e env₁ x k ct' env' _ hx hct _ ih =>
          split at hct
          · next heq =>
            obtain ⟨-, rfl, -⟩ := ih
            exact absurd heq (hanc _ hx)
          · cases hct
      refine ⟨fun x env' h => ?_, fun x env' y k h hy hnone => ?_⟩
      · obtain ⟨rfl, rfl, hseed⟩ := hopens h
        refine List.mem_map.2 ⟨(x, env'.plaintext), List.mem_map.2 ⟨(x, env'), ?_, rfl⟩, rfl⟩
        refine mem_opened_shortWalk.2 ⟨ct, ct.key, hseed, hcref, ?_⟩
        rw [Ciphertext.tryDecrypt, if_pos rfl]
        exact congrArg some hplain
      · obtain ⟨rfl, rfl, hseed⟩ := hopens h
        refine List.mem_map.2 ⟨(y, k), List.mem_flatMap.2 ⟨(x, env'), ?_, ?_⟩, rfl⟩
        · refine mem_opened_shortWalk.2 ⟨ct, ct.key, hseed, hcref, ?_⟩
          rw [Ciphertext.tryDecrypt, if_pos rfl]
          exact congrArg some hplain
        · exact List.mem_filter.2 ⟨hy, Option.isNone_iff_eq_none.2 hnone⟩
  refine List.forall_mem_cons.2 ⟨?_, List.forall_mem_cons.2 ⟨?_, fun d h => by cases h⟩⟩
  · exact hwhole 1 first rfl List.mem_cons_self rfl rfl rfl fun entry h => by cases h
  · refine hwhole 2 second rfl (by simp) rfl rfl rfl fun entry h => ?_
    rw [List.mem_singleton.1 h]
    decide

/-- The two commits: together, and one by one. -/
theorem frontier_minimal_firstSecond :
    ((1 : Cref) ∉ togetherHeads ↔ ¬ EpochOpens [first, second] (fun _ => true) 1 ∧
        ((1 : Cref) ∈ (∅ : Heads Cref) →
          Covers shortWalk (fun _ => true) together.store ∅ [first, second] 1)) ∧
      ((1 : Cref) ∉ togetherHeads → ¬ EpochOpens [first, second] (fun _ => true) 1) ∧
      (Transition.Meets (receive shortWalk)
          (fun r d => OneEntry [1, 2] (receive shortWalk r d).heads) { heads := ∅ } oneByOne ↔
        ∀ d ∈ oneByOne, OnlyLast d.epoch d.batch) ∧
      (Transition.Meets receiveShared
          (fun r d => OneEntry [1, 2] (receiveShared r d).heads) { heads := ∅ }
          [togetherShared fun ct => ct.contentRef = 2] ↔
        1 ≤ 1 ∧ ∀ d ∈ [togetherShared fun ct => ct.contentRef = 2], OnlyLast d.epoch d.batch) := by
  have hnone : ∀ c ∈ [first, second].map Prod.fst, c ∉ (∅ : Heads Cref) := fun c _ h => by
    simp at h
  refine ⟨frontier_minimal.1 shortWalk (fun _ => true) together.store ∅ [first, second] [] _ _
      (by decide) rfl 1 carriedWithin_together,
    (frontier_minimal.2.1 (fun _ => true) ∅ [first, second] []
      ((∅ : ExtTreeMap Cref (List Cref)).insert 2 [1]) [] _ _ (by decide) rfl 1
      carriedWithin_together).1,
    frontier_minimal.2.2.1 shortWalk [first, second] oneByOne ∅ shortWalk_lawful (by decide) rfl
      linear_together whole_oneByOne hnone,
    frontier_minimal.2.2.2 [first, second] [togetherShared fun ct => ct.contentRef = 2] ∅
      (by decide) rfl linear_together (List.forall_mem_cons.2 ⟨?_, fun d h => by cases h⟩) hnone⟩
  refine ⟨by simp [togetherShared], fun item hitem => ?_, fun item hitem env hplain => ?_⟩
  · cases hitem
    rfl
  · rcases List.mem_pair.1 hitem with rfl | rfl
    · cases hplain
      rfl
    · cases hplain
      rfl

end Polyvisor.Minimal
