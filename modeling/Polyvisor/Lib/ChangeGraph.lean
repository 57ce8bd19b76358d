import Mathlib.Data.Finset.Insert
import Mathlib.Data.List.Basic
import Mathlib.Data.List.Nodup
import Mathlib.Tactic.Common

/-!
# Causal histories

A change names the changes it was made on top of. A history holds changes in an order in which
each comes after those it names, and a batch of changes that arrive in any order is delivered
into a history by applying what is ready until nothing is.

* `Causal`: a history in such an order, without repetition.
* `heads`: the changes no other change of the history names.
* `deliver`: the delivery of a batch. It keeps the history, adds changes of the batch only
  (`deliver_eq_append`), keeps the order causal (`Causal.deliver`) and leaves nothing behind that
  is ready (`deliver_saturated`).
* `order`: a batch put in order by repeated selection, which `order_eq_some` specifies.
* `Causal.subset_of_heads`: a causal history that holds the heads of another holds all of it.
-/

/-- How changes of type `C` are named, and which names each one rests on. -/
structure ChangeGraph (C I : Type*) where
  id : C → I
  deps : C → List I

namespace ChangeGraph

variable {C I : Type*} (g : ChangeGraph C I)

/-- The names of the changes of a history. -/
def ids (doc : List C) : List I :=
  doc.map g.id

/-- A change that is not in the history, while everything it rests on is. -/
def Ready (doc : List C) (c : C) : Prop :=
  g.id c ∉ g.ids doc ∧ ∀ d ∈ g.deps c, d ∈ g.ids doc

instance decidableReady [DecidableEq I] (doc : List C) (c : C) : Decidable (g.Ready doc c) :=
  inferInstanceAs (Decidable (_ ∧ _))

/-- A history in which every change comes after what it rests on. -/
inductive Causal : List C → Prop
  | nil : Causal []
  | snoc {doc : List C} {c : C} (hdoc : Causal doc) (hready : g.Ready doc c) : Causal (doc ++ [c])

/-- The names of the changes that no change of the history rests on. -/
def heads [DecidableEq I] (doc : List C) : List I :=
  (doc.filter fun c => ∀ x ∈ doc, g.id c ∉ g.deps x).map g.id

/-- Apply the changes of a batch that are ready, one after the other, at most `fuel` of them. -/
def deliver [DecidableEq I] : ℕ → List C → List C → List C
  | 0, doc, _ => doc
  | fuel + 1, doc, batch =>
    match batch.find? fun c => g.Ready doc c with
    | none => doc
    | some c => deliver fuel (doc ++ [c]) batch

variable {g}

@[simp]
theorem ids_append (xs ys : List C) : g.ids (xs ++ ys) = g.ids xs ++ g.ids ys :=
  List.map_append

theorem id_mem_ids {doc : List C} {c : C} (h : c ∈ doc) : g.id c ∈ g.ids doc :=
  List.mem_map_of_mem h

/-- Under injective names, a history holds what it holds the name of. -/
theorem mem_of_id_mem_ids (hid : Function.Injective g.id) {doc : List C} {c : C}
    (h : g.id c ∈ g.ids doc) : c ∈ doc := by
  obtain ⟨x, hx, heq⟩ := List.mem_map.1 h
  exact hid heq ▸ hx

/-! ## Causal order -/

theorem Causal.nodup {doc : List C} (h : g.Causal doc) : doc.Nodup := by
  induction h with
  | nil => exact List.nodup_nil
  | snoc _ hready ih =>
    refine List.nodup_append.2 ⟨ih, List.nodup_singleton _, fun x hx y hy heq => ?_⟩
    rw [List.mem_singleton.1 hy] at heq
    exact hready.1 (heq ▸ id_mem_ids hx)

/-- What a change of a causal history rests on is in the history. -/
theorem Causal.deps_mem {doc : List C} (h : g.Causal doc) {c : C} (hc : c ∈ doc) {d : I}
    (hd : d ∈ g.deps c) : d ∈ g.ids doc := by
  induction h with
  | nil => cases hc
  | snoc _ hready ih =>
    rw [ids_append]
    rcases List.mem_append.1 hc with hc | hc
    · exact List.mem_append_left _ (ih hc)
    · rw [List.mem_singleton.1 hc] at hd
      exact List.mem_append_left _ (hready.2 d hd)

section Heads

variable [DecidableEq I]

theorem mem_heads {doc : List C} {i : I} :
    i ∈ g.heads doc ↔ ∃ c ∈ doc, (∀ x ∈ doc, g.id c ∉ g.deps x) ∧ g.id c = i := by
  simp [heads, and_assoc]

theorem heads_subset_ids {doc : List C} {i : I} (h : i ∈ g.heads doc) : i ∈ g.ids doc := by
  obtain ⟨c, hc, -, rfl⟩ := mem_heads.1 h
  exact id_mem_ids hc

/-- The change that came last is a head. -/
theorem Causal.last_mem_heads {doc : List C} {c : C} (h : g.Causal doc) (hready : g.Ready doc c) :
    g.id c ∈ g.heads (doc ++ [c]) := by
  refine mem_heads.2 ⟨c, by simp, fun x hx hmem => hready.1 ?_, rfl⟩
  rcases List.mem_append.1 hx with hx | hx
  · exact h.deps_mem hx hmem
  · rw [List.mem_singleton.1 hx] at hmem
    exact hready.2 _ hmem

/-- A head stays one until a change rests on it. -/
theorem mem_heads_snoc {doc : List C} {c : C} {i : I} (h : i ∈ g.heads doc) (hi : i ∉ g.deps c) :
    i ∈ g.heads (doc ++ [c]) := by
  obtain ⟨x, hx, hrest, rfl⟩ := mem_heads.1 h
  refine mem_heads.2 ⟨x, List.mem_append_left _ hx, fun y hy => ?_, rfl⟩
  rcases List.mem_append.1 hy with hy | hy
  · exact hrest y hy
  · rw [List.mem_singleton.1 hy]
    exact hi

/-- Histories with the heads of another hold all of it: from its last change down, each is a head
or named by a change already found. -/
theorem Causal.subset_of_heads (hid : Function.Injective g.id) {doc other : List C}
    (h : g.Causal doc) (hother : g.Causal other) (hheads : ∀ i ∈ g.heads doc, i ∈ g.ids other) :
    doc ⊆ other := by
  induction h with
  | nil => exact List.nil_subset _
  | @snoc doc c hdoc hready ih =>
    have hc : c ∈ other := mem_of_id_mem_ids hid (hheads _ (hdoc.last_mem_heads hready))
    have hrest : doc ⊆ other := ih fun i hi => by
      by_cases hdep : i ∈ g.deps c
      · exact hother.deps_mem hc hdep
      · exact hheads i (mem_heads_snoc hi hdep)
    intro x hx
    rcases List.mem_append.1 hx with hx | hx
    · exact hrest hx
    · exact List.mem_singleton.1 hx ▸ hc

/-- A causal history with a change made on the heads of another is longer than the other. -/
theorem Causal.length_lt_of_deps_heads (hid : Function.Injective g.id) {doc other : List C} {c : C}
    (h : g.Causal doc) (hother : g.Causal other) (hdeps : g.deps c = g.heads doc)
    (hnew : c ∉ doc) (hc : c ∈ other) : doc.length < other.length := by
  have hsub : doc ⊆ other := h.subset_of_heads hid hother fun i hi =>
    hother.deps_mem hc (hdeps ▸ hi)
  have hcons : c :: doc ⊆ other := List.cons_subset.2 ⟨hc, hsub⟩
  exact (List.nodup_cons.2 ⟨hnew, h.nodup⟩).length_le_of_subset hcons

end Heads

/-! ## Delivery -/

section Deliver

variable [DecidableEq I]

/-- Delivery adds changes of the batch only, and none that the history has the name of, also by
then. -/
theorem deliver_eq_append_nodup (fuel : ℕ) (doc batch : List C) :
    ∃ added, g.deliver fuel doc batch = doc ++ added ∧ added ⊆ batch ∧ (g.ids added).Nodup ∧
      ∀ c ∈ added, g.id c ∉ g.ids doc := by
  induction fuel generalizing doc with
  | zero => exact ⟨[], (List.append_nil doc).symm, List.nil_subset _, List.nodup_nil, by simp⟩
  | succ fuel ih =>
    rw [deliver]
    split
    · exact ⟨[], (List.append_nil doc).symm, List.nil_subset _, List.nodup_nil, by simp⟩
    next c hc =>
      have hready : g.Ready doc c := by simpa using List.find?_some hc
      obtain ⟨added, heq, hsub, hnodup, hnew⟩ := ih (doc ++ [c])
      simp only [ids_append, List.mem_append, not_or] at hnew
      refine ⟨c :: added, by rw [heq, List.append_assoc]; rfl,
        List.cons_subset.2 ⟨List.mem_of_find?_eq_some hc, hsub⟩, ?_, ?_⟩
      · refine List.nodup_cons.2 ⟨fun hmem => ?_, hnodup⟩
        obtain ⟨x, hx, heq⟩ := List.mem_map.1 hmem
        exact (hnew x hx).2 (heq ▸ List.mem_singleton_self _)
      · exact List.forall_mem_cons.2 ⟨hready.1, fun x hx => (hnew x hx).1⟩

/-- Delivery adds changes of the batch only. -/
theorem deliver_eq_append (fuel : ℕ) (doc batch : List C) :
    ∃ added, g.deliver fuel doc batch = doc ++ added ∧ added ⊆ batch := by
  obtain ⟨added, heq, hsub, -⟩ := deliver_eq_append_nodup (g := g) fuel doc batch
  exact ⟨added, heq, hsub⟩

/-- Names from which no change of the batch leads out are not left by delivery. -/
theorem ids_deliver_subset {S : Set I} {doc batch : List C} (hdoc : ∀ i ∈ g.ids doc, i ∈ S)
    (hclosed : ∀ c ∈ batch, g.id c ∉ S → ∃ d ∈ g.deps c, d ∉ S) (fuel : ℕ) :
    ∀ i ∈ g.ids (g.deliver fuel doc batch), i ∈ S := by
  induction fuel generalizing doc with
  | zero => exact hdoc
  | succ fuel ih =>
    rw [deliver]
    split
    · exact hdoc
    next c hc =>
      have hready : g.Ready doc c := by simpa using List.find?_some hc
      refine ih fun i hi => ?_
      rw [ids_append, List.mem_append] at hi
      rcases hi with hi | hi
      · exact hdoc i hi
      · obtain rfl : i = g.id c := by simpa [ids] using hi
        by_contra hout
        obtain ⟨d, hd, hdout⟩ := hclosed c (List.mem_of_find?_eq_some hc) hout
        exact hdout (hdoc d (hready.2 d hd))

/-- The one change of a batch that is ready is delivered first. -/
theorem deliver_succ_of_ready {doc batch : List C} {c : C} (hc : c ∈ batch)
    (hready : g.Ready doc c) (honly : ∀ x ∈ batch, g.Ready doc x → x = c) (fuel : ℕ) :
    g.deliver (fuel + 1) doc batch = g.deliver fuel (doc ++ [c]) batch := by
  rw [deliver]
  split
  next hnone => exact absurd hready (by simpa using List.find?_eq_none.1 hnone c hc)
  next x hx =>
    have hxready : g.Ready doc x := by simpa using List.find?_some hx
    rw [honly x (List.mem_of_find?_eq_some hx) hxready]

theorem Causal.deliver {doc : List C} (h : g.Causal doc) (fuel : ℕ) (batch : List C) :
    g.Causal (g.deliver fuel doc batch) := by
  induction fuel generalizing doc with
  | zero => exact h
  | succ fuel ih =>
    rw [ChangeGraph.deliver]
    split
    · exact h
    next c hc =>
      have hready : g.Ready doc c := by simpa using List.find?_some hc
      exact ih (h.snoc hready)

/-- How many changes of a batch are not in the history. -/
def missing (g : ChangeGraph C I) (doc batch : List C) : ℕ :=
  batch.countP fun c => g.id c ∉ g.ids doc

theorem missing_snoc_lt {doc batch : List C} {c : C} (hc : c ∈ batch) (hready : g.Ready doc c) :
    g.missing (doc ++ [c]) batch < g.missing doc batch := by
  have hmono (xs : List C) : g.missing (doc ++ [c]) xs ≤ g.missing doc xs := by
    refine List.countP_mono_left fun x _ hx => ?_
    simp only [ids_append, List.mem_append, decide_eq_true_eq] at hx ⊢
    exact fun hmem => hx (.inl hmem)
  obtain ⟨before, after, rfl⟩ := List.append_of_mem hc
  have hbefore := hmono before
  have hafter := hmono after
  simp only [missing, List.countP_append] at hbefore hafter ⊢
  rw [List.countP_cons_of_neg (by simp [ids]), List.countP_cons_of_pos (by simpa using hready.1)]
  omega

/-- Delivery with a turn for each change of the batch leaves nothing that is ready. -/
theorem deliver_saturated {fuel : ℕ} {doc batch : List C} (hfuel : g.missing doc batch ≤ fuel)
    {c : C} (hc : c ∈ batch) : ¬ g.Ready (g.deliver fuel doc batch) c := by
  induction fuel generalizing doc with
  | zero =>
    have hzero : g.missing doc batch = 0 := Nat.le_zero.1 hfuel
    intro hready
    have := List.countP_eq_zero.1 hzero c hc
    rw [decide_eq_true_eq, not_not] at this
    exact hready.1 this
  | succ fuel ih =>
    rw [deliver]
    split
    next hnone => simpa using List.find?_eq_none.1 hnone c hc
    next x hx =>
      have hready : g.Ready doc x := by simpa using List.find?_some hx
      have hlt := missing_snoc_lt (List.mem_of_find?_eq_some hx) hready
      exact ih (by omega)

end Deliver

/-! ## Selection

A batch put in order by taking, again and again, the first change that rests on what is available
only. -/

section Select

variable [DecidableEq I] {available : Finset I}

variable (g) in
/-- The first change that rests on available ones only, and the rest. -/
def takeReady (available : Finset I) : List C → Option (C × List C)
  | [] => none
  | c :: rest =>
    if ∀ d ∈ g.deps c, d ∈ available then some (c, rest)
    else (takeReady available rest).map fun (found, rest) => (found, c :: rest)

theorem takeReady_eq_some {remaining rest : List C} {c : C}
    (h : g.takeReady available remaining = some (c, rest)) :
    (∀ d ∈ g.deps c, d ∈ available) ∧ remaining.Perm (c :: rest) := by
  induction remaining generalizing rest with
  | nil => simp [takeReady] at h
  | cons x remaining ih =>
    rw [takeReady] at h
    split_ifs at h with hready
    · obtain ⟨rfl, rfl⟩ := Prod.mk.inj (Option.some.inj h)
      exact ⟨hready, List.Perm.refl _⟩
    · obtain ⟨⟨found, others⟩, hfound, heq⟩ := Option.map_eq_some_iff.1 h
      obtain ⟨rfl, rfl⟩ := Prod.mk.inj heq
      obtain ⟨hdeps, hperm⟩ := ih hfound
      exact ⟨hdeps, (hperm.cons x).trans (List.Perm.swap found x others)⟩

variable (g) in
/-- The batch in the order of selection, if no turn finds every remaining change waiting. -/
def order (available : Finset I) (remaining : List C) : Option (List C) :=
  match remaining with
  | [] => some []
  | c :: rest =>
    match _hfound : g.takeReady available (c :: rest) with
    | none => none
    | some (c, rest) => (order (insert (g.id c) available) rest).map (c :: ·)
termination_by remaining.length
decreasing_by
  have hlength := (takeReady_eq_some _hfound).2.length_eq
  simp only [List.length_cons] at hlength ⊢
  omega

variable (g) in
/-- Every change of the list rests on available changes and earlier ones of the list. -/
def InOrder (available : Finset I) : List C → Prop
  | [] => True
  | c :: rest => (∀ d ∈ g.deps c, d ∈ available) ∧ InOrder (insert (g.id c) available) rest

theorem inOrder_iff {l : List C} : g.InOrder available l ↔
    ∀ before c after, l = before ++ c :: after →
      ∀ d ∈ g.deps c, d ∈ available ∨ d ∈ g.ids before := by
  induction l generalizing available with
  | nil => simp [InOrder]
  | cons x l ih =>
    rw [InOrder, ih]
    constructor
    · rintro ⟨hx, hrest⟩ before c after heq d hd
      rcases before with _ | ⟨y, before⟩
      · obtain ⟨rfl, rfl⟩ := List.cons.inj heq
        exact .inl (hx d hd)
      · obtain ⟨rfl, rfl⟩ := List.cons.inj heq
        rcases hrest before c after rfl d hd with havailable | hbefore
        · rcases Finset.mem_insert.1 havailable with rfl | hold
          · exact .inr List.mem_cons_self
          · exact .inl hold
        · exact .inr (List.mem_cons_of_mem _ hbefore)
    · intro h
      refine ⟨fun d hd => ?_, fun before c after heq d hd => ?_⟩
      · simpa [ids] using h [] x l rfl d hd
      · rcases h (x :: before) c after (by rw [heq, List.cons_append]) d hd with hold | hbefore
        · exact .inl (Finset.mem_insert_of_mem hold)
        · rcases List.mem_cons.1 hbefore with rfl | hlater
          · exact .inl (Finset.mem_insert_self _ _)
          · exact .inr hlater

/-- What selection answers is the batch, in an order in which each change comes after what it
rests on. -/
theorem order_eq_some {remaining ordered : List C}
    (h : g.order available remaining = some ordered) :
    remaining.Perm ordered ∧ g.InOrder available ordered := by
  fun_induction g.order available remaining generalizing ordered with
  | case1 available =>
    obtain rfl := Option.some.inj h
    exact ⟨List.Perm.refl _, trivial⟩
  | case2 => exact nomatch h
  | case3 available x remaining c rest hfound ih =>
    obtain ⟨later, hlater, rfl⟩ := Option.map_eq_some_iff.1 h
    obtain ⟨hdeps, hperm⟩ := takeReady_eq_some hfound
    obtain ⟨hpermlater, hinorder⟩ := ih hlater
    exact ⟨hperm.trans (hpermlater.cons c), hdeps, hinorder⟩

/-- Changes that wait in a history and come in an order are in it. -/
theorem InOrder.ids_mem {doc l : List C} (h : g.InOrder available l)
    (havailable : ∀ i ∈ available, i ∈ g.ids doc) (hl : ∀ c ∈ l, ¬ g.Ready doc c) :
    ∀ c ∈ l, g.id c ∈ g.ids doc := by
  induction l generalizing available with
  | nil => simp
  | cons x l ih =>
    obtain ⟨hx, hrest⟩ := List.forall_mem_cons.1 hl
    have hid : g.id x ∈ g.ids doc := by
      by_contra hnew
      exact hx ⟨hnew, fun d hd => havailable d (h.1 d hd)⟩
    refine List.forall_mem_cons.2 ⟨hid, ih h.2 (fun i hi => ?_) hrest⟩
    rcases Finset.mem_insert.1 hi with rfl | hi
    · exact hid
    · exact havailable i hi

end Select

end ChangeGraph
