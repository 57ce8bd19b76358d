import Polyvisor.History.Document

/-!
# Publishing a batch

`Document::publish`: whatever is submitted, the call ends, and either nothing has changed or
exactly the new changes have been accepted, each after those it rests on. Nothing is assumed of
the library here.

## Main results

* `select_spec`: what the first loop picks of a batch.
* `publish_cases`: the three ways a call ends.
* `publish_exact`: what a call leaves behind.
-/

namespace Polyvisor.History

variable {lib : Library} {d : Document} {blobs : List Bytes}

/-- What publishing leaves of a batch: `ordered` has gone out. -/
structure Published (d d' : Document) (submitted ordered : List Change) : Prop where
  /-- The pending list gained them, in this order. -/
  pending : d'.pending = d.pending ++ ordered.map Change.commit
  /-- Each was submitted. -/
  subset : ∀ change ∈ ordered, change ∈ submitted
  /-- None went out twice. -/
  nodup : (ordered.map Change.hash).Nodup
  /-- They are those that were not applied before. -/
  fresh : ∀ hash, hash ∈ ordered.map Change.hash ↔
    hash ∈ submitted.map Change.hash ∧ hash ∉ d.applied
  /-- Each comes after what it rests on. -/
  order : ∀ before change after, ordered = before ++ change :: after →
    ∀ dep ∈ change.deps, dep ∈ d.applied ∨ dep ∈ before.map Change.hash
  /-- The applied set grew by exactly these. -/
  applied : d'.applied = d.applied ∪ (ordered.map Change.hash).toFinset
  /-- Whatever one of them rests on is applied. -/
  deps : ∀ change ∈ ordered, ∀ dep ∈ change.deps, dep ∈ d'.applied
  tree : d'.tree = d.tree

/-! ## The first loop -/

/-- What was picked of the changes seen so far. -/
structure Selected (applied : Finset CommitId) (seen : List Change) (batch : Finset CommitId)
    (changes : List Change) : Prop where
  batch : batch = (changes.map Change.hash).toFinset
  nodup : (changes.map Change.hash).Nodup
  subset : ∀ change ∈ changes, change ∈ seen
  fresh : ∀ hash, hash ∈ changes.map Change.hash ↔
    hash ∈ seen.map Change.hash ∧ hash ∉ applied

theorem Selected.pass {applied batch : Finset CommitId} {seen changes : List Change}
    (h : Selected applied seen batch changes) {change : Change}
    (hknown : change.hash ∈ applied ∨ change.hash ∈ batch) :
    Selected applied (seen ++ [change]) batch changes where
  batch := h.batch
  nodup := h.nodup
  subset c hc := List.mem_append_left _ (h.subset c hc)
  fresh hash := by
    rw [h.fresh, List.map_append, List.mem_append, List.map_singleton, List.mem_singleton]
    constructor
    · rintro ⟨hseen, hnew⟩
      exact ⟨.inl hseen, hnew⟩
    · rintro ⟨hseen | rfl, hnew⟩
      · exact ⟨hseen, hnew⟩
      · -- the change passed over is not applied, so it came before
        rw [h.batch, List.mem_toFinset, h.fresh] at hknown
        exact hknown.resolve_left hnew

theorem Selected.pick {applied batch : Finset CommitId} {seen changes : List Change}
    (h : Selected applied seen batch changes) {change : Change} (happlied : change.hash ∉ applied)
    (hbatch : change.hash ∉ batch) :
    Selected applied (seen ++ [change]) (insert change.hash batch) (changes ++ [change]) where
  batch := by
    ext hash
    simp [h.batch]
  nodup := by
    have hnew : change.hash ∉ changes.map Change.hash := by
      rw [h.batch, List.mem_toFinset] at hbatch
      exact hbatch
    rw [List.map_append, List.nodup_append]
    refine ⟨h.nodup, List.nodup_singleton _, fun hash hhash other hother heq => ?_⟩
    rw [List.map_singleton, List.mem_singleton] at hother
    exact hnew (hother ▸ heq ▸ hhash)
  subset c hc := by
    rcases List.mem_append.1 hc with hold | hlast
    · exact List.mem_append_left _ (h.subset c hold)
    · exact List.mem_append_right _ hlast
  fresh hash := by
    simp only [List.map_append, List.mem_append, h.fresh, List.map_singleton, List.mem_singleton]
    constructor
    · rintro (⟨hseen, hnew⟩ | rfl)
      · exact ⟨.inl hseen, hnew⟩
      · exact ⟨.inr rfl, happlied⟩
    · rintro ⟨hseen | rfl, hnew⟩
      · exact .inl ⟨hseen, hnew⟩
      · exact .inr rfl

theorem select_spec {applied batch batch' : Finset CommitId} {seen changes changes' : List Change}
    (h : Document.select lib applied batch changes blobs = .ok (batch', changes'))
    (hselected : Selected applied seen batch changes) :
    ∃ submitted, blobs.map lib.fromBytes = submitted.map .ok ∧
      Selected applied (seen ++ submitted) batch' changes' := by
  induction blobs generalizing batch seen changes with
  | nil =>
    obtain ⟨rfl, rfl⟩ := Prod.mk.inj (Except.ok.inj h)
    refine ⟨[], rfl, ?_⟩
    rw [List.append_nil]
    exact hselected
  | cons blob rest ih =>
    rw [Document.select] at h
    rcases hchange : lib.fromBytes blob with e | change
    · simp [hchange] at h
    simp only [hchange] at h
    split_ifs at h with hknown
    · obtain ⟨submitted, hsubmitted, hrest⟩ := ih h (hselected.pass hknown)
      refine ⟨change :: submitted, by rw [List.map_cons, hchange, hsubmitted, List.map_cons], ?_⟩
      rw [List.append_assoc] at hrest
      exact hrest
    · rw [not_or] at hknown
      obtain ⟨submitted, hsubmitted, hrest⟩ := ih h (hselected.pick hknown.1 hknown.2)
      refine ⟨change :: submitted, by rw [List.map_cons, hchange, hsubmitted, List.map_cons], ?_⟩
      rw [List.append_assoc] at hrest
      exact hrest

/-! ## The last loop -/

theorem record_spec (d : Document) (ordered : List Change) :
    (d.record ordered).pending = d.pending ++ ordered.map Change.commit ∧
      (d.record ordered).applied = d.applied ∪ (ordered.map Change.hash).toFinset ∧
      (d.record ordered).tree = d.tree := by
  induction ordered generalizing d with
  | nil => exact ⟨(List.append_nil _).symm, (Finset.union_empty _).symm, rfl⟩
  | cons change rest ih =>
    obtain ⟨hpending, happlied, htree⟩ := ih
      { d with pending := d.pending ++ [change.commit], applied := insert change.hash d.applied }
    refine ⟨hpending.trans ?_, happlied.trans ?_, htree⟩
    · rw [List.append_assoc]
      rfl
    · rw [List.map_cons, List.toFinset_cons, Finset.insert_union, Finset.union_insert]

/-! ## The call -/

/-- The three ways a call ends. -/
theorem publish_cases (lib : Library) (d : Document) (blobs : List Bytes) :
    (∃ e, d.publish lib blobs = (d, .error e)) ∨
      (∃ batch, Document.select lib d.applied ∅ [] blobs = .ok (batch, []) ∧
        d.publish lib blobs = (d, .ok false)) ∨
      ∃ batch changes candidate ordered,
        Document.select lib d.applied ∅ [] blobs = .ok (batch, changes) ∧ changes ≠ [] ∧
          d.doc.applyChanges lib changes = (candidate, .ok ()) ∧
          graph.order d.applied changes = some ordered ∧
          d.publish lib blobs = ({ d.record ordered with doc := candidate }, .ok true) := by
  rw [Document.publish]
  rcases hselect : Document.select lib d.applied ∅ [] blobs with e | ⟨batch, changes⟩
  · exact .inl ⟨_, rfl⟩
  dsimp only
  split_ifs with hmissing hnone
  · exact .inl ⟨_, rfl⟩
  · exact .inr (.inl ⟨batch, by rw [hnone], rfl⟩)
  rcases hcandidate : d.doc.applyChanges lib changes with ⟨candidate, e | ⟨⟩⟩
  · exact .inl ⟨_, rfl⟩
  rcases horder : graph.order d.applied changes with _ | ordered
  · exact .inl ⟨_, rfl⟩
  · exact .inr (.inr ⟨batch, changes, candidate, ordered, rfl, hnone, hcandidate, horder, rfl⟩)

/-- What the first loop picks of a whole batch. -/
theorem select_of_batch {batch : Finset CommitId} {changes : List Change}
    (h : Document.select lib d.applied ∅ [] blobs = .ok (batch, changes)) :
    ∃ submitted, blobs.map lib.fromBytes = submitted.map .ok ∧
      Selected d.applied submitted batch changes := by
  have hempty : Selected d.applied [] ∅ [] := ⟨rfl, List.nodup_nil, fun _ h => h, by simp⟩
  exact select_spec h hempty

/-- Publishing is atomic and exact: after an error the document is what it was, and after an
answer the batch decoded and exactly its new changes have been accepted, in a causal order. -/
theorem publish_exact (lib : Library) (d : Document) (blobs : List Bytes) :
    (∀ e, (d.publish lib blobs).2 = .error e → (d.publish lib blobs).1 = d) ∧
      ∀ landed, (d.publish lib blobs).2 = .ok landed → ∃ submitted ordered,
        blobs.map lib.fromBytes = submitted.map .ok ∧
          Published d (d.publish lib blobs).1 submitted ordered ∧
          (landed = true ↔ ordered ≠ []) := by
  rcases publish_cases lib d blobs with ⟨e, hrun⟩ | ⟨batch, hselect, hrun⟩ |
    ⟨batch, changes, candidate, ordered, hselect, hsome, -, horder, hrun⟩
  · rw [hrun]
    exact ⟨fun _ _ => rfl, fun _ h => (nomatch h)⟩
  · -- everything submitted is applied already
    obtain ⟨submitted, hsubmitted, hselected⟩ := select_of_batch hselect
    rw [hrun]
    refine ⟨fun _ h => (nomatch h), fun landed h => ⟨submitted, [], hsubmitted, ?_, ?_⟩⟩
    · refine ⟨(List.append_nil _).symm, fun _ h => (nomatch h), List.nodup_nil, hselected.fresh,
        fun before change after heq => ?_, (Finset.union_empty _).symm, fun _ h => (nomatch h), rfl⟩
      exact absurd heq.symm (by simp)
    · rw [← Except.ok.inj h]
      simp
  · obtain ⟨submitted, hsubmitted, hselected⟩ := select_of_batch hselect
    obtain ⟨hperm, hinorder⟩ := ChangeGraph.order_eq_some horder
    obtain ⟨hpending, happlied, htree⟩ := record_spec d ordered
    have hhashes : (changes.map Change.hash).Perm (ordered.map Change.hash) := hperm.map _
    have hafter := ChangeGraph.inOrder_iff.1 hinorder
    rw [hrun]
    refine ⟨fun _ h => (nomatch h), fun landed h => ⟨submitted, ordered, hsubmitted, ?_, ?_⟩⟩
    · refine ⟨hpending, fun change hchange => hselected.subset change (hperm.mem_iff.2 hchange),
        hhashes.nodup_iff.1 hselected.nodup, fun hash => ?_, hafter, happlied,
        fun change hchange dep hdep => ?_, htree⟩
      · rw [← hhashes.mem_iff, hselected.fresh]
      · -- what it rests on was applied or went out before it
        obtain ⟨before, after, rfl⟩ := List.append_of_mem hchange
        show dep ∈ (d.record (before ++ change :: after)).applied
        rw [happlied, Finset.mem_union, List.mem_toFinset, List.map_append]
        rcases hafter before change after rfl dep hdep with hold | hbefore
        · exact .inl hold
        · exact .inr (List.mem_append_left _ hbefore)
    · rw [← Except.ok.inj h]
      have hne : ordered ≠ [] := fun hnil => hsome (by
        rw [hnil] at hperm
        exact hperm.eq_nil)
      simp [hne]

end Polyvisor.History
