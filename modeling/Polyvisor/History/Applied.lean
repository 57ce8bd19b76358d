import Polyvisor.History.Publish
import Polyvisor.Lib.Transition

/-!
# The applied set

`Document` keeps the hashes of the changes in effect beside the automerge document: `apply`,
`apply_bundles` and `merge_snapshot` read them off the document again, while `publish`, `transact`
and `merge_anchor` insert what they made themselves. The two agree as long as nothing that waited
takes effect through one of the latter.

## Main results

* `exact_publish_iff`, `exact_author_iff`: when an operation of the second kind keeps the set exact.
* `applied_exact`: in which runs the set is exact throughout, and what `apply` and `apply_bundles`
  report there.
-/

namespace Polyvisor.History

/-! ## Operations -/

/-- An operation of a document. -/
inductive Operation where
  /-- `load`, of a checkpoint of the same document. -/
  | load (bytes : Bytes)
  | apply (items : List (CommitId × Bytes))
  | applyBundles (bundles : List (CommitId × Bytes))
  | mergeSnapshot (bytes : Bytes)
  | transact (edit : Document.Edit)
  | publish (blobs : List Bytes)
  | mergeAnchor (hash : CommitId) (rawBytes : Bytes)
  | drainLocalCommits

namespace Document

/-- The document after an operation. -/
def step (lib : Library) (d : Document) : Operation → Document
  | .load bytes => load lib bytes d.doc.actor d.tree
  | .apply items => (d.apply lib items).1
  | .applyBundles bundles => (d.applyBundles lib bundles).1
  | .mergeSnapshot bytes => (d.mergeSnapshot lib bytes).1
  | .transact edit => (d.transact edit).1
  | .publish blobs => (d.publish lib blobs).1
  | .mergeAnchor hash rawBytes => (d.mergeAnchor hash rawBytes).1
  | .drainLocalCommits => d.drainLocalCommits.1

/-- The applied set is the set of hashes of the changes in effect. -/
def Exact (d : Document) : Prop :=
  ∀ hash, hash ∈ d.applied ↔ hash ∈ d.doc.hashes

/-- An answer that says what a call brought into effect: `landed` if anything, `content` if a
change with operations. -/
structure Reports (before after : Automerge) (absorbed : Absorbed) : Prop where
  landed : absorbed.landed = true ↔ ∃ change ∈ after.changes, change.hash ∉ before.hashes
  content : absorbed.content = true ↔
    ∃ change ∈ after.changes, change.hash ∉ before.hashes ∧ change.isEmpty = false

/-- What an operation reports, if it is one of the two that do. -/
def ReportsExactly (lib : Library) (d : Document) : Operation → Prop
  | .apply items => Reports d.doc (d.apply lib items).1.doc (d.apply lib items).2
  | .applyBundles bundles =>
    Reports d.doc (d.applyBundles lib bundles).1.doc (d.applyBundles lib bundles).2
  | _ => True

/-- What makes `publish` accept a batch: it decodes, holds something new, the library takes it and
it can be put in order. -/
def Accepts (lib : Library) (d : Document) (blobs : List Bytes) : Prop :=
  ∃ batch changes ordered, select lib d.applied ∅ [] blobs = .ok (batch, changes) ∧
    changes ≠ [] ∧ lib.rejects d.doc changes = none ∧ graph.order d.applied changes = some ordered

/-- The hashes of the changes among some blobs. -/
def submitted (lib : Library) (blobs : List Bytes) : List CommitId :=
  (blobs.filterMap fun blob => (lib.fromBytes blob).toOption).map Change.hash

end Document

/-- No change that waits rests on changes in effect and new ones only, other than a new one. -/
def Automerge.Settled (a : Automerge) (new : List CommitId) : Prop :=
  ∀ change ∈ a.queue.val, change.hash ∉ a.hashes → change.hash ∉ new →
    ∃ dep ∈ change.deps, dep ∉ a.hashes ∧ dep ∉ new

/-- The condition on one operation: a publication that is accepted and a change that this device
makes release nothing that waits. -/
def Document.Quiet (lib : Library) (d : Document) : Operation → Prop
  | .publish blobs =>
    d.Accepts lib blobs → d.doc.Settled (Document.submitted lib blobs)
  | .transact (.made hash _) => d.doc.Settled [hash]
  | .mergeAnchor hash _ => d.doc.Settled [hash]
  | _ => True

variable {lib : Library} {d : Document} {a a' a'' : Automerge}

/-! ## Growth -/

/-- The changes in effect have grown by some with new hashes. -/
def Automerge.Grows (a a' : Automerge) : Prop :=
  ∃ added, a'.changes = a.changes ++ added ∧ (added.map Change.hash).Nodup ∧
    ∀ change ∈ added, change.hash ∉ a.hashes

theorem Automerge.Grows.of_eq (h : a'.changes = a.changes) : a.Grows a' :=
  ⟨[], by rw [h, List.append_nil], List.nodup_nil, by simp⟩

theorem Automerge.Grows.trans (h : a.Grows a') (h' : a'.Grows a'') : a.Grows a'' := by
  obtain ⟨added, heq, hnodup, hnew⟩ := h
  obtain ⟨added', heq', hnodup', hnew'⟩ := h'
  have hhashes : a'.hashes = a.hashes ++ added.map Change.hash := by
    rw [Automerge.hashes, heq, ChangeGraph.ids_append]
    rfl
  simp only [hhashes, List.mem_append, not_or] at hnew'
  refine ⟨added ++ added', by rw [heq', heq, List.append_assoc], ?_, ?_⟩
  · rw [List.map_append, List.nodup_append]
    refine ⟨hnodup, hnodup', fun hash hhash other hother heq => ?_⟩
    obtain ⟨change, hchange, rfl⟩ := List.mem_map.1 hother
    exact (hnew' change hchange).2 (heq ▸ hhash)
  · intro change hchange
    rcases List.mem_append.1 hchange with hold | hlater
    · exact hnew change hold
    · exact (hnew' change hlater).1

theorem grows_receive (a : Automerge) (batch : List Change) : a.Grows (a.receive batch) := by
  obtain ⟨added, heq, -, hnodup, hnew⟩ := ChangeGraph.deliver_eq_append_nodup (g := graph)
    (a.queue.val ++ batch).length a.changes (a.queue.val ++ batch)
  exact ⟨added, heq, hnodup, hnew⟩

theorem grows_applyChanges (lib : Library) (a : Automerge) (batch : List Change) :
    a.Grows (a.applyChanges lib batch).1 := by
  rw [Automerge.applyChanges]
  split
  · exact .of_eq rfl
  · exact grows_receive a batch

theorem grows_loadIncremental (lib : Library) (a : Automerge) (bytes : Bytes) :
    a.Grows (a.loadIncremental lib bytes).1 := by
  rw [Automerge.loadIncremental]
  split
  · exact .of_eq rfl
  · exact grows_applyChanges lib a _

/-- A rejected batch takes no effect. -/
theorem changes_of_error {batch : List Change} {e : String} {doc : Automerge}
    (h : a.applyChanges lib batch = (doc, .error e)) : doc.changes = a.changes := by
  rw [Automerge.applyChanges] at h
  split at h
  · obtain ⟨rfl, -⟩ := Prod.mk.inj h
    rfl
  · exact nomatch (Prod.mk.inj h).2

/-! ## Reading the set off the document -/

theorem reread_applied (applied : Finset CommitId) (absorbed : Absorbed) (changes : List Change) :
    (Document.reread applied absorbed changes).1 =
      applied ∪ (changes.map Change.hash).toFinset := by
  induction changes generalizing applied absorbed with
  | nil => exact (Finset.union_empty _).symm
  | cons change changes ih =>
    rw [Document.reread, List.map_cons, List.toFinset_cons]
    split_ifs with hknown
    · rw [ih, Finset.union_insert, ← Finset.insert_union, Finset.insert_eq_of_mem hknown]
    · rw [ih, Finset.insert_union, Finset.union_insert]

theorem reread_landed_iff {applied : Finset CommitId} {absorbed : Absorbed}
    {changes : List Change} : (Document.reread applied absorbed changes).2.landed = true ↔
      absorbed.landed = true ∨ ∃ change ∈ changes, change.hash ∉ applied := by
  induction changes generalizing applied absorbed with
  | nil => simp [Document.reread]
  | cons change changes ih =>
    rw [Document.reread]
    split_ifs with hknown
    · simp [ih, hknown]
    · simp [ih, hknown]

theorem reread_of_subset {changes : List Change} {applied : Finset CommitId}
    (h : ∀ change ∈ changes, change.hash ∈ applied) (absorbed : Absorbed) (rest : List Change) :
    Document.reread applied absorbed (changes ++ rest) = Document.reread applied absorbed rest := by
  induction changes with
  | nil => rfl
  | cons change changes ih =>
    obtain ⟨hchange, hrest⟩ := List.forall_mem_cons.1 h
    rw [List.cons_append, Document.reread, if_pos hchange, ih hrest]

theorem reread_content_iff {added : List Change} {applied : Finset CommitId}
    {absorbed : Absorbed} (hnodup : (added.map Change.hash).Nodup)
    (hnew : ∀ change ∈ added, change.hash ∉ applied) :
    (Document.reread applied absorbed added).2.content = true ↔
      absorbed.content = true ∨ ∃ change ∈ added, change.isEmpty = false := by
  induction added generalizing applied absorbed with
  | nil => simp [Document.reread]
  | cons change added ih =>
    obtain ⟨hchange, hrest⟩ := List.forall_mem_cons.1 hnew
    rw [List.map_cons, List.nodup_cons] at hnodup
    -- inserting the first hash does not hide a later one
    have hlater : ∀ other ∈ added, other.hash ∉ insert change.hash applied := by
      intro other hother hmem
      rcases Finset.mem_insert.1 hmem with heq | hold
      · exact hnodup.1 (heq ▸ List.mem_map_of_mem hother)
      · exact hrest other hother hold
    rw [Document.reread, if_neg hchange, ih hnodup.2 hlater]
    simp [or_assoc]

/-- Rereading a document that has grown since the set was exact makes it exact again, and the
report says what the growth was. -/
theorem reread_spec (hexact : d.Exact) (hgrows : d.doc.Grows a) :
    (∀ hash, hash ∈ (Document.reread d.applied {} a.changes).1 ↔ hash ∈ a.hashes) ∧
      Document.Reports d.doc a (Document.reread d.applied {} a.changes).2 := by
  obtain ⟨added, heq, hnodup, hnew⟩ := hgrows
  have hold : ∀ change ∈ d.doc.changes, change.hash ∈ d.applied := fun change hchange =>
    (hexact _).2 (ChangeGraph.id_mem_ids (g := graph) hchange)
  have hfresh : ∀ change ∈ added, change.hash ∉ d.applied := fun change hchange hmem =>
    hnew change hchange ((hexact _).1 hmem)
  refine ⟨fun hash => ?_, ?_, ?_⟩
  · have hsubset : hash ∈ d.doc.hashes → hash ∈ a.hashes := fun hin => by
      rw [Automerge.hashes, heq, ChangeGraph.ids_append]
      exact List.mem_append_left _ hin
    rw [reread_applied, Finset.mem_union, List.mem_toFinset, hexact]
    exact or_iff_right_of_imp hsubset
  · rw [reread_landed_iff]
    simp [hexact _]
  · -- what is new in the document are the added changes
    have hmem (change : Change) : change ∈ a.changes ∧ change.hash ∉ d.doc.hashes ↔
        change ∈ added := by
      rw [heq, List.mem_append]
      constructor
      · rintro ⟨hin | hin, hout⟩
        · exact absurd (ChangeGraph.id_mem_ids (g := graph) hin) hout
        · exact hin
      · exact fun hin => ⟨.inr hin, hnew change hin⟩
    simp only [← and_assoc, hmem]
    rw [heq, reread_of_subset hold, reread_content_iff hnodup hfresh]
    simp


/-! ## What the library brings into effect -/

theorem hashes_subset_receive (a : Automerge) (batch : List Change) {hash : CommitId}
    (h : hash ∈ a.hashes) : hash ∈ (a.receive batch).hashes := by
  obtain ⟨added, heq, -⟩ := grows_receive a batch
  rw [Automerge.hashes, heq, ChangeGraph.ids_append]
  exact List.mem_append_left _ h

/-- A change that still waits after a batch rests on something that is missing. -/
theorem missing_of_not_mem_receive {batch : List Change} {change : Change}
    (h : change ∈ a.queue.val ++ batch) (hwaits : change.hash ∉ (a.receive batch).hashes) :
    ∃ dep ∈ change.deps, dep ∉ (a.receive batch).hashes := by
  by_contra hall
  push Not at hall
  exact a.not_ready_delivered batch h ⟨hwaits, hall⟩

/-- What a batch brings into effect beyond `new`, it brings by releasing a change that waited and
has nothing missing. -/
theorem hashes_receive_subset_iff {batch : List Change} {new : List CommitId}
    (hbatch : ∀ change ∈ batch, change.hash ∈ a.hashes ∨ change.hash ∈ new)
    (hnew : ∀ hash ∈ new, hash ∈ (a.receive batch).hashes) :
    (∀ hash ∈ (a.receive batch).hashes, hash ∈ a.hashes ∨ hash ∈ new) ↔ a.Settled new := by
  constructor
  · intro h change hchange hout houtside
    have hwaits : change.hash ∉ (a.receive batch).hashes := fun hmem =>
      (h _ hmem).elim hout houtside
    obtain ⟨dep, hdep, hmissing⟩ :=
      missing_of_not_mem_receive (List.mem_append_left _ hchange) hwaits
    exact ⟨dep, hdep, fun hin => hmissing (hashes_subset_receive a batch hin),
      fun hin => hmissing (hnew dep hin)⟩
  · intro h
    -- no change leads out of what is in effect together with what is new
    refine ChangeGraph.ids_deliver_subset (S := {hash | hash ∈ a.hashes ∨ hash ∈ new})
      (fun hash hhash => .inl hhash) (fun change hchange hout => ?_) _
    rcases List.mem_append.1 hchange with hqueued | hin
    · obtain ⟨dep, hdep, hold, houtside⟩ := h change hqueued (fun h => hout (.inl h))
        (fun h => hout (.inr h))
      exact ⟨dep, hdep, fun h => h.elim hold houtside⟩
    · exact absurd (hbatch change hin) hout

/-! ## A change of this device -/

/-- The set after a change of this device: `transact` and `merge_anchor` insert the change that the
library then names as the last local one. -/
def authored (d : Document) (change : Change) : Finset CommitId :=
  match (d.doc.receive [change]).lastLocalChange with
  | none => d.applied
  | some last => insert last.hash d.applied

theorem mem_of_lastLocalChange {change : Change} (h : a.lastLocalChange = some change) :
    change ∈ a.changes :=
  (List.mem_filter.1 (List.mem_of_getLast? h)).1

/-- A change made on the current heads is ready. -/
theorem ready_author {hash : CommitId} {isEmpty : Bool} {rawBytes : Bytes} (h : hash ∉ a.hashes) :
    graph.Ready a.changes (a.author hash isEmpty rawBytes) :=
  ⟨h, fun _ hdep => ChangeGraph.heads_subset_ids hdep⟩

/-- It takes effect first: nothing that waits is ready before it. -/
theorem receive_author {hash : CommitId} (isEmpty : Bool) (rawBytes : Bytes)
    (h : hash ∉ a.hashes) : ∃ rest, (a.receive [a.author hash isEmpty rawBytes]).changes =
      a.changes ++ a.author hash isEmpty rawBytes :: rest := by
  have honly : ∀ change ∈ a.queue.val ++ [a.author hash isEmpty rawBytes],
      graph.Ready a.changes change → change = a.author hash isEmpty rawBytes := by
    intro change hchange hready
    rcases List.mem_append.1 hchange with hqueued | hlast
    · exact absurd hready (a.queue.2 change hqueued)
    · exact List.mem_singleton.1 hlast
  have hfirst : (a.receive [a.author hash isEmpty rawBytes]).changes =
      graph.deliver a.queue.val.length (a.changes ++ [a.author hash isEmpty rawBytes])
        (a.queue.val ++ [a.author hash isEmpty rawBytes]) := by
    show graph.deliver (a.queue.val ++ [_]).length _ _ = _
    rw [List.length_append, List.length_singleton]
    exact ChangeGraph.deliver_succ_of_ready (List.mem_append_right _ (List.mem_singleton_self _))
      (ready_author h) honly _
  obtain ⟨rest, heq, -⟩ := ChangeGraph.deliver_eq_append (g := graph) a.queue.val.length
    (a.changes ++ [a.author hash isEmpty rawBytes])
    (a.queue.val ++ [a.author hash isEmpty rawBytes])
  refine ⟨rest, ?_⟩
  rw [hfirst, heq, List.append_assoc]
  rfl

/-- Nothing that waits is ready. -/
theorem settled_nil (a : Automerge) : a.Settled [] := by
  intro change hchange hout _
  by_contra hall
  push Not at hall
  refine a.queue.2 change hchange ⟨hout, fun dep hdep => ?_⟩
  by_contra hmissing
  exact List.not_mem_nil (hall dep hdep hmissing)

/-- A change that is in effect already brings nothing with it. -/
theorem hashes_receive_of_known (change : Change) (h : change.hash ∈ a.hashes) (hash : CommitId) :
    hash ∈ (a.receive [change]).hashes ↔ hash ∈ a.hashes := by
  have hbatch : ∀ other ∈ [change], other.hash ∈ a.hashes ∨ other.hash ∈ [] :=
    fun other hother => by
      rw [List.mem_singleton.1 hother]
      exact .inl h
  have hnothing := (hashes_receive_subset_iff hbatch fun _ h => (nomatch h)).2 (settled_nil a)
  exact ⟨fun hin => (hnothing hash hin).resolve_right List.not_mem_nil, hashes_subset_receive _ _⟩

/-- Where a change of this device brings nothing with it, it is the last local one. -/
theorem lastLocalChange_author {hash : CommitId} {isEmpty : Bool} {rawBytes : Bytes}
    (hknown : hash ∉ a.hashes)
    (honly : ∀ h ∈ (a.receive [a.author hash isEmpty rawBytes]).hashes, h ∈ a.hashes ∨ h ∈ [hash]) :
    (a.receive [a.author hash isEmpty rawBytes]).lastLocalChange =
        some (a.author hash isEmpty rawBytes) ∧
      (a.receive [a.author hash isEmpty rawBytes]).hashes = a.hashes ++ [hash] := by
  obtain ⟨rest, heq⟩ := receive_author isEmpty rawBytes hknown
  -- whatever took effect beside the change would have its hash
  have hrest : rest = [] := by
    obtain ⟨added, hadded, hnodup, hfresh⟩ := grows_receive a [a.author hash isEmpty rawBytes]
    obtain rfl := List.append_cancel_left (hadded.symm.trans heq)
    refine List.eq_nil_iff_forall_not_mem.2 fun change hchange => ?_
    have hin : change.hash ∈ (a.receive [a.author hash isEmpty rawBytes]).hashes := by
      rw [Automerge.hashes, heq]
      exact ChangeGraph.id_mem_ids (g := graph)
        (List.mem_append_right _ (List.mem_cons_of_mem _ hchange))
    have hhash : change.hash = hash := List.mem_singleton.1
      ((honly _ hin).resolve_left (hfresh change (List.mem_cons_of_mem _ hchange)))
    rw [List.map_cons, List.nodup_cons] at hnodup
    exact hnodup.1 (List.mem_map.2 ⟨change, hchange, hhash⟩)
  have hactor : (a.receive [a.author hash isEmpty rawBytes]).actor = a.actor := rfl
  constructor
  · rw [Automerge.lastLocalChange, heq, hrest, hactor, List.filter_append]
    simp [Automerge.author]
  · rw [Automerge.hashes, heq, hrest, ChangeGraph.ids_append]
    rfl

/-- A change of this device keeps the set exact exactly if it releases nothing that waits. -/
theorem exact_author_iff (hexact : d.Exact) (hash : CommitId) (isEmpty : Bool) (rawBytes : Bytes) :
    (∀ h, h ∈ authored d (d.doc.author hash isEmpty rawBytes) ↔
        h ∈ (d.doc.receive [d.doc.author hash isEmpty rawBytes]).hashes) ↔
      d.doc.Settled [hash] := by
  by_cases hknown : hash ∈ d.doc.hashes
  · have hsettled : d.doc.Settled [hash] := by
      intro change hchange hout _
      obtain ⟨dep, hdep, hmissing, -⟩ := settled_nil d.doc change hchange hout List.not_mem_nil
      refine ⟨dep, hdep, hmissing, fun hin => hmissing ?_⟩
      rw [List.mem_singleton.1 hin]
      exact hknown
    refine iff_of_true (fun h => ?_) hsettled
    have hsame := hashes_receive_of_known (d.doc.author hash isEmpty rawBytes) hknown
    rw [hsame, authored]
    split
    · exact hexact h
    next last hlast =>
      have hin : last.hash ∈ d.doc.hashes :=
        (hsame _).1 (ChangeGraph.id_mem_ids (g := graph) (mem_of_lastLocalChange hlast))
      rw [Finset.insert_eq_of_mem ((hexact _).2 hin)]
      exact hexact h
  have hnew : hash ∉ d.applied := fun hin => hknown ((hexact _).1 hin)
  have hmade : hash ∈ (d.doc.receive [d.doc.author hash isEmpty rawBytes]).hashes := by
    obtain ⟨rest, heq⟩ := receive_author isEmpty rawBytes hknown
    rw [Automerge.hashes, heq]
    exact ChangeGraph.id_mem_ids (g := graph)
      (List.mem_append_right _ (List.mem_cons_self (a := d.doc.author hash isEmpty rawBytes)))
  have hbatch : ∀ change ∈ [d.doc.author hash isEmpty rawBytes],
      change.hash ∈ d.doc.hashes ∨ change.hash ∈ [hash] := fun change hchange => by
    rw [List.mem_singleton.1 hchange]
    exact .inr (List.mem_singleton_self hash)
  rw [← hashes_receive_subset_iff hbatch fun h hh => by rwa [List.mem_singleton.1 hh]]
  constructor
  · -- one hash was inserted, so it is that of the change
    intro h h' hin
    rw [← h, authored] at hin hmade
    split at hmade
    · exact absurd hmade hnew
    next last hlast =>
      rw [hlast] at hin
      have hhash : hash = last.hash := (Finset.mem_insert.1 hmade).resolve_right hnew
      rcases Finset.mem_insert.1 hin with rfl | hold
      · exact .inr (hhash ▸ List.mem_singleton_self _)
      · exact .inl ((hexact _).1 hold)
  · intro honly h
    obtain ⟨hlast, hhashes⟩ := lastLocalChange_author hknown honly
    rw [authored, hlast, hhashes, List.mem_append, List.mem_singleton, ← hexact]
    exact Finset.mem_insert.trans or_comm

/-! ## A publication -/

theorem submitted_eq {blobs : List Bytes} {changes : List Change}
    (h : blobs.map lib.fromBytes = changes.map .ok) :
    Document.submitted lib blobs = changes.map Change.hash := by
  have hdecoded : (blobs.map lib.fromBytes).filterMap Except.toOption = changes := by
    rw [h, List.filterMap_map]
    exact List.filterMap_some
  rw [Document.submitted, ← hdecoded, List.filterMap_map]
  rfl

theorem receive_of_ok {batch : List Change} {doc : Automerge}
    (h : a.applyChanges lib batch = (doc, .ok ())) :
    doc = a.receive batch ∧ lib.rejects a batch = none := by
  rw [Automerge.applyChanges] at h
  split at h
  · exact nomatch (Prod.mk.inj h).2
  next hnone => exact ⟨(Prod.mk.inj h).1.symm, hnone⟩

/-- A batch that meets the conditions is accepted; none of its changes rests on a missing one, for
it can be put in order. -/
theorem publish_of_accepts {blobs : List Bytes} (h : d.Accepts lib blobs) :
    (d.publish lib blobs).2 = .ok true := by
  obtain ⟨batch, changes, ordered, hselect, hsome, haccepted, horder⟩ := h
  obtain ⟨submitted, -, hselected⟩ := select_of_batch hselect
  obtain ⟨hperm, hinorder⟩ := ChangeGraph.order_eq_some horder
  have hdeps : ¬ ∃ change ∈ changes, ∃ dep ∈ change.deps, dep ∉ d.applied ∧ dep ∉ batch := by
    rintro ⟨change, hchange, dep, hdep, hold, hnew⟩
    obtain ⟨before, after, heq⟩ := List.append_of_mem (hperm.mem_iff.1 hchange)
    rcases ChangeGraph.inOrder_iff.1 hinorder before change after heq dep hdep with hmem | hmem
    · exact hold hmem
    · rw [hselected.batch, List.mem_toFinset, (hperm.map Change.hash).mem_iff, heq,
        List.map_append] at hnew
      exact hnew (List.mem_append_left _ hmem)
  have hrun : d.doc.applyChanges lib changes = (d.doc.receive changes, .ok ()) := by
    rw [Automerge.applyChanges, haccepted]
  rw [Document.publish, hselect]
  dsimp only
  rw [if_neg hdeps, if_neg hsome, hrun]
  dsimp only
  rw [horder]

/-- Everything a publication picked takes effect: it comes in an order. -/
theorem picked_mem_receive (hexact : d.Exact) {changes ordered : List Change}
    (horder : graph.order d.applied changes = some ordered) :
    ∀ change ∈ changes, change.hash ∈ (d.doc.receive changes).hashes := by
  obtain ⟨hperm, hinorder⟩ := ChangeGraph.order_eq_some horder
  have hwaits : ∀ change ∈ ordered, ¬ graph.Ready (d.doc.delivered changes) change :=
    fun change hchange => d.doc.not_ready_delivered changes
      (List.mem_append_right _ (hperm.mem_iff.2 hchange))
  have hbase : ∀ hash ∈ d.applied, hash ∈ graph.ids (d.doc.delivered changes) :=
    fun hash hhash => hashes_subset_receive d.doc changes ((hexact hash).1 hhash)
  exact fun change hchange => hinorder.ids_mem hbase hwaits change (hperm.mem_iff.1 hchange)

/-- A publication keeps the set exact exactly if, once accepted, it releases nothing that waits. -/
theorem exact_publish_iff (hexact : d.Exact) (blobs : List Bytes) :
    (d.publish lib blobs).1.Exact ↔ d.Quiet lib (.publish blobs) := by
  have hanswer : d.Accepts lib blobs → (d.publish lib blobs).2 = .ok true := publish_of_accepts
  show _ ↔ (d.Accepts lib blobs → d.doc.Settled (Document.submitted lib blobs))
  rcases publish_cases lib d blobs with ⟨e, hrun⟩ | ⟨batch, hselect, hrun⟩ |
    ⟨batch, changes, candidate, ordered, hselect, hsome, hcandidate, horder, hrun⟩
  · rw [hrun] at hanswer ⊢
    exact iff_of_true hexact fun h => nomatch hanswer h
  · rw [hrun] at hanswer ⊢
    exact iff_of_true hexact fun h => nomatch hanswer h
  obtain ⟨seen, hseen, hselected⟩ := select_of_batch hselect
  obtain ⟨-, happlied, -⟩ := record_spec d ordered
  obtain ⟨rfl, haccepted⟩ := receive_of_ok hcandidate
  have hperm := (ChangeGraph.order_eq_some horder).1
  have hpicked := picked_mem_receive hexact horder
  have hnew : Document.submitted lib blobs = seen.map Change.hash := submitted_eq hseen
  -- the set grows by the hashes submitted
  have hset (hash : CommitId) : hash ∈ (d.record ordered).applied ↔
      hash ∈ d.doc.hashes ∨ hash ∈ seen.map Change.hash := by
    rw [happlied, Finset.mem_union, List.mem_toFinset, ← (hperm.map Change.hash).mem_iff,
      hselected.fresh, hexact]
    by_cases hold : hash ∈ d.doc.hashes
    · exact iff_of_true (.inl hold) (.inl hold)
    · simp [hold]
  have hbatch : ∀ change ∈ changes, change.hash ∈ d.doc.hashes ∨
      change.hash ∈ seen.map Change.hash := fun change hchange =>
    .inr ((hselected.fresh _).1 (List.mem_map_of_mem hchange)).1
  have htaken : ∀ hash ∈ seen.map Change.hash, hash ∈ (d.doc.receive changes).hashes := by
    intro hash hhash
    by_cases hold : hash ∈ d.applied
    · exact hashes_subset_receive _ _ ((hexact hash).1 hold)
    · obtain ⟨change, hchange, rfl⟩ := List.mem_map.1 ((hselected.fresh hash).2 ⟨hhash, hold⟩)
      exact hpicked change hchange
  have haccepts : d.Accepts lib blobs :=
    ⟨batch, changes, ordered, hselect, hsome, haccepted, horder⟩
  rw [hrun, hnew, forall_prop_of_true haccepts]
  show (∀ hash, hash ∈ (d.record ordered).applied ↔ hash ∈ (d.doc.receive changes).hashes) ↔ _
  rw [← hashes_receive_subset_iff hbatch htaken]
  simp only [hset]
  constructor
  · exact fun h hash hin => (h hash).2 hin
  · exact fun h hash => ⟨fun hin => hin.elim (hashes_subset_receive _ _) (htaken hash), h hash⟩

/-! ## Every operation -/

theorem exact_adopt (a : Automerge) (actor : Bytes) (tree : TreeId) :
    (Document.adopt a actor tree).Exact := fun _ => List.mem_toFinset

theorem exact_load (lib : Library) (bytes actor : Bytes) (tree : TreeId) :
    (Document.load lib bytes actor tree).Exact := by
  rw [Document.load]
  split
  · exact exact_adopt _ actor tree
  · exact exact_adopt _ actor tree

theorem changes_of_loadIncremental {bytes : Bytes} {e : String} {doc : Automerge}
    (h : a.loadIncremental lib bytes = (doc, .error e)) : doc.changes = a.changes := by
  rw [Automerge.loadIncremental] at h
  split at h
  · obtain ⟨rfl, -⟩ := Prod.mk.inj h
    rfl
  · exact changes_of_error h

theorem loadBundles_spec (lib : Library) (applied : Finset CommitId)
    (bundles : List (CommitId × Bytes)) (a : Automerge) (loaded : Bool) :
    a.Grows (Document.loadBundles lib applied a loaded bundles).1 ∧
      ((Document.loadBundles lib applied a loaded bundles).2 = false → loaded = false ∧
        (Document.loadBundles lib applied a loaded bundles).1.changes = a.changes) := by
  induction bundles generalizing a loaded with
  | nil => exact ⟨.of_eq rfl, fun h => ⟨h, rfl⟩⟩
  | cons bundle rest ih =>
    rw [Document.loadBundles]
    split
    · exact ih a loaded
    have hgrows := grows_loadIncremental lib a bundle.2
    split
    next doc e hload =>
      rw [hload] at hgrows
      obtain ⟨hmore, hnone⟩ := ih doc loaded
      refine ⟨hgrows.trans hmore, fun h => ⟨(hnone h).1, (hnone h).2.trans ?_⟩⟩
      exact changes_of_loadIncremental hload
    next doc hload =>
      rw [hload] at hgrows
      obtain ⟨hmore, hnone⟩ := ih doc true
      exact ⟨hgrows.trans hmore, fun h => nomatch (hnone h).1⟩

/-- Where nothing took effect, nothing is reported. -/
theorem reports_nothing (h : ∀ hash, hash ∈ a'.hashes ↔ hash ∈ a.hashes) :
    Document.Reports a a' {} := by
  have hnone : ∀ change ∈ a'.changes, change.hash ∈ a.hashes := fun change hchange =>
    (h _).1 (ChangeGraph.id_mem_ids (g := graph) hchange)
  constructor
  · exact iff_of_false Bool.false_ne_true fun ⟨change, hin, hout⟩ => hout (hnone change hin)
  · exact iff_of_false Bool.false_ne_true fun ⟨change, hin, hout, _⟩ => hout (hnone change hin)

theorem apply_spec (hexact : d.Exact) (items : List (CommitId × Bytes)) :
    (d.apply lib items).1.Exact ∧
      Document.Reports d.doc (d.apply lib items).1.doc (d.apply lib items).2 := by
  rw [Document.apply]
  split
  · exact ⟨hexact, reports_nothing fun _ => Iff.rfl⟩
  next change changes _ =>
  have hgrows := grows_applyChanges lib d.doc (change :: changes)
  split
  next doc e hrun =>
    have hsame : ∀ hash, hash ∈ doc.hashes ↔ hash ∈ d.doc.hashes := fun hash => by
      rw [Automerge.hashes, changes_of_error hrun, Automerge.hashes]
    exact ⟨fun hash => (hexact hash).trans (hsame hash).symm, reports_nothing hsame⟩
  next doc hrun =>
    rw [hrun] at hgrows
    exact reread_spec hexact hgrows

theorem applyBundles_spec (hexact : d.Exact) (bundles : List (CommitId × Bytes)) :
    (d.applyBundles lib bundles).1.Exact ∧
      Document.Reports d.doc (d.applyBundles lib bundles).1.doc
        (d.applyBundles lib bundles).2 := by
  obtain ⟨hgrows, hnone⟩ := loadBundles_spec lib d.applied bundles d.doc false
  rw [Document.applyBundles]
  split
  next doc hrun =>
    rw [hrun] at hnone
    have hsame : ∀ hash, hash ∈ doc.hashes ↔ hash ∈ d.doc.hashes := fun hash => by
      rw [Automerge.hashes, (hnone rfl).2, Automerge.hashes]
    exact ⟨fun hash => (hexact hash).trans (hsame hash).symm, reports_nothing hsame⟩
  next doc hrun =>
    rw [hrun] at hgrows
    exact reread_spec hexact hgrows

theorem mergeSnapshot_exact (hexact : d.Exact) (bytes : Bytes) :
    (d.mergeSnapshot lib bytes).1.Exact := by
  rw [Document.mergeSnapshot]
  split
  · exact hexact
  split
  next doc e hrun =>
    intro hash
    show hash ∈ d.applied ↔ hash ∈ doc.hashes
    rw [hexact, Automerge.hashes, Automerge.hashes, changes_of_error hrun]
  · exact fun hash => List.mem_toFinset

theorem mergeAnchor_eq (d : Document) (hash : CommitId) (rawBytes : Bytes) :
    (d.mergeAnchor hash rawBytes).1.doc = d.doc.receive [d.doc.author hash true rawBytes] ∧
      (d.mergeAnchor hash rawBytes).1.applied = authored d (d.doc.author hash true rawBytes) := by
  rw [Document.mergeAnchor, authored]
  rcases (d.doc.receive [d.doc.author hash true rawBytes]).lastLocalChange with _ | change
  · exact ⟨rfl, rfl⟩
  · exact ⟨rfl, rfl⟩

theorem transact_eq (d : Document) (hash : CommitId) (rawBytes : Bytes) :
    (d.transact (.made hash rawBytes)).1.doc =
        d.doc.receive [d.doc.author hash false rawBytes] ∧
      (d.transact (.made hash rawBytes)).1.applied =
        authored d (d.doc.author hash false rawBytes) := by
  rw [Document.transact, authored]
  rcases (d.doc.receive [d.doc.author hash false rawBytes]).lastLocalChange with _ | change
  · exact ⟨rfl, rfl⟩
  · exact ⟨rfl, rfl⟩

/-- An operation keeps the set exact exactly if it meets the condition. -/
theorem exact_step_iff (lib : Library) (hexact : d.Exact) (op : Operation) :
    (Document.step lib d op).Exact ↔ d.Quiet lib op := by
  rcases op with bytes | items | bundles | bytes | (_ | _ | ⟨hash, rawBytes⟩) | blobs |
    ⟨hash, rawBytes⟩ | _
  · exact iff_of_true (exact_load lib bytes _ _) trivial
  · exact iff_of_true (apply_spec hexact items).1 trivial
  · exact iff_of_true (applyBundles_spec hexact bundles).1 trivial
  · exact iff_of_true (mergeSnapshot_exact hexact bytes) trivial
  · exact iff_of_true hexact trivial
  · exact iff_of_true hexact trivial
  · obtain ⟨hdoc, happlied⟩ := transact_eq d hash rawBytes
    show (∀ h, h ∈ (d.transact _).1.applied ↔ h ∈ (d.transact _).1.doc.hashes) ↔ _
    rw [hdoc, happlied]
    exact exact_author_iff hexact hash false rawBytes
  · exact exact_publish_iff hexact blobs
  · obtain ⟨hdoc, happlied⟩ := mergeAnchor_eq d hash rawBytes
    show (∀ h, h ∈ (d.mergeAnchor _ _).1.applied ↔ h ∈ (d.mergeAnchor _ _).1.doc.hashes) ↔ _
    rw [hdoc, happlied]
    exact exact_author_iff hexact hash true rawBytes
  · exact iff_of_true hexact trivial

/-- Where the set is exact, what an operation reports is what it brought into effect. -/
theorem reportsExactly_of_exact (lib : Library) (hexact : d.Exact) (op : Operation) :
    Document.ReportsExactly lib d op := by
  rcases op with bytes | items | bundles | bytes | edit | blobs | ⟨hash, rawBytes⟩ | _
  case apply => exact (apply_spec hexact items).2
  case applyBundles => exact (applyBundles_spec hexact bundles).2
  all_goals trivial

/-! ## Runs -/

/-- In a run from a loaded document the applied set is exact throughout, and every operation
reports exactly what it brought into effect, exactly if no accepted publication and no change of
this device releases a change that waited. -/
theorem applied_exact (lib : Library) (a : Automerge) (actor : Bytes) (tree : TreeId)
    (ls : List Operation) :
    (Transition.Throughout (Document.step lib) Document.Exact (.adopt a actor tree) ls ∧
        ∀ ms op, ms ++ [op] <+: ls → Document.ReportsExactly lib
          (Transition.run (Document.step lib) (.adopt a actor tree) ms) op) ↔
      Transition.Meets (Document.step lib) (Document.Quiet lib) (.adopt a actor tree) ls := by
  have hinv : ∀ d op, (fun _ : Document => True) d →
      (fun _ : Document => True) (Document.step lib d op) := fun _ _ _ => trivial
  have hstep : ∀ d op, (fun _ : Document => True) d → d.Exact →
      ((Document.step lib d op).Exact ↔ d.Quiet lib op) := fun _ op _ hexact =>
    exact_step_iff lib hexact op
  have hiff := Transition.throughout_iff_meets hinv hstep ls trivial (exact_adopt a actor tree)
  rw [← hiff]
  refine ⟨And.left, fun hthroughout => ⟨hthroughout, fun ms op hms => ?_⟩⟩
  have hbefore := Transition.throughout_iff.1 hthroughout ms ((List.prefix_append _ _).trans hms)
  exact reportsExactly_of_exact lib hbefore op

/-- A change, and one made on top of it. -/
def parentSample : Change := ⟨1, [9], [], false, [1]⟩

def childSample : Change := ⟨2, [9], [1], false, [2]⟩

/-- A library that knows the two. -/
def librarySample : Library where
  fromBytes bytes :=
    if bytes = [1] then .ok parentSample
    else if bytes = [2] then .ok childSample
    else .error "unable to parse chunk"
  load _ := .error "unable to parse chunk"
  parse _ := .error "unable to parse chunk"
  rejects _ _ := none

/-- The child has arrived and waits. -/
def waitingSample : Document where
  doc := Automerge.receive { actor := [7] } [childSample]
  tree := 0
  applied := ∅
  pending := []

/-- The parent has been published. -/
def releasedSample : Document where
  doc := waitingSample.doc.receive [parentSample]
  tree := 0
  applied := {1}
  pending := [parentSample.commit]

theorem waitingSample_doc :
    waitingSample.doc.queue.val = [childSample] ∧ waitingSample.doc.changes = [] := by
  have hdelivered : Automerge.delivered { actor := [7] } [childSample] = [] := by
    simp [Automerge.delivered, ChangeGraph.deliver, ChangeGraph.Ready, ChangeGraph.ids, graph,
      childSample]
  refine ⟨?_, hdelivered⟩
  simp [waitingSample, Automerge.receive, hdelivered, ChangeGraph.ids]

theorem step_apply_childSample :
    Document.step librarySample (.adopt { actor := [] } [7] 0) (.apply [(2, [2])]) =
      waitingSample := by
  have hfresh : Document.fresh librarySample ∅ [(2, [2])] = [childSample] := rfl
  have hnone : (Automerge.receive { actor := [7] } [childSample]).changes = [] :=
    waitingSample_doc.2
  show Document.mk (Automerge.receive { actor := [7] } [childSample]) 0
    (Document.reread ∅ {} (Automerge.receive { actor := [7] } [childSample]).changes).1 [] = _
  rw [hnone]
  rfl

theorem releasedSample_hashes : releasedSample.doc.hashes = [1, 2] := by
  obtain ⟨hqueue, hchanges⟩ := waitingSample_doc
  show graph.ids (graph.deliver (waitingSample.doc.queue.val ++ [parentSample]).length
    waitingSample.doc.changes (waitingSample.doc.queue.val ++ [parentSample])) = _
  rw [hqueue, hchanges]
  simp [ChangeGraph.deliver, ChangeGraph.Ready, ChangeGraph.ids, graph, childSample, parentSample]

theorem step_publish_parentSample :
    Document.step librarySample waitingSample (.publish [[1]]) = releasedSample := by
  have hknown : librarySample.fromBytes [1] = .ok parentSample := rfl
  have hselect : Document.select librarySample waitingSample.applied ∅ [] [[1]] =
      .ok ({1}, [parentSample]) := by
    simp [Document.select, hknown, waitingSample, parentSample]
  have horder : graph.order waitingSample.applied [parentSample] = some [parentSample] := by
    rw [ChangeGraph.order]
    simp [ChangeGraph.takeReady, ChangeGraph.order, graph, parentSample]
  have hdeps : ¬ ∃ change ∈ [parentSample], ∃ dep ∈ change.deps,
      dep ∉ waitingSample.applied ∧ dep ∉ ({1} : Finset CommitId) := by
    simp [parentSample]
  have hrun : waitingSample.doc.applyChanges librarySample [parentSample] =
      (waitingSample.doc.receive [parentSample], .ok ()) := rfl
  rw [Document.step, Document.publish, hselect]
  dsimp only
  rw [if_neg hdeps, if_neg (List.cons_ne_nil _ _), hrun]
  dsimp only
  rw [horder]
  simp [Document.record, releasedSample, waitingSample, parentSample]

/-- Publishing the parent of a change that waits brings both into effect and counts one; when the
other comes again it is reported as news. -/
theorem published_parent_counts_alone :
    ¬ Transition.Throughout (Document.step librarySample) Document.Exact
        (.adopt { actor := [] } [7] 0) [.apply [(2, [2])], .publish [[1]]] ∧
      ¬ Document.ReportsExactly librarySample (Transition.run (Document.step librarySample)
        (.adopt { actor := [] } [7] 0) [.apply [(2, [2])], .publish [[1]]])
          (.apply [(2, [2])]) := by
  have hchild : childSample.hash ∈ releasedSample.doc.hashes := by
    simp [releasedSample_hashes, childSample]
  have hnot : childSample.hash ∉ releasedSample.applied := by
    simp [releasedSample, childSample]
  constructor
  · rintro ⟨-, -, hlast⟩
    rw [step_apply_childSample, step_publish_parentSample] at hlast
    exact hnot ((hlast _).2 hchild)
  · rw [Transition.run_cons, Transition.run_cons, Transition.run_nil, step_apply_childSample,
      step_publish_parentSample]
    have hfresh : Document.fresh librarySample releasedSample.applied [(2, [2])] =
        [childSample] := by
      simp [Document.fresh, releasedSample, librarySample, Except.toOption]
    have hrun : releasedSample.doc.applyChanges librarySample [childSample] =
        (releasedSample.doc.receive [childSample], .ok ()) := rfl
    have hstep : releasedSample.apply librarySample [(2, [2])] =
        ({ releasedSample with
            doc := releasedSample.doc.receive [childSample]
            applied := (Document.reread releasedSample.applied {}
              (releasedSample.doc.receive [childSample]).changes).1 },
          (Document.reread releasedSample.applied {}
            (releasedSample.doc.receive [childSample]).changes).2) := by
      rw [Document.apply, hfresh]
      dsimp only
      rw [hrun]
    -- the child is new to the set, and nothing is new to the document
    have hlanded : (Document.reread releasedSample.applied {}
        (releasedSample.doc.receive [childSample]).changes).2.landed = true := by
      obtain ⟨change, hin, heq⟩ := List.mem_map.1
        (hashes_subset_receive releasedSample.doc [childSample] hchild)
      exact reread_landed_iff.2 (.inr ⟨change, hin, fun hmem => hnot (heq ▸ hmem)⟩)
    rintro ⟨hreported, -⟩
    rw [hstep] at hreported
    obtain ⟨change, hin, hout⟩ := hreported.1 hlanded
    exact hout ((hashes_receive_of_known childSample hchild _).1
      (ChangeGraph.id_mem_ids (g := graph) hin))

end Polyvisor.History
