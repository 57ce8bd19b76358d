import Polyvisor.Engine.Persistence
import Polyvisor.Engine.Snapshot

/-!
# What the engine's operations do to the item storage

Each operation of `engine/src/lib.rs` that writes items, as the list of its effects on the storage
and on the settled mark, in the order the source makes them, for a call that returns `Ok`. What the
effects depend on (the commits a callback authored and how they were sealed, the fragments automerge
draws, what had landed) is an input, and other tasks may run between any two of them.

A mutation that reaches the storage is in the next journal record only once something settles.
Every operation settles after its last mutation but three: `adopt_us`; `document_adopt` of a private
partition, which rolls the adopted history up into a fragment after `mutate` has settled; and a call
without a change of its own that finds its document opened by another call, while it was opening the
group document itself.

## Main results

* `Operation.effects`: the effects of each operation.
* `settled_effects`: what every other operation leaves unsettled.
-/

namespace Polyvisor

variable {B V : Type}

/-- A commit as the driver stores it. -/
abbrev SignedCommit (B : Type) := Signed LooseCommit × B

/-- A fragment as the driver stores it. -/
abbrev SignedFragment (B : Type) := Signed Fragment × B

/-- One effect on the storage or on its settled mark. -/
inductive OpEffect (B : Type) where
  /-- The driver persists what `add_commits` or `add_fragments` handed it. -/
  | persistItems (t : TreeId) (commits : List (SignedCommit B))
    (fragments : List (SignedFragment B))
  | restore (t : TreeId) (commits fragments : List (Item B))
  | prune (t : TreeId)
  | forgetTree (t : TreeId)
  /-- The driver deletes what `remove_tree` named. -/
  | deleteTree (t : TreeId)
  /-- `settle_persistence`. -/
  | settle
  /-- `settle_persistence`, if the storage has anything unsettled. -/
  | settleUnsettled

namespace OpEffect

/-- Whether nothing is unsettled right after the effect. -/
def settles : OpEffect B → Bool
  | .settle | .settleUnsettled => true
  | _ => false

/-- What the effect does to the storage and its journal. -/
def run (codec : Codec B) (e : JournalledEngine B V) : OpEffect B → JournalledEngine B V
  | .persistItems t commits fragments => e.step codec (.persistItems t commits fragments)
  | .restore t commits fragments => e.step codec (.restore t commits fragments)
  | .prune t => e.step codec (.prune t)
  | .forgetTree t => e.step codec (.forgetTree t)
  | .deleteTree t => e.step codec (.deleteTree t)
  | .settle => e.step codec .settle
  | .settleUnsettled => if e.persistence.storage.hasUnsettled then e.step codec .settle else e

end OpEffect

/-- Whether nothing is unsettled after these effects, if `before` says so of the state before
them. -/
def settledAfter (before : Bool) (effects : List (OpEffect B)) : Bool :=
  effects.foldl (fun _ effect => effect.settles) before

/-! ## The pieces -/

/-- What a stored app commit is followed by. -/
inductive PublishedAuthority (B : Type) where
  /-- `publish_keyhive`, with the operations not yet published. -/
  | keyhive (events : List (SignedCommit B))
  /-- `publish_shared_authority`. -/
  | document (tree : TreeId) (commit : SignedCommit B)

/-- A merge anchor. -/
structure Anchor (B : Type) where
  tree : TreeId
  commit : SignedCommit B
  published : PublishedAuthority B

/-- One call of `install_fragment`. A fragment of the group document publishes nothing. -/
structure Install (B : Type) where
  fragment : SignedFragment B
  events : List (SignedCommit B)

/-- A call of `compact`. Its callers ignore its answer, so it may stop after any of its steps. -/
structure Compaction (B : Type) where
  installs : List (Install B)
  steps : ℕ

/-- A call of `absorb_inner`. Anchors are only made for content that landed. -/
structure Absorb (B : Type) where
  tree : TreeId
  landed : Bool
  anchors : List (Anchor B)
  compaction : Compaction B
  anchors_landed : anchors ≠ [] → landed = true

/-- What `hydrate` does after handing the trees over: `absorb_keyhive`, then each document's
tree. -/
structure Hydration (B : Type) where
  anchors : List (Anchor B)
  absorbs : List (Absorb B)

/-- What `open_us` does on a device without a group document. -/
structure OpenGroup (B : Type) where
  /-- The founder's own row, and the names of its keyhive group and document. -/
  pushes : List (List (SignedCommit B))
  events : List (SignedCommit B)

/-- A call of `open_us`. -/
structure OpenUs (B : Type) where
  hydration : Option (Hydration B)
  group : Option (OpenGroup B)

/-- `open_us` writes, and nothing of its own settles that: it founds the group, or `absorb_keyhive`
anchors a document that was not among the restored ones. -/
def OpenUs.Writes (o : OpenUs B) : Prop :=
  o.group ≠ none ∨ ∃ h, o.hydration = some h ∧ h.anchors ≠ [] ∧ h.absorbs = []

/-- A call of `open_document`. The document is `none` where it is open already. -/
structure OpenDocument (B : Type) where
  opened : OpenUs B
  document : Option (Absorb B)

/-- Another call opened the document while this one was writing in `open_us`. -/
def OpenDocument.Overtaken (o : OpenDocument B) : Prop :=
  o.document = none ∧ o.opened.Writes

/-- What `adopt_fragment` and `adopt_app_fragment` do: an anchor where the document has several
heads, and a fragment over all of it where it has any history. -/
structure WholeFragment (B : Type) where
  anchor : Option (SignedCommit B)
  install : Option (Install B)

/-- What `ingest_items` does with a tree's items once they are restored. -/
inductive IngestEnd (B : Type) where
  /-- The opaque tree was retired in between. -/
  | forgotten
  | absorbed (absorb : Absorb B) (retired : List TreeId)
  | opaqueTree (retired : List TreeId)

/-- One tree of `ingest_items`. -/
structure Ingest (B : Type) where
  tree : TreeId
  commits : List (Item B)
  fragments : List (Item B)
  finish : IngestEnd B

/-- A call of `mutate`. -/
structure Mutate (B : Type) where
  opened : OpenDocument B
  tree : TreeId
  commits : List (SignedCommit B)
  published : PublishedAuthority B
  compaction : Compaction B

section Pieces

variable (sha : Sha256)

/-- `publish_keyhive`. -/
def publishKeyhive (events : List (SignedCommit B)) : List (OpEffect B) :=
  if events.isEmpty then [] else [.persistItems (keyhiveTree sha) events []]

/-- `push_us_commits`. -/
def pushUsCommits (commits : List (SignedCommit B)) : List (OpEffect B) :=
  if commits.isEmpty then [] else [.persistItems (usTree sha) commits []]

def PublishedAuthority.effects : PublishedAuthority B → List (OpEffect B)
  | .keyhive events => publishKeyhive sha events
  | .document tree commit => [.persistItems tree [commit] []]

def Anchor.effects (a : Anchor B) : List (OpEffect B) :=
  .persistItems a.tree [a.commit] [] :: a.published.effects sha

/-- `install_fragment`. -/
def installFragment (tree : TreeId) (i : Install B) : List (OpEffect B) :=
  .persistItems tree [] [i.fragment] :: publishKeyhive sha i.events ++ [.prune tree]

/-- `compact`. -/
def compact (tree : TreeId) (c : Compaction B) : List (OpEffect B) :=
  (.prune tree :: c.installs.flatMap (installFragment sha tree)).take c.steps

/-- `absorb_inner`. -/
def absorbInner (a : Absorb B) : List (OpEffect B) :=
  a.anchors.flatMap (Anchor.effects sha) ++
    if a.landed then compact sha a.tree a.compaction ++ [.settle] else [.settleUnsettled]

/-- `hydrate`. -/
def hydrate (h : Option (Hydration B)) : List (OpEffect B) :=
  match h with
  | none => []
  | some h => h.anchors.flatMap (Anchor.effects sha) ++ h.absorbs.flatMap (absorbInner sha)

/-- `open_us`. -/
def openUs (o : OpenUs B) : List (OpEffect B) :=
  hydrate sha o.hydration ++
    match o.group with
    | none => []
    | some group => group.pushes.flatMap (pushUsCommits sha) ++ publishKeyhive sha group.events

/-- `open_document_inner`. -/
def openDocumentInner (document : Option (Absorb B)) : List (OpEffect B) :=
  match document with
  | none => []
  | some absorb => absorbInner sha absorb

/-- `open_document`. -/
def openDocument (o : OpenDocument B) : List (OpEffect B) :=
  openUs sha o.opened ++ openDocumentInner sha o.document

/-- `retire_tree`. -/
def retireTree (tree : TreeId) : List (OpEffect B) :=
  [.deleteTree tree, .forgetTree tree]

/-- `adopt_fragment` and `adopt_app_fragment`, on this tree. -/
def adoptFragment (tree : TreeId) (w : WholeFragment B) : List (OpEffect B) :=
  (match w.anchor with
    | none => []
    | some commit => [.persistItems tree [commit] []]) ++
  match w.install with
  | none => []
  | some install => installFragment sha tree install

/-- `mutate`. -/
def mutate (m : Mutate B) : List (OpEffect B) :=
  openDocument sha m.opened ++
    if m.commits.isEmpty then []
    else
      m.commits.map (fun commit => .persistItems m.tree [commit] []) ++ m.published.effects sha ++
        compact sha m.tree m.compaction ++ [.settle]

/-- One tree of `ingest_items`. -/
def ingestTree (i : Ingest B) : List (OpEffect B) :=
  .restore i.tree i.commits i.fragments ::
    match i.finish with
    | .forgotten => [.forgetTree i.tree]
    | .absorbed absorb retired => absorbInner sha absorb ++ retired.flatMap retireTree
    | .opaqueTree retired => retired.flatMap retireTree

end Pieces

/-! ## The operations -/

/-- An operation of the engine, with what its effects depend on. -/
inductive Operation (B : Type) where
  | mutate (m : Mutate B)
  | usMutate (opened : OpenUs B) (commits : List (SignedCommit B)) (retired : List TreeId)
      (compaction : Compaction B)
  | opaquePublish (opened : OpenUs B) (tree : TreeId) (commit : SignedCommit B)
      (events : List (SignedCommit B))
  | ingestItems (opened : OpenUs B) (trees : List (Ingest B))
  /-- The retired trees are those of the founder's shareable documents. -/
  | adoptUs (hydration : Option (Hydration B)) (abandoned retired : List TreeId)
      (whole : WholeFragment B)
  | adoptKeyhive (opened : OpenUs B) (events : List (SignedCommit B)) (anchors : List (Anchor B))
  | adoptSharedDocuments (opened : OpenUs B) (documents : List (Option (Absorb B)))
  /-- `document_adopt` of a shareable partition. -/
  | documentAdoptShared (opened : OpenDocument B)
  /-- `document_adopt` of a private partition. -/
  | documentAdopt (opened : OpenDocument B) (m : Mutate B) (whole : WholeFragment B)

namespace Operation

variable (sha : Sha256)

/-- The effects of a call that returns `Ok`. -/
def effects : Operation B → List (OpEffect B)
  | .mutate m => Polyvisor.mutate sha m
  | .usMutate opened commits retired compaction =>
    openUs sha opened ++ pushUsCommits sha commits ++ retired.flatMap retireTree ++
      compact sha (usTree sha) compaction ++ [.settle]
  | .opaquePublish opened tree commit events =>
    openUs sha opened ++ [.persistItems tree [commit] []] ++ publishKeyhive sha events ++ [.settle]
  | .ingestItems opened trees =>
    openUs sha opened ++ trees.flatMap (ingestTree sha) ++ [.settle]
  | .adoptUs hydration abandoned retired whole =>
    hydrate sha hydration ++ retireTree (usTree sha) ++ abandoned.flatMap retireTree ++
      retired.flatMap retireTree ++ adoptFragment sha (usTree sha) whole
  | .adoptKeyhive opened events anchors =>
    openUs sha opened ++ publishKeyhive sha events ++ anchors.flatMap (Anchor.effects sha) ++
      [.settle]
  | .adoptSharedDocuments opened documents =>
    openUs sha opened ++ documents.flatMap (openDocumentInner sha) ++ [.settle]
  | .documentAdoptShared opened => openDocument sha opened
  | .documentAdopt opened m whole =>
    openDocument sha opened ++ Polyvisor.mutate sha m ++ adoptFragment sha m.tree whole

/-- The operations that go on writing after their last settle: `adopt_us`, `document_adopt` of a
private partition with any history, and a call that was overtaken and has no commit of its own. -/
def SettlesEarly : Operation B → Prop
  | .adoptUs _ _ _ _ => True
  | .mutate m => m.commits = [] ∧ m.opened.Overtaken
  | .documentAdoptShared opened => opened.Overtaken
  | .documentAdopt opened m whole => whole.anchor.isSome = true ∨ whole.install.isSome = true ∨
      m.commits = [] ∧ (opened.Overtaken ∨ m.opened.Overtaken)
  | _ => False

end Operation

/-! ## What is left unsettled -/

theorem settledAfter_append (before : Bool) (xs ys : List (OpEffect B)) :
    settledAfter before (xs ++ ys) = settledAfter (settledAfter before xs) ys :=
  List.foldl_append

@[simp]
theorem settledAfter_settle (before : Bool) (effects : List (OpEffect B)) :
    settledAfter before (effects ++ [.settle]) = true := by
  rw [settledAfter_append]
  rfl

variable {sha : Sha256}

/-- After `absorb_inner` nothing is unsettled: an anchor means that something landed. -/
theorem settledAfter_absorbInner (before : Bool) (a : Absorb B) :
    settledAfter before (absorbInner sha a) = true := by
  rw [absorbInner]
  split
  · rw [← List.append_assoc]
    exact settledAfter_settle before _
  · rw [settledAfter_append]
    rfl

theorem settledAfter_hydrate (h : Option (Hydration B))
    (habsorbed : ∀ h' ∈ h, h'.anchors ≠ [] → h'.absorbs ≠ []) :
    settledAfter true (hydrate sha h) = true := by
  cases h with
  | none => rfl
  | some h =>
    rw [hydrate]
    rcases List.eq_nil_or_concat h.absorbs with hnil | ⟨absorbs, last, hlast⟩
    · have hanchors : h.anchors = [] := by
        by_contra hne
        exact habsorbed h rfl hne hnil
      rw [hnil, hanchors]
      rfl
    · rw [hlast, List.concat_eq_append, List.flatMap_append, List.flatMap_singleton,
        ← List.append_assoc, settledAfter_append]
      exact settledAfter_absorbInner _ last

/-- A group document that was open already leaves nothing unsettled. -/
theorem settledAfter_openUs {o : OpenUs B} (h : ¬ o.Writes) :
    settledAfter true (openUs sha o) = true := by
  obtain ⟨hgroup, hhydration⟩ := not_or.1 h
  rw [openUs, not_not.1 hgroup, List.append_nil]
  refine settledAfter_hydrate _ fun h' hh' hanchors habsorbs => ?_
  exact hhydration ⟨h', hh', hanchors, habsorbs⟩

/-- A document that is opened settles what opening the group document wrote. -/
theorem settledAfter_openDocument {o : OpenDocument B} (h : ¬ o.Overtaken) :
    settledAfter true (openDocument sha o) = true := by
  rw [openDocument, settledAfter_append]
  cases hdocument : o.document with
  | some absorb => exact settledAfter_absorbInner _ absorb
  | none => exact settledAfter_openUs fun hwrites => h ⟨hdocument, hwrites⟩

/-- A call of `mutate` that authored something settles it. -/
theorem settledAfter_mutate_of_commits (before : Bool) {m : Mutate B} (h : m.commits ≠ []) :
    settledAfter before (mutate sha m) = true := by
  rw [mutate, if_neg fun hempty => h (List.isEmpty_iff.1 hempty), ← List.append_assoc]
  exact settledAfter_settle _ _

theorem settledAfter_mutate {m : Mutate B} (h : m.commits = [] → ¬ m.opened.Overtaken) :
    settledAfter true (mutate sha m) = true := by
  by_cases hcommits : m.commits = []
  · rw [mutate, if_pos (List.isEmpty_iff.2 hcommits), List.append_nil]
    exact settledAfter_openDocument (h hcommits)
  · exact settledAfter_mutate_of_commits true hcommits

/-- Every other operation leaves nothing of its own unsettled. -/
theorem settled_effects {op : Operation B} (h : ¬ op.SettlesEarly) :
    settledAfter true (op.effects sha) = true := by
  cases op with
  | mutate m => exact settledAfter_mutate fun hcommits hovertaken => h ⟨hcommits, hovertaken⟩
  | usMutate opened commits retired compaction => exact settledAfter_settle _ _
  | opaquePublish opened tree commit events => exact settledAfter_settle _ _
  | ingestItems opened trees => exact settledAfter_settle _ _
  | adoptUs hydration abandoned retired whole => exact (h trivial).elim
  | adoptKeyhive opened events anchors => exact settledAfter_settle _ _
  | adoptSharedDocuments opened documents => exact settledAfter_settle _ _
  | documentAdoptShared opened => exact settledAfter_openDocument h
  | documentAdopt opened m whole =>
    -- nothing was rolled up, so `mutate` came last
    have hwhole : adoptFragment sha m.tree whole = [] := by
      obtain ⟨anchor, install⟩ := whole
      cases anchor with
      | some commit => exact (h (.inl rfl)).elim
      | none =>
        cases install with
        | some install => exact (h (.inr (.inl rfl))).elim
        | none => rfl
    rw [Operation.effects, hwhole, List.append_nil, settledAfter_append]
    by_cases hcommits : m.commits = []
    · have hopened : ¬ opened.Overtaken := fun ho => h (.inr (.inr ⟨hcommits, .inl ho⟩))
      have hmutate : ¬ m.opened.Overtaken := fun ho => h (.inr (.inr ⟨hcommits, .inr ho⟩))
      rw [settledAfter_openDocument hopened, settledAfter_mutate fun _ => hmutate]
    · exact settledAfter_mutate_of_commits _ hcommits

end Polyvisor
