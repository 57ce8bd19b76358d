import Polyvisor.Engine.Item
import Polyvisor.Lib.ChangeGraph
import Mathlib.Data.Finset.Lattice.Lemmas

/-!
# A document's history

`document-history/src/lib.rs`: an automerge document, the set of change hashes it has applied and
the local commits nobody has drained, with every operation that moves them.

`Automerge` is what the crate uses of the library: the changes in effect, in the order they took
effect, and the queue of those that wait for one they rest on. Whatever supplies a missing change
releases what waited for it (`receive`), so that nothing that waits is ready. Which bytes decode and
which batches the library rejects are parameters; a rejected batch takes no effect and may leave
any queue behind.
-/

namespace Polyvisor.History

/-! ## Automerge -/

/-- `automerge::Change`. -/
structure Change where
  hash : CommitId
  actor : Bytes
  deps : List CommitId
  isEmpty : Bool
  rawBytes : Bytes
  deriving DecidableEq

/-- Changes by their hashes. -/
def graph : ChangeGraph Change CommitId := ⟨Change.hash, Change.deps⟩

/-- What may wait beside the changes in effect: changes that are not ready. -/
abbrev Waiting (changes : List Change) : Type :=
  { queue : List Change // ∀ change ∈ queue, ¬ graph.Ready changes change }

/-- Nothing waits. -/
def noneWaiting (changes : List Change) : Waiting changes :=
  ⟨[], fun _ h => absurd h List.not_mem_nil⟩

@[simp]
theorem val_noneWaiting (changes : List Change) : (noneWaiting changes).val = [] := rfl

/-- `Automerge`. -/
structure Automerge where
  actor : Bytes
  /-- `get_changes(&[])`: the changes in effect. -/
  changes : List Change := []
  /-- The changes that wait for one they rest on. -/
  queue : Waiting changes := noneWaiting changes

/-- What the library makes of bytes and of batches. -/
structure Library where
  /-- `Change::from_bytes`. -/
  fromBytes : Bytes → Except String Change
  /-- `Automerge::load`. -/
  load : Bytes → Except String Automerge
  /-- The changes `load_incremental` finds: a change, a bundle or a save. -/
  parse : Bytes → Except String (List Change)
  /-- Why a batch is rejected, and the queue that is left. -/
  rejects : (a : Automerge) → List Change → Option (String × Waiting a.changes)

namespace Automerge

/-- The hashes of the changes in effect. -/
def hashes (a : Automerge) : List CommitId :=
  graph.ids a.changes

/-- The changes in effect once what is ready of a batch and of the queue has taken effect, one
after the other. -/
def delivered (a : Automerge) (batch : List Change) : List Change :=
  graph.deliver (a.queue.val ++ batch).length a.changes (a.queue.val ++ batch)

theorem not_ready_delivered (a : Automerge) (batch : List Change) {change : Change}
    (h : change ∈ a.queue.val ++ batch) : ¬ graph.Ready (a.delivered batch) change :=
  ChangeGraph.deliver_saturated (List.countP_le_length) h

/-- Changes arrive: what is ready takes effect, and the rest waits. -/
def receive (a : Automerge) (batch : List Change) : Automerge :=
  { a with
    changes := a.delivered batch
    queue := ⟨(a.queue.val ++ batch).filter fun change =>
        change.hash ∉ graph.ids (a.delivered batch),
      fun _ h => a.not_ready_delivered batch (List.mem_filter.1 h).1⟩ }

/-- `apply_changes`. -/
def applyChanges (lib : Library) (a : Automerge) (batch : List Change) :
    Automerge × Except String Unit :=
  match lib.rejects a batch with
  | some (e, queue) => ({ a with queue }, .error e)
  | none => (a.receive batch, .ok ())

/-- `load_incremental`. -/
def loadIncremental (lib : Library) (a : Automerge) (bytes : Bytes) :
    Automerge × Except String Unit :=
  match lib.parse bytes with
  | .error e => (a, .error e)
  | .ok batch => a.applyChanges lib batch

/-- `merge`: the changes of the other document that this one does not have. -/
def merge (lib : Library) (a other : Automerge) : Automerge × Except String Unit :=
  a.applyChanges lib (other.changes.filter fun change => change.hash ∉ a.hashes)

/-- A change this device makes on the current heads; its hash and its bytes are the library's. -/
def author (a : Automerge) (hash : CommitId) (isEmpty : Bool) (rawBytes : Bytes) : Change :=
  ⟨hash, a.actor, graph.heads a.changes, isEmpty, rawBytes⟩

/-- `get_last_local_change`. -/
def lastLocalChange (a : Automerge) : Option Change :=
  (a.changes.filter fun change => change.actor = a.actor).getLast?

end Automerge

/-! ## The document -/

/-- `NewCommit`. -/
structure NewCommit where
  head : CommitId
  parents : Finset CommitId
  blob : Bytes
  deriving DecidableEq

/-- The commit that carries a change. -/
def Change.commit (change : Change) : NewCommit :=
  ⟨change.hash, change.deps.toFinset, change.rawBytes⟩

/-- `Absorbed`. -/
structure Absorbed where
  landed : Bool := false
  content : Bool := false
  deriving DecidableEq

/-- `Document`. -/
structure Document where
  doc : Automerge
  tree : TreeId
  /-- The hashes the document takes to be applied. -/
  applied : Finset CommitId
  /-- Local commits that nobody has drained. -/
  pending : List NewCommit

namespace Document

/-- `adopt`. -/
def adopt (doc : Automerge) (actor : Bytes) (tree : TreeId) : Document :=
  { doc := { doc with actor }, tree, applied := doc.hashes.toFinset, pending := [] }

/-- `empty`. -/
def empty (actor : Bytes) (tree : TreeId) : Document where
  doc := { actor }
  tree := tree
  applied := ∅
  pending := []

/-- `load`: bytes that do not load are an empty document. -/
def load (lib : Library) (bytes : Bytes) (actor : Bytes) (tree : TreeId) : Document :=
  match lib.load bytes with
  | .ok doc => adopt doc actor tree
  | .error _ => adopt { actor := [] } actor tree

/-- `try_load`. -/
def tryLoad (lib : Library) (bytes : Bytes) (actor : Bytes) (tree : TreeId) :
    Except String Document :=
  (lib.load bytes).map fun doc => adopt doc actor tree

/-- `merge_snapshot`. -/
def mergeSnapshot (lib : Library) (d : Document) (bytes : Bytes) :
    Document × Except String Unit :=
  match lib.load bytes with
  | .error e => (d, .error e)
  | .ok other =>
    match d.doc.merge lib other with
    | (doc, .error e) => ({ d with doc }, .error e)
    | (doc, .ok ()) => ({ d with doc, applied := doc.hashes.toFinset }, .ok ())

/-- `drain_local_commits`. -/
def drainLocalCommits (d : Document) : Document × List NewCommit :=
  ({ d with pending := [] }, d.pending)

/-- The loop `apply` and `apply_bundles` end with: every change in effect is inserted, and an
insertion that is news is reported. -/
def reread (applied : Finset CommitId) (absorbed : Absorbed) :
    List Change → Finset CommitId × Absorbed
  | [] => (applied, absorbed)
  | change :: rest =>
    if change.hash ∈ applied then reread applied absorbed rest
    else
      reread (insert change.hash applied)
        { landed := true, content := absorbed.content || !change.isEmpty } rest

/-- The loop of `apply_bundles` over the bundles, and whether one was taken. -/
def loadBundles (lib : Library) (applied : Finset CommitId) :
    Automerge → Bool → List (CommitId × Bytes) → Automerge × Bool
  | doc, loaded, [] => (doc, loaded)
  | doc, loaded, (head, bytes) :: rest =>
    if head ∈ applied then loadBundles lib applied doc loaded rest
    else
      match doc.loadIncremental lib bytes with
      | (doc, .error _) => loadBundles lib applied doc loaded rest
      | (doc, .ok ()) => loadBundles lib applied doc true rest

/-- `apply_bundles`. -/
def applyBundles (lib : Library) (d : Document) (bundles : List (CommitId × Bytes)) :
    Document × Absorbed :=
  match loadBundles lib d.applied d.doc false bundles with
  | (doc, false) => ({ d with doc }, {})
  | (doc, true) =>
    let (applied, absorbed) := reread d.applied {} doc.changes
    ({ d with doc, applied }, absorbed)

/-- `merge_anchor`: an empty change on every head. -/
def mergeAnchor (d : Document) (hash : CommitId) (rawBytes : Bytes) :
    Document × Option NewCommit :=
  let doc := d.doc.receive [d.doc.author hash true rawBytes]
  match doc.lastLocalChange with
  | none => ({ d with doc }, none)
  | some change =>
    ({ d with doc, applied := insert change.hash d.applied }, some change.commit)

/-- The items `apply` hands over: not applied under the id they came with, and changes. -/
def fresh (lib : Library) (applied : Finset CommitId) (items : List (CommitId × Bytes)) :
    List Change :=
  items.filterMap fun (id, blob) =>
    if id ∈ applied then none else (lib.fromBytes blob).toOption

/-- `apply`. -/
def apply (lib : Library) (d : Document) (items : List (CommitId × Bytes)) :
    Document × Absorbed :=
  match fresh lib d.applied items with
  | [] => (d, {})
  | change :: changes =>
    match d.doc.applyChanges lib (change :: changes) with
    | (doc, .error _) => ({ d with doc }, {})
    | (doc, .ok ()) =>
      let (applied, absorbed) := reread d.applied {} doc.changes
      ({ d with doc, applied }, absorbed)

/-- The first loop of `publish`: every blob has to be a change, and a change that is applied or
came before in the batch is passed over. -/
def select (lib : Library) (applied : Finset CommitId) :
    Finset CommitId → List Change → List Bytes → Except String (Finset CommitId × List Change)
  | batch, changes, [] => .ok (batch, changes)
  | batch, changes, blob :: rest =>
    match lib.fromBytes blob with
    | .error e => .error ("invalid Automerge change: " ++ e)
    | .ok change =>
      if change.hash ∈ applied ∨ change.hash ∈ batch then select lib applied batch changes rest
      else select lib applied (insert change.hash batch) (changes ++ [change]) rest

/-- The last loop of `publish`: the commits go out in order and their changes count as applied. -/
def record (d : Document) (ordered : List Change) : Document :=
  ordered.foldl (fun d change =>
    { d with pending := d.pending ++ [change.commit], applied := insert change.hash d.applied }) d

/-- `publish`. The library is tried on a clone, which becomes the document at the end. -/
def publish (lib : Library) (d : Document) (blobs : List Bytes) : Document × Except String Bool :=
  match select lib d.applied ∅ [] blobs with
  | .error e => (d, .error e)
  | .ok (batch, changes) =>
    if ∃ change ∈ changes, ∃ dep ∈ change.deps, dep ∉ d.applied ∧ dep ∉ batch then
      (d, .error "an Automerge change dependency is missing")
    else if changes = [] then (d, .ok false)
    else
      match d.doc.applyChanges lib changes with
      | (_, .error e) => (d, .error ("invalid Automerge change batch: " ++ e))
      | (candidate, .ok ()) =>
        match graph.order d.applied changes with
        | none => (d, .error "the Automerge change batch is not causally ordered")
        | some ordered => ({ record d ordered with doc := candidate }, .ok true)

/-- What a transaction's callback makes of the document. -/
inductive Edit where
  /-- The callback fails, and the library rolls the transaction back. -/
  | failed (error : String)
  /-- No operation was made. -/
  | nothing
  /-- The operations make a change with this hash and these bytes. -/
  | made (hash : CommitId) (rawBytes : Bytes)

/-- `transact`. -/
def transact (d : Document) : Edit → Document × Except String Unit
  | .failed e => (d, .error e)
  | .nothing => (d, .ok ())
  | .made hash rawBytes =>
    let doc := d.doc.receive [d.doc.author hash false rawBytes]
    match doc.lastLocalChange with
    | none => ({ d with doc }, .ok ())
    | some change =>
      ({ d with doc, applied := insert change.hash d.applied,
                pending := d.pending ++ [change.commit] }, .ok ())

end Document

end Polyvisor.History
