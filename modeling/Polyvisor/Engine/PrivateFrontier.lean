import Polyvisor.Engine.Publication
import Polyvisor.Engine.SharedFrontier
import Polyvisor.Engine.Storage
import Polyvisor.Lib.Rollup

/-!
# The private frontier of a group

`seal`, `confirm`, `cover`, `open`, `export_content_keys` and `import_content_keys` of
`engine/src/vault.rs`, `mutate`, `absorb_app`, `compact` and `install_fragment` of
`engine/src/lib.rs`, and `Document` of `document-history/src/lib.rs`, on the devices of one group
and for one private partition: content references of different partitions are different hashes.

A device that builds a fragment puts it on its own frontier. A device that receives one opens it
only if it has not applied the fragment's head, but it prunes on the strength of the fragment either
way.

A device that enrols another one hands it the frontier's keys; `ReadBack` is what a reader who has
these and the device's storage gets.
-/

namespace Polyvisor.Private

open Std Frontier

/-! ## The vault -/

section Vault

variable {κ P : Type}

/-- `CausalDecryptionState`, as far as `open` reads it. -/
structure Walked (κ P : Type) where
  complete : List (Cref × P) := []
  /-- Keys of ancestors the ciphertext store does not have. -/
  next : List (Cref × κ) := []

/-- `try_causal_decrypt` of keyhive, on a ciphertext store and seeds with their keys. -/
abbrev CausalWalk (κ P : Type) :=
  (Cref → Option (Ciphertext κ P)) → List (Ciphertext κ P × κ) → Walked κ P

/-- The envelopes a walk can open: those of the seeds, and what their ancestor keys lead to in the
store. -/
inductive Opens [DecidableEq κ] (store : Cref → Option (Ciphertext κ P))
    (seeds : List (Ciphertext κ P × κ)) : Cref → Envelope κ P → Prop
  | seed {ct k env} (h : (ct, k) ∈ seeds) (hopen : ct.tryDecrypt k = some (.ok env)) :
      Opens store seeds ct.contentRef env
  | ancestor {d env c k ct env'} (hd : Opens store seeds d env) (hc : (c, k) ∈ env.ancestors)
      (hct : store c = some ct) (hopen : ct.tryDecrypt k = some (.ok env')) :
      Opens store seeds c env'

/-- What a walk answers, however far it got: envelopes it can open, and keys it read in them. -/
structure CausalWalk.Lawful [DecidableEq κ] (walk : CausalWalk κ P) : Prop where
  complete : ∀ {store seeds c plain}, (c, plain) ∈ (walk store seeds).complete →
    ∃ env, Opens store seeds c env ∧ env.plaintext = plain
  next : ∀ {store seeds c k}, (c, k) ∈ (walk store seeds).next →
    ∃ d env, Opens store seeds d env ∧ (c, k) ∈ env.ancestors

/-- The locals of `Vault::open`. -/
structure Opening (κ P : Type) where
  opened : List (Cref × P) := []
  dark : List (Cref × Ciphertext κ P) := []
  reached : List (Cref × κ) := []
  covered : List Cref := []
  /-- Keys read out of the envelopes of this batch. -/
  ancestors : List (Cref × κ) := []

/-- The first loop of `open`: what the current epoch opens by itself. -/
def openEpoch (epoch : Ciphertext κ P → Bool) :
    Opening κ P → List (Cref × Ciphertext κ P) → Except String (Opening κ P)
  | o, [] => .ok o
  | o, (cref, encrypted) :: rest =>
    if epoch encrypted then
      match encrypted.plain with
      | .error e => .error ("chunk envelope: " ++ e)
      | .ok env =>
        openEpoch epoch
          { o with
            reached := o.reached ++ [(cref, encrypted.key)]
            ancestors := o.ancestors ++ env.ancestors
            opened := o.opened ++ [(cref, env.plaintext)] } rest
    else openEpoch epoch { o with dark := o.dark ++ [(cref, encrypted)] } rest

/-- Where the walk into the dark starts: held keys, and what the epoch has just opened. -/
def walkSeeds (heads : Heads κ) (wanted : List (Cref × Ciphertext κ P)) (o : Opening κ P) :
    List (Ciphertext κ P × κ) :=
  (o.dark.filterMap fun (cref, encrypted) => heads[cref]?.map fun key => (encrypted, key)) ++
    o.reached.filterMap fun (cref, key) =>
      (wanted.lookup cref).map fun encrypted => (encrypted, key)

/-- The second half of `open`: keyhive's walk, and what it covers. -/
def walkDark (walk : CausalWalk κ P) (store : Cref → Option (Ciphertext κ P)) (heads : Heads κ)
    (wanted : List (Cref × Ciphertext κ P)) (o : Opening κ P) : Opening κ P :=
  let seeds := walkSeeds heads wanted o
  let seeded := seeds.map fun seed => seed.1.contentRef
  if o.dark.isEmpty || seeds.isEmpty then o
  else
    let walked := walk store seeds
    { o with
      covered := o.covered ++ (walked.complete.map Prod.fst).filter fun cref => cref ∉ seeded
      ancestors := o.ancestors ++ walked.next
      opened := o.opened ++ o.dark.filterMap fun (cref, _) =>
        (walked.complete.lookup cref).map fun plain => (cref, plain) }

/-- The ancestor keys, decided: an ancestor that was opened, is on the frontier or has been applied
is covered, and any other becomes a head. -/
def decideAncestors (heads : Heads κ) (known : List Cref) (o : Opening κ P) : Opening κ P :=
  let openedNow := o.opened.map Prod.fst
  let isCovered (cref : Cref) : Bool := cref ∈ openedNow || cref ∈ heads || cref ∈ known
  { o with
    covered := o.covered ++ (o.ancestors.map Prod.fst).filter isCovered
    reached := o.reached ++ o.ancestors.filter fun (cref, _) => !isCovered cref }

/-- `Vault::open`, with what the epoch opens and what the ciphertext store has. -/
def vaultOpen (walk : CausalWalk κ P) (epoch : Ciphertext κ P → Bool)
    (store : Cref → Option (Ciphertext κ P)) (heads : Heads κ)
    (wanted : List (Cref × Ciphertext κ P)) (known : List Cref) :
    Except String (Heads κ × List (Cref × P)) := do
  let o ← openEpoch epoch {} wanted
  let o := decideAncestors heads known (walkDark walk store heads wanted o)
  return (advanceHeads heads o.reached o.covered, o.opened)

/-- `Vault::seal`, under the key keyhive derives. A predecessor without a held key is left out. -/
def sealPrivate (heads : Heads κ) (cref : Cref) (preds : List Cref) (change : P) (key : κ) :
    Sealed κ P :=
  let ancestors := preds.filterMap fun pred => heads[pred]?.map fun key => (pred, key)
  { ciphertext := ⟨cref, key, .ok ⟨change, ancestors⟩⟩
    cref := cref
    key := key
    embedded := ancestors.map Prod.fst
    sharedDocument := none }

/-- `Vault::confirm`. -/
def confirm (heads : Heads κ) (sealed : Sealed κ P) : Heads κ :=
  advanceHeads heads [(sealed.cref, sealed.key)] sealed.embedded

/-- `Vault::cover`. -/
def cover (heads : Heads κ) (members : List Cref) : Heads κ :=
  advanceHeads heads [] members

/-- `export_content_keys`. -/
def exportContentKeys (heads : Heads κ) : List (Cref × κ) :=
  heads.toList

/-- `import_content_keys`. -/
def importContentKeys (heads : Heads κ) (keys : List (Cref × κ)) : Heads κ :=
  keys.foldl (fun heads (cref, key) => heads.insert cref key) heads

end Vault

/-! ## One device -/

/-- One private partition: its tree, its changes, and what the engine takes from other crates. -/
structure Partition (κ C : Type) where
  graph : ChangeGraph C CommitId
  tree : TreeId
  fragmentCref : CommitId → Cref
  codec : Codec (Ciphertext κ (List C))
  walk : CausalWalk κ (List C)

/-- `Document`: automerge's history, and what it has read and cannot apply yet. -/
structure Document (C : Type) where
  applied : List C := []
  queued : List C := []

/-- What the driver's signer puts on an item. -/
structure Signature where
  issuer : Bytes32
  bytes : Bytes

/-- One device's side of the partition. -/
structure Replica (κ C : Type) where
  storage : SnapshotStorage (Ciphertext κ (List C)) := {}
  heads : Heads κ := ∅
  doc : Document C := {}
  /-- Every ciphertext storage has ever held, with its reference. No code reads it. -/
  seen : List (Cref × Ciphertext κ (List C)) := []

variable {κ C : Type}

/-- The changes a document has read. -/
def Document.known (d : Document C) : List C :=
  d.applied ++ d.queued

/-- Hand changes to automerge: what is causally ready is applied, the rest is queued. -/
def Document.load (g : ChangeGraph C CommitId) (d : Document C) (changes : List C) : Document C :=
  let all := d.queued ++ changes
  let applied := g.deliver all.length d.applied all
  { applied, queued := all.filter fun c => g.id c ∉ g.ids applied }

/-- `Document::apply_bundles`. -/
def Document.applyBundles (g : ChangeGraph C CommitId) (d : Document C)
    (bundles : List (CommitId × List C)) : Document C :=
  d.load g ((bundles.filter fun (head, _) => head ∉ g.ids d.applied).flatMap Prod.snd)

/-- `Document::apply`. What is no single change is skipped. -/
def Document.apply (g : ChangeGraph C CommitId) (d : Document C)
    (items : List (CommitId × List C)) : Document C :=
  d.load g ((items.filter fun (id, _) => id ∉ g.ids d.applied).flatMap fun (_, blob) =>
    match blob with
    | [c] => [c]
    | _ => [])

/-- Whether what a fragment's members were made on is in it or just below it. -/
def IsRange {g : ChangeGraph C CommitId} (f : BundledFragment g) : Prop :=
  ∀ c ∈ f.members, ∀ i ∈ g.deps c, i ∈ g.ids f.members ∨ i ∈ f.boundary

instance decidableIsRange {g : ChangeGraph C CommitId} (f : BundledFragment g) :
    Decidable (IsRange f) :=
  -- without the list's own instance all bit vectors would be tried
  have (c : C) : Decidable (∀ i ∈ g.deps c, i ∈ g.ids f.members ∨ i ∈ f.boundary) :=
    List.decidableBAll _ _
  inferInstanceAs (Decidable (∀ c ∈ f.members, ∀ i ∈ g.deps c, _))

namespace Replica

variable (p : Partition κ C)

/-- The ciphertexts in storage, each with its content reference. -/
def held (r : Replica κ C) : List (Cref × Ciphertext κ (List C)) :=
  r.storage.commitBlobs p.tree ++
    (r.storage.fragmentBlobs p.tree).map fun (head, blob) => (p.fragmentCref head, blob)

/-- Storage as a mutator left it. -/
def store (r : Replica κ C) (storage : SnapshotStorage (Ciphertext κ (List C))) : Replica κ C :=
  let r := { r with storage }
  { r with seen := r.seen ++ r.held p }

/-- A sealed commit, signed by the driver. -/
def signCommit (c : C) (blob : Ciphertext κ (List C)) (signature : Signature) :
    Signed LooseCommit where
  issuer := signature.issuer
  bytes := signature.bytes
  payload := some
    { sedimentreeId := p.tree
      head := p.graph.id c
      parents := (p.graph.deps c).mergeSort (· ≤ ·)
      blobMeta := p.codec.blobMeta blob }

/-- A sealed fragment, signed by the driver. -/
def signFragment (f : BundledFragment p.graph) (blob : Ciphertext κ (List C))
    (signature : Signature) : Signed Fragment where
  issuer := signature.issuer
  bytes := signature.bytes
  payload := some
    { sedimentreeId := p.tree
      head := f.head
      boundary := f.boundary
      checkpoints := f.checkpoints
      blobMeta := p.codec.blobMeta blob }

/-- What `Engine::seal` makes of a commit. -/
def sealCommit (r : Replica κ C) (c : C) (key : κ) : Sealed κ (List C) :=
  sealPrivate r.heads (p.graph.id c) (p.graph.deps c) [c] key

/-- What `install_fragment` seals. A boundary commit is named by the fragment it heads, if storage
has that. -/
def sealFragment (r : Replica κ C) (f : BundledFragment p.graph) (key : κ) : Sealed κ (List C) :=
  let preds := f.boundary.map fun i =>
    if r.storage.holdsFragment p.tree i then p.fragmentCref i else i
  sealPrivate r.heads (p.fragmentCref f.head) preds f.members key

/-- `add_commits` on a sealed commit. -/
def addCommit (r : Replica κ C) (c : C) (key : κ) (signature : Signature) :
    SnapshotStorage (Ciphertext κ (List C)) × Except StorageFailure ℕ :=
  let blob := (r.sealCommit p c key).ciphertext
  r.storage.persistItems p.codec p.tree [(signCommit p c blob signature, blob)] []

/-- `add_fragments` on a sealed fragment. -/
def addFragment (r : Replica κ C) (f : BundledFragment p.graph) (key : κ) (signature : Signature) :
    SnapshotStorage (Ciphertext κ (List C)) × Except StorageFailure ℕ :=
  let blob := (r.sealFragment p f key).ciphertext
  r.storage.persistItems p.codec p.tree [] [(signFragment p f blob signature, blob)]

/-- A change authored here, by a transaction, a published batch or as a merge anchor: applied,
sealed, stored, and confirmed once it is stored. -/
def write (r : Replica κ C) (c : C) (key : κ) (signature : Signature) : Replica κ C :=
  if p.graph.Ready r.doc.applied c then
    let doc := { r.doc with applied := r.doc.applied ++ [c] }
    match r.addCommit p c key signature with
    | (storage, .ok _) =>
      { r.store p storage with doc, heads := confirm r.heads (r.sealCommit p c key) }
    | (storage, .error _) => { r.store p storage with doc }
  else r

/-- `install_fragment` up to the pruning, on a fragment whose head `compact` found no fragment
for. -/
def install (r : Replica κ C) (f : BundledFragment p.graph) (key : κ) (signature : Signature) :
    Replica κ C :=
  if p.graph.ids f.members ⊆ p.graph.ids r.doc.applied ∧ IsRange f ∧
      ¬ r.storage.holdsFragment p.tree f.head then
    match r.addFragment p f key signature with
    | (storage, .ok _) =>
      { r.store p storage with
        heads := cover (confirm r.heads (r.sealFragment p f key)) (p.graph.ids f.members) }
    | (storage, .error _) => r.store p storage
  else r

/-- `prune`. -/
def prune (r : Replica κ C) : Replica κ C :=
  r.store p (r.storage.prune p.codec p.tree).1

/-- `persist_items`, of items a peer hands over. -/
def receive (r : Replica κ C) (commits : List (Signed LooseCommit × Ciphertext κ (List C)))
    (fragments : List (Signed Fragment × Ciphertext κ (List C))) : Replica κ C :=
  r.store p (r.storage.persistItems p.codec p.tree commits fragments).1

/-- keyhive's ciphertext store after the refill: the batch, and whatever it has not evicted of what
it was handed before. -/
def working (r : Replica κ C) (cached : List Cref) (batch : List (Cref × Ciphertext κ (List C)))
    (cref : Cref) : Option (Ciphertext κ (List C)) :=
  match batch.find? fun item => item.2.contentRef = cref with
  | some item => some item.2
  | none => if cref ∈ cached then r.seen.lookup cref else none

/-- The stored fragments whose head is not applied. -/
def wantedBundles (r : Replica κ C) : List (CommitId × Ciphertext κ (List C)) :=
  (r.storage.fragmentBlobs p.tree).filter fun (head, _) => head ∉ p.graph.ids r.doc.applied

/-- The stored commits that are not applied. -/
def wantedCommits (r : Replica κ C) : List (CommitId × Ciphertext κ (List C)) :=
  (r.storage.commitBlobs p.tree).filter fun (id, _) => id ∉ p.graph.ids r.doc.applied

variable [DecidableEq κ]

/-- `Vault::open` on this device. -/
def openBlobs (r : Replica κ C) (epoch : Ciphertext κ (List C) → Bool) (cached : List Cref)
    (wanted : List (Cref × Ciphertext κ (List C))) :
    Except String (Heads κ × List (Cref × List C)) :=
  vaultOpen p.walk epoch (r.working cached wanted) r.heads wanted (p.graph.ids r.doc.applied)

/-- The fragments' half of `absorb_app`: the frontier it leaves, and the bundles it opened. Their
envelopes are keyed by the fragment's content reference. -/
def openBundles (r : Replica κ C) (epoch : Ciphertext κ (List C) → Bool) (cached : List Cref) :
    Replica κ C × List (CommitId × List C) :=
  let bundles := r.wantedBundles p
  match r.openBlobs p epoch cached
      (bundles.map fun (head, blob) => (p.fragmentCref head, blob)) with
  | .ok (heads, opened) =>
    ({ r with heads }, opened.filterMap fun (cref, bundle) =>
      (bundles.find? fun item => p.fragmentCref item.1 = cref).map fun item => (item.1, bundle))
  | .error _ => (r, [])

/-- `absorb_app` up to the merge anchor. -/
def absorb (r : Replica κ C) (epoch : Ciphertext κ (List C) → Bool) (cached : List Cref) :
    Replica κ C :=
  if (r.wantedCommits p).isEmpty && (r.wantedBundles p).isEmpty then r
  else
    let (r', bundles) := r.openBundles p epoch cached
    match r'.openBlobs p epoch cached (r.wantedCommits p) with
    | .ok (heads, opened) =>
      { r' with heads, doc := (r'.doc.applyBundles p.graph bundles).apply p.graph opened }
    | .error _ => r'

end Replica

/-! ## The devices of the group -/

section Machine

variable {ι : Type}

/-- The devices, and every item any of them has ever stored. -/
structure Group (ι κ C : Type) where
  replicas : ι → Replica κ C := fun _ => {}
  commits : List (Signed LooseCommit × Ciphertext κ (List C)) := []
  fragments : List (Signed Fragment × Ciphertext κ (List C)) := []

/-- What can happen next, and on which device. -/
inductive Label (ι : Type) (p : Partition κ C) where
  | write (d : ι) (c : C) (key : κ) (signature : Signature)
  | install (d : ι) (f : BundledFragment p.graph) (key : κ) (signature : Signature)
  | prune (d : ι)
  /-- Items some device has stored arrive, in any order and any number of times. -/
  | receive (d : ι) (commits fragments : List ℕ)
  | absorb (d : ι) (epoch : Ciphertext κ (List C) → Bool) (cached : List Cref)
  /-- A device adopts the keys another one exports. -/
  | enrol (adder joiner : ι)

namespace Group

variable [DecidableEq ι] (p : Partition κ C)

/-- One device moved, and what it stores can reach the others. -/
def setReplica (s : Group ι κ C) (d : ι) (r : Replica κ C) : Group ι κ C where
  replicas := Function.update s.replicas d r
  commits := s.commits ++ (r.storage.tree p.tree).commits.values
  fragments := s.fragments ++ (r.storage.tree p.tree).fragments.values

/-- One step. -/
def step [DecidableEq κ] (s : Group ι κ C) : Label ι p → Group ι κ C
  | .write d c key signature => s.setReplica p d ((s.replicas d).write p c key signature)
  | .install d f key signature => s.setReplica p d ((s.replicas d).install p f key signature)
  | .prune d => s.setReplica p d ((s.replicas d).prune p)
  | .receive d commits fragments =>
    s.setReplica p d ((s.replicas d).receive p (commits.filterMap fun i => s.commits[i]?)
      (fragments.filterMap fun i => s.fragments[i]?))
  | .absorb d epoch cached => s.setReplica p d ((s.replicas d).absorb p epoch cached)
  | .enrol adder joiner =>
    let r := s.replicas joiner
    s.setReplica p joiner
      { r with heads := importContentKeys r.heads (exportContentKeys (s.replicas adder).heads) }

end Group

end Machine

/-! ## Reading back -/

section Reading

variable [DecidableEq κ] (p : Partition κ C)

/-- A reader who has the exported keys, and follows the keys inside the stored envelopes it opens,
gets this key. -/
inductive Recovers (r : Replica κ C) : Cref → κ → Prop
  | exported {c k} (h : (c, k) ∈ exportContentKeys r.heads) : Recovers r c k
  | ancestor {d k ct env c k'} (hd : Recovers r d k) (hct : (d, ct) ∈ r.held p)
      (hopen : ct.tryDecrypt k = some (.ok env)) (hc : (c, k') ∈ env.ancestors) : Recovers r c k'

/-- The reader opens a stored commit or fragment with this change in it. -/
def ReadBack (r : Replica κ C) (c : C) : Prop :=
  ∃ cref k ct env, Recovers p r cref k ∧ (cref, ct) ∈ r.held p ∧
    ct.tryDecrypt k = some (.ok env) ∧ c ∈ env.plaintext

end Reading

end Polyvisor.Private
