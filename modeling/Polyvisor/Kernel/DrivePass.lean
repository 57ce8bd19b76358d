import Polyvisor.Engine.Access
import Polyvisor.Engine.OpaqueRegister

/-!
# A pass over the store

`sync_attempt` and `drive_push_control` of `kernel/src/drive.rs` with the request helper they go
through, and what of the engine they read: the name key, the registers, the held items and the
control revision. A pass is a chain of synchronous segments; at each await (a request, an import,
the control barrier) it leaves a phase behind, and anything else may move before it goes on.

Around the pass move the engine (local writes, live imports, compaction, the adoption of another
group) and the other devices that write to the store. Names are modelled by what their HMAC is
taken of, and a file's id by its place among all files ever created. The time stamps, the token
values and the error texts are left out.
-/

namespace Polyvisor.DriveOrder

open Std

variable {B : Type}

/-! ## What is stored where -/

/-- What the pass takes from other crates beyond what the import path does. -/
structure DriveCodec (B : Type) extends IntakeCodec B where
  /-- The register writes an item of the `us` tree carries; its id is the digest of them. -/
  carries : CommitId → ItemKind → Finset ℕ
  /-- The devices it enrols. -/
  enrols : CommitId → ItemKind → Finset Bytes32
  /-- `us_tree` is a fixed digest, which does not begin with the opaque tag. -/
  us_plain : Opaque.isOpaqueTree (usTree sha) = false

/-- `object_name`: what the HMAC is keyed by and taken of. -/
structure ObjectName where
  key : Bytes32
  tree : TreeId
  commit : CommitId
  kind : ItemKind
  deriving DecidableEq

/-- The name of an item under a name key. -/
def objectName (key : Bytes32) (item : StoreItem B) : ObjectName :=
  ⟨key, item.tree, item.commit, item.kind⟩

/-- A file of the store. -/
structure Object (B : Type) where
  /-- `none` for a name that no item has. -/
  name : Option ObjectName
  /-- `none` for bytes that are not an item. -/
  item : Option (StoreItem B)
  deriving DecidableEq

/-- A register write, and the name key of the group it was made in. -/
structure GroupWrite extends RegisterWrite where
  group : Bytes32
  deriving DecidableEq

/-- Whether a write made this tree current. -/
def makes (writes : List GroupWrite) (i : ℕ) (tree : TreeId) : Bool :=
  (writes[i]?).any fun write => (RegisterValue.decode write.bytes).any fun v =>
    v.mode.isSome && Opaque.treeId write.slot v.nonce == tree

/-- The registers a document with these writes shows. -/
def lifecycle (writes : List GroupWrite) (merged : Finset ℕ) : LifecycleState where
  registers := RegisterGroup.opaqueRegisters (writes.map (·.toRegisterWrite)) merged

/-! ## The engine, as the pass sees it -/

/-- The fields of `Engine` that decide what a pass does. -/
structure Engine (B : Type) where
  nameKey : Option Bytes32 := none
  /-- The register writes the user-system document has merged. -/
  merged : Finset ℕ := ∅
  members : Finset Bytes32 := ∅
  /-- The held items of the `us` tree. -/
  us : List (StoreItem B) := []
  /-- The held items of every other tree. -/
  content : List (StoreItem B) := []
  /-- What the storage has admitted and not stored yet. -/
  admitted : List (StoreItem B) := []
  /-- `read_not_held`. -/
  readNotHeld : List (TreeId × CommitId) := []
  /-- `control_revision`, which stops at `u64::MAX`. -/
  revision : ℕ := 0
  /-- The writes of the local mutation that holds `control_write`: merged, and not stored yet. -/
  writing : Option (Finset ℕ) := none
  /-- Whether `adopt_us` has dropped the tree and not stored the adopted document's fragment. -/
  adopting : Bool := false

/-- `u64::MAX`. -/
def lastRevision : ℕ := 2 ^ 64 - 1

/-! ## The pass -/

/-- A file about to be deleted. -/
structure Target (B : Type) where
  id : ℕ
  name : ObjectName
  item : StoreItem B
  deriving DecidableEq

/-- An object that was downloaded. -/
structure Download (B : Type) where
  id : ℕ
  name : Option ObjectName
  item : StoreItem B
  deriving DecidableEq

/-- What is left to do once a deletion is over: the items after the one just posted, or the
objects after the one cleaned up. -/
inductive Remaining (B : Type) where
  | posts (items : List (StoreItem B))
  | cleanup (objects : List (Download B))
  deriving DecidableEq

/-- What a call of `drive_push_control` stands before. -/
inductive After (B : Type) where
  | content
  | delete (target : Target B) (rest : Remaining B)
  deriving DecidableEq

/-- Where a pass waits. -/
inductive Phase (B : Type) where
  /-- `drive_folder` queries the folder's name. -/
  | resolve
  | makeFolder
  /-- `drive_list`, one page. -/
  | list
  | read (id : ℕ) (name : Option ObjectName) (rest : List (ℕ × Option ObjectName))
  /-- `ingest_items` of the control batch; `judged` once the `us` items were accepted. -/
  | importControl (judged : Bool)
  /-- `ingest_items` of the eligible payload. -/
  | importPayload
  /-- `control_barrier`. -/
  | barrier (next : After B)
  /-- A `us` item is being posted. -/
  | control (item : StoreItem B) (rest : List (StoreItem B)) (revision : ℕ) (next : After B)
  /-- An item of another tree is being posted. -/
  | content (item : StoreItem B) (rest : List (StoreItem B))
  | delete (target : Target B) (rest : Remaining B)
  deriving DecidableEq

/-- Where `drive_request` stands, for the phases that are requests. `retry` once a 401 has bought
its refresh. -/
inductive Wire where
  | idle
  | refreshing (retry : Bool)
  | sent (retry : Bool)
  deriving DecidableEq

/-- The locals of a pass. -/
structure Pass (B : Type) where
  /-- `name_key`, captured when the pass began. -/
  key : Bytes32
  /-- The listing so far. -/
  listed : List (ℕ × Option ObjectName) := []
  /-- The names not to download. -/
  held : List ObjectName := []
  downloaded : List (Download B) := []
  present : List ObjectName := []
  phase : Phase B
  wire : Wire := .idle

/-- A request that writes. -/
inductive Write (B : Type) where
  | folder
  | create (item : StoreItem B)
  | delete (target : Target B)
  deriving DecidableEq

/-- A write as it went out, with what the device was then. -/
structure Sent (B : Type) where
  passKey : Bytes32
  deviceKey : Option Bytes32
  merged : Finset ℕ
  members : Finset Bytes32
  write : Write B

/-- The device, its store, and what other devices have written. -/
structure World (B : Type) where
  /-- The register writes ever made, in any group. -/
  writes : List GroupWrite := []
  /-- The name keys the device has had. No code reads it. -/
  keys : List Bytes32 := []
  engine : Engine B := {}
  /-- Every file ever created; its id is its place. -/
  remote : List (Object B) := []
  /-- The files that were deleted. -/
  gone : Finset ℕ := ∅
  /-- The name key the cached folder was resolved under. -/
  folder : Option Bytes32 := none
  rejected : Finset ℕ := ∅
  pass : Option (Pass B) := none
  /-- The writes sent, newest first. No code reads it. -/
  log : List (Sent B) := []

namespace World

variable (codec : DriveCodec B) (w : World B) (p : Pass B)

/-- `opaque_status`. -/
def status (tree : TreeId) : Option Bool :=
  Opaque.status (lifecycle w.writes w.engine.merged) tree

/-- `item_publishable`. -/
def itemPublishable (item : StoreItem B) : Bool :=
  !Opaque.isOpaqueTree item.tree || w.status item.tree == some true

/-- `valid_store_item`, for the trees outside the reserved namespace, whose authors are the
members. -/
def validStoreItem (item : StoreItem B) : Bool :=
  Gate.validItem codec.toIntakeCodec w.engine.members item

/-- The recheck after every await: the group is still the one the pass began in. -/
def sameKey : Bool :=
  w.engine.nameKey == some p.key

/-- The pass returns. -/
def finish : World B :=
  { w with pass := none }

/-- The pass waits for the engine. -/
def await (phase : Phase B) : World B :=
  { w with pass := some { p with phase, wire := .idle } }

end World

/-- What the request of a phase writes. -/
def Phase.write : Phase B → Option (Write B)
  | .makeFolder => some .folder
  | .control item _ _ _ => some (.create item)
  | .content item _ => some (.create item)
  | .delete target _ => some (.delete target)
  | _ => none

namespace World

variable (codec : DriveCodec B) (w : World B) (p : Pass B) (stale : Bool)

/-- `authorized`: the request goes out. -/
def send (retry : Bool) : World B :=
  let sent := p.phase.write.map fun write =>
    ⟨p.key, w.engine.nameKey, w.engine.merged, w.engine.members, write⟩
  { w with pass := some { p with wire := .sent retry }, log := sent.toList ++ w.log }

/-- `drive_request`: a token past its expiry is refreshed before the request goes out. -/
def issue (phase : Phase B) : World B :=
  if stale then { w with pass := some { p with phase, wire := .refreshing false } }
  else w.send { p with phase } false

/-- The cleanup loop of `sync_attempt`. The key has just been read when the control is pushed, so
the loop head of `drive_push_control` goes straight to its barrier. -/
def cleanupNext : List (Download B) → World B
  | [] => w.finish
  | object :: rest =>
    if !w.sameKey p then w.finish
    else if Opaque.isOpaqueTree object.item.tree &&
        object.name == some (objectName p.key object.item) &&
        w.validStoreItem codec object.item && w.status object.item.tree == some false then
      w.await p (.barrier (.delete
        ⟨object.id, objectName p.key object.item, object.item⟩ (.cleanup rest)))
    else cleanupNext rest

/-- The content loop of `sync_attempt`. -/
def contentNext : List (StoreItem B) → World B
  | [] => w.cleanupNext codec p p.downloaded
  | item :: rest =>
    if !w.sameKey p then w.finish
    else if !w.itemPublishable item || decide (objectName p.key item ∈ p.present) then
      contentNext rest
    else w.issue p stale (.content item rest)

/-- What follows a deletion. -/
def goOn : Remaining B → World B
  | .posts items => w.contentNext codec p stale items
  | .cleanup objects => w.cleanupNext codec p objects

/-- `drive_push_control` has returned. -/
def pushed : After B → World B
  | .content => w.contentNext codec p stale w.engine.content
  | .delete target rest =>
    if !w.sameKey p then w.finish
    else if w.status target.item.tree == some false then w.issue p stale (.delete target rest)
    else w.goOn codec p stale rest

/-- The rest of the batch of `drive_push_control`. A revision that has moved makes another round. -/
def controlNext (revision : ℕ) (next : After B) : List (StoreItem B) → World B
  | [] =>
    if w.engine.revision ≠ revision then w.await p (.barrier next)
    else w.pushed codec p stale next
  | item :: rest =>
    if objectName p.key item ∈ p.present then controlNext revision next rest
    else w.issue p stale (.control item rest revision next)

/-- The barrier was crossed: take the batch. -/
def takeBatch (next : After B) : World B :=
  if !w.sameKey p then w.pushed codec p stale next
  else w.controlNext codec p stale w.engine.revision next w.engine.us

/-- From the end of the pull to the first barrier. -/
def push : World B :=
  let p := { p with present := p.listed.filterMap (·.2) }
  if !w.sameKey p then w.pushed codec p stale .content
  else w.await p (.barrier .content)

/-- The payload of the download that may be imported. -/
def payload : List (Download B) :=
  p.downloaded.filter fun object => Opaque.isOpaqueTree object.item.tree &&
    object.name == some (objectName p.key object.item) && w.validStoreItem codec object.item &&
    w.status object.item.tree == some true

/-- The control batch was imported. -/
def controlImported : World B :=
  if !w.sameKey p then w.finish
  else if (w.payload codec p).isEmpty then w.push codec p stale
  else w.await p .importPayload

/-- The downloads are complete. -/
def pulled : World B :=
  if !w.sameKey p then w.finish
  else if p.downloaded.all fun object => Opaque.isOpaqueTree object.item.tree then
    w.controlImported codec p stale
  else w.await p (.importControl false)

/-- The download loop. -/
def readNext : List (ℕ × Option ObjectName) → World B
  | [] => w.pulled codec p stale
  | (id, name) :: rest =>
    if !w.sameKey p then w.finish
    else if name.any (fun name => decide (name ∈ p.held)) || decide (id ∈ w.rejected) then
      readNext rest
    else w.issue p stale (.read id name rest)

/-- The names this device need not download. -/
def heldNames : List ObjectName :=
  (w.engine.us ++ w.engine.content).map (objectName p.key) ++
    w.engine.readNotHeld.map fun (tree, commit) => ⟨p.key, tree, commit, .commit⟩

/-- `sync_once`, up to the first request of the pass. -/
def start : World B :=
  match w.engine.nameKey, w.pass with
  | some key, none =>
    let p : Pass B := { key, phase := .resolve }
    if w.folder = some key then w.issue p stale .list else w.issue p stale .resolve
  | _, _ => w

end World

/-! ## The machine -/

/-- How the store answers a request. -/
inductive Answer where
  | found (known : Bool)
  | made
  /-- Some files, and whether there is another page. -/
  | page (ids : List ℕ) (more : Bool)
  /-- The bytes of the file asked for, or a 404. -/
  | body
  | created
  | deleted
  deriving DecidableEq, Repr

/-- What can happen next. A `stale` token is one past its expiry when the pass comes to its next
request. -/
inductive Label (B : Type) where
  | start (stale : Bool)
  /-- The token refresh is over. -/
  | refreshed
  /-- A 401. -/
  | unauthorized
  | answer (a : Answer) (stale : Bool)
  /-- The engine call the pass waits for returns. -/
  | resume (stale : Bool)
  /-- `ingest_items` accepts the `us` items of its batch. What it accepts of other trees enters by
  `admission` and `put`, and what it applies by `absorb`, as what arrives live does. -/
  | judge
  /-- The pass fails; its last write may have reached the store. -/
  | fail (landed : Bool)
  /-- Another device makes a register write. -/
  | author (write : GroupWrite)
  /-- The device founds its group. -/
  | found (key self : Bytes32)
  /-- `us_mutate`, up to its first await after the change. -/
  | mutate (write : Option (SlotHash × RegisterValue)) (enrolled : Finset Bytes32)
  /-- Its commit is stored, and `control_write` released. -/
  | settle (item : StoreItem B)
  /-- A `us` item of a peer is stored. -/
  | receive (item : StoreItem B)
  /-- Stored `us` items are applied. -/
  | absorb (items : List (StoreItem B))
  /-- Items are rolled up into a fragment. -/
  | compact (whole : StoreItem B) (dropped : List (StoreItem B))
  /-- An item of another tree is admitted, and stored. -/
  | admission (item : StoreItem B)
  | put (item : StoreItem B)
  | discard (item : StoreItem B)
  | noteRead (read : List (TreeId × CommitId))
  /-- `adopt_us`: the tree is dropped, the document replaced, its fragment stored. -/
  | adoptForget
  | adoptInstall (key : Bytes32) (merged : Finset ℕ) (members : Finset Bytes32)
  | adoptFragment (item : StoreItem B)
  /-- Another device writes to the store. Like this one, it deletes opaque objects alone. -/
  | peerCreate (object : Object B)
  | peerDelete (id : ℕ)
  /-- `oauth_complete` and `storage_disconnect` drop the caches. -/
  | dropCaches
  deriving DecidableEq

namespace World

variable (codec : DriveCodec B) (w : World B) (p : Pass B) (stale : Bool)

/-- What the write of a phase does to the store. -/
def land : Phase B → World B
  | .control item _ _ _ | .content item _ =>
    { w with remote := w.remote ++ [⟨some (objectName p.key item), some item⟩] }
  | .delete target _ => { w with gone := insert target.id w.gone }
  | _ => w

/-- The files of a page, as the listing shows them. -/
def entries (ids : List ℕ) : List (ℕ × Option ObjectName) :=
  ids.filterMap fun id =>
    if id ∈ w.gone then none else (w.remote[id]?).map fun object => (id, object.name)

/-- The folder is known. -/
def resolved : World B :=
  { w with folder := some p.key, rejected := ∅ }.issue p stale .list

/-- A request of the pass was answered. -/
def answered : Phase B → Answer → World B
  | .resolve, .found true => w.resolved p stale
  -- no recheck of the key here: the query was an await
  | .resolve, .found false => w.issue p stale .makeFolder
  | .makeFolder, .made => w.resolved p stale
  | .list, .page ids more =>
    let p := { p with listed := p.listed ++ w.entries ids }
    if more then w.issue p stale .list
    else w.readNext codec { p with held := w.heldNames p } stale p.listed
  | .read id name rest, .body =>
    if id ∈ w.gone then w.readNext codec p stale rest
    else
      match (w.remote[id]?).bind (·.item) with
      | some item =>
        w.readNext codec { p with downloaded := p.downloaded ++ [⟨id, name, item⟩] } stale rest
      | none => { w with rejected := insert id w.rejected }.readNext codec p stale rest
  | .control item rest revision next, .created =>
    let p' := { p with present := objectName p.key item :: p.present }
    let w' := w.land p (.control item rest revision next)
    if !w'.sameKey p' then w'.pushed codec p' stale next
    else w'.controlNext codec p' stale revision next rest
  | .content item rest, .created =>
    let p' := { p with present := objectName p.key item :: p.present }
    let w' := w.land p (.content item rest)
    if !w'.sameKey p' then w'.finish
    else if Opaque.isOpaqueTree item.tree && !w'.itemPublishable item then
      w'.await p' (.barrier (.delete ⟨w.remote.length, objectName p.key item, item⟩ (.posts rest)))
    else w'.contentNext codec p' stale rest
  | .delete target rest, .deleted => (w.land p (.delete target rest)).goOn codec p stale rest
  | _, _ => w

/-- An engine call of the pass returned. -/
def resumed : Phase B → World B
  | .importControl true => w.controlImported codec p stale
  | .importPayload => w.push codec p stale
  -- the barrier waits for the mutation that holds `control_write`
  | .barrier next => if w.engine.writing.isSome then w else w.takeBatch codec p stale next
  | _ => w

/-- `accept`, for an item of the `us` tree. -/
def accept (item : StoreItem B) : Bool :=
  w.validStoreItem codec item && w.engine.us.all (fun held => held.key != item.key) &&
    !(item.kind == .commit && decide ((item.tree, item.commit) ∈ w.engine.readNotHeld))

/-- The `us` items of the download that are accepted. -/
def accepted : List (StoreItem B) :=
  (p.downloaded.map (·.item)).filter fun item =>
    item.tree == usTree codec.sha && w.accept codec item

/-- The turn of `ingest_items` for the `us` tree: all its items are judged before any is
applied. -/
def judged : World B :=
  { w with
    engine := { w.engine with us := w.engine.us ++ w.accepted codec p }
    pass := some { p with phase := .importControl true } }

/-- The counter after one more change of the document. -/
def nextRevision : ℕ :=
  min (w.engine.revision + 1) lastRevision

/-- Whether nobody has made the tree of this write before, as its nonce is fresh. -/
def fresh (write : GroupWrite) : Bool :=
  (List.range w.writes.length).all fun i =>
    (RegisterValue.decode write.bytes).all fun v =>
      !makes w.writes i (Opaque.treeId write.slot v.nonce)

/-- `us_mutate`. The revision moves with the document. -/
def mutate (write : Option (SlotHash × RegisterValue)) (enrolled : Finset Bytes32) : World B :=
  match w.engine.nameKey, w.engine.writing, write with
  | some _, none, none =>
    { w with engine := { w.engine with
        members := w.engine.members ∪ enrolled
        revision := w.nextRevision
        writing := some ∅ } }
  | some key, none, some (slot, v) =>
    let made : GroupWrite := ⟨⟨slot, v.encode, w.engine.merged, []⟩, key⟩
    if !w.fresh made then w
    else
      { w with
        writes := w.writes ++ [made]
        engine := { w.engine with
          merged := insert w.writes.length w.engine.merged
          members := w.engine.members ∪ enrolled
          revision := w.nextRevision
          writing := some {w.writes.length} } }
  | _, _, _ => w

/-- The writes some items carry. -/
def carriedBy (items : List (StoreItem B)) : Finset ℕ :=
  items.foldr (fun item writes => codec.carries item.commit item.kind ∪ writes) ∅

/-- The devices some items enrol. -/
def enrolledBy (items : List (StoreItem B)) : Finset Bytes32 :=
  items.foldr (fun item keys => codec.enrols item.commit item.kind ∪ keys) ∅

variable [DecidableEq B]

/-- Whether the document can apply these items: they are stored, they belong to its group, and
what they rest on is there. -/
def absorbable (items : List (StoreItem B)) : Bool :=
  items.all (fun item => decide (item ∈ w.engine.us)) &&
    decide (∀ i ∈ carriedBy codec items, (w.writes[i]?).any fun write =>
      some write.group == w.engine.nameKey &&
        decide (write.past ⊆ w.engine.merged ∪ carriedBy codec items))

/-- Whether every write of an adopted document belongs to its group. -/
def ofGroup (key : Bytes32) (merged : Finset ℕ) : Bool :=
  decide (∀ i ∈ merged, (w.writes[i]?).any fun write => write.group == key)

/-- One step of the pass. -/
def passStep : Label B → World B
  | .start stale => w.start stale
  | .refreshed =>
    match w.pass with
    | some p => match p.wire with
      | .refreshing retry => w.send p retry
      | _ => w
    | none => w
  | .unauthorized =>
    match w.pass with
    | some p => match p.wire with
      | .sent false => { w with pass := some { p with wire := .refreshing true } }
      | .sent true => w.finish
      | _ => w
    | none => w
  | .answer a stale =>
    match w.pass with
    | some p => match p.wire with
      | .sent _ => w.answered codec p stale p.phase a
      | _ => w
    | none => w
  | .resume stale =>
    match w.pass with
    | some p => w.resumed codec p stale p.phase
    | none => w
  | .judge =>
    match w.pass with
    | some p => match p.phase with
      | .importControl false => w.judged codec p
      | _ => w
    | none => w
  | .fail landed =>
    match w.pass with
    | some p => match p.wire, landed with
      | .sent _, true => (w.land p p.phase).finish
      | _, _ => w.finish
    | none => w
  | _ => w

/-- One step of everything else. -/
def worldStep : Label B → World B
  | .author write => if w.fresh write then { w with writes := w.writes ++ [write] } else w
  | .found key self =>
    if w.engine.nameKey = none then
      { w with
        keys := key :: w.keys
        engine := { w.engine with nameKey := some key, members := {self} } }
    else w
  | .mutate write enrolled => w.mutate write enrolled
  | .settle item =>
    match w.engine.writing with
    | some writes =>
      if item.tree = usTree codec.sha ∧ writes ⊆ codec.carries item.commit item.kind then
        { w with engine := { w.engine with us := w.engine.us ++ [item], writing := none } }
      else w
    | none => w
  | .receive item =>
    if item.tree = usTree codec.sha ∧ w.validStoreItem codec item then
      { w with engine := { w.engine with us := w.engine.us ++ [item] } }
    else w
  | .absorb items =>
    if w.absorbable codec items then
      { w with engine := { w.engine with
          merged := w.engine.merged ∪ carriedBy codec items
          members := w.engine.members ∪ enrolledBy codec items
          revision := w.nextRevision } }
    else w
  | .compact whole dropped =>
    if whole.tree = usTree codec.sha ∧
        carriedBy codec dropped ⊆ codec.carries whole.commit whole.kind then
      { w with engine := { w.engine with
          us := w.engine.us.filter (fun item => decide (item ∉ dropped)) ++ [whole] } }
    else w
  | .admission item =>
    if item.tree ≠ usTree codec.sha ∧ w.itemPublishable item then
      { w with engine := { w.engine with admitted := item :: w.engine.admitted } }
    else w
  | .put item =>
    if item ∈ w.engine.admitted then
      { w with engine := { w.engine with content := w.engine.content ++ [item] } }
    else w
  | .discard item => { w with engine := { w.engine with content := w.engine.content.erase item } }
  | .noteRead read => { w with engine := { w.engine with readNotHeld := read } }
  | .adoptForget => { w with engine := { w.engine with us := [], adopting := true } }
  | .adoptInstall key merged members =>
    if w.engine.adopting ∧ w.ofGroup key merged then
      { w with
        keys := key :: w.keys
        engine := { w.engine with nameKey := some key, merged, members } }
    else w
  | .adoptFragment item =>
    if w.engine.adopting ∧ item.tree = usTree codec.sha ∧
        w.engine.merged ⊆ codec.carries item.commit item.kind then
      { w with engine := { w.engine with us := w.engine.us ++ [item], adopting := false } }
    else w
  | .peerCreate object => { w with remote := w.remote ++ [object] }
  | .peerDelete id =>
    if (w.remote[id]?).any fun object =>
        object.name.all fun name => Opaque.isOpaqueTree name.tree then
      { w with gone := insert id w.gone }
    else w
  | .dropCaches => { w with folder := none, rejected := ∅ }
  | _ => w

/-- One step. -/
def step (w : World B) (l : Label B) : World B :=
  match l with
  | .start _ | .refreshed | .unauthorized | .answer _ _ | .resume _ | .judge | .fail _ =>
    w.passStep codec l
  | _ => w.worldStep codec l

end World

/-! ## What the pass owes -/

namespace World

variable (codec : DriveCodec B) (w : World B)

/-- A file of this name is in the store. -/
def Stored (name : ObjectName) : Prop :=
  ∃ (id : ℕ) (object : Object B), w.remote[id]? = some object ∧ object.name = some name ∧
    id ∉ w.gone

/-- A `us` item that carries the write is in the store. -/
def Carried (key : Bytes32) (i : ℕ) : Prop :=
  ∃ commit kind, w.Stored ⟨key, usTree codec.sha, commit, kind⟩ ∧ i ∈ codec.carries commit kind

/-- The store's `us` items made the tree current and then retired it. -/
def Retired (key : Bytes32) (tree : TreeId) : Prop :=
  ∃ merged : Finset ℕ, (∀ i ∈ merged, i < w.writes.length ∧ w.Carried codec key i) ∧
    (∃ i ∈ merged, makes w.writes i tree) ∧
    Opaque.status (lifecycle w.writes merged) tree = some false

/-- The file has the name of the opaque item in it. -/
structure Named (key : Bytes32) (target : Target B) : Prop where
  tree : Opaque.isOpaqueTree target.item.tree
  name : target.name = objectName key target.item
  file : w.remote[target.id]? = some ⟨some target.name, some target.item⟩

/-- Its item is correctly signed by a member, or was posted by the pass. -/
structure Proved (key : Bytes32) (members : Finset Bytes32) (target : Target B) : Prop extends
    w.Named key target where
  ours : Gate.validItem codec.toIntakeCodec members target.item ∨
    ∃ sent ∈ w.log, sent.passKey = key ∧ sent.write = .create target.item

end World

/-- Ordering, for one write: it went out under the key of its pass; if it posted an item of an
opaque tree, the register writes that made the tree current were in the store; if it deleted a
file, those that retired its tree were, and the file was proved to be ours. -/
def Sent.Ordered (codec : DriveCodec B) (w : World B) (sent : Sent B) : Prop :=
  sent.deviceKey = some sent.passKey ∧
    match sent.write with
    | .folder => True
    | .create item => Opaque.isOpaqueTree item.tree →
      ∀ i ∈ sent.merged, makes w.writes i item.tree → w.Carried codec sent.passKey i
    | .delete target =>
      w.Proved codec sent.passKey sent.members target ∧
        w.Retired codec sent.passKey target.item.tree

/-- Every write the device sent was in order. The store never loses a `us` item, so this says the
same at the end of a run as it did when the write went out. -/
def World.Ordered (codec : DriveCodec B) (w : World B) : Prop :=
  ∀ sent ∈ w.log, sent.Ordered codec w

/-- What a pass that waits in `drive_push_control` for its cleanup is about to delete. -/
def Phase.cleansUp : Phase B → Option (StoreItem B)
  | .barrier (.delete target (.cleanup _)) => some target.item
  | .control _ _ _ (.delete target (.cleanup _)) => some target.item
  | _ => none

namespace World

/-- Whether the document knows the register write of what the pass is about to clean up. -/
def knowsTarget (w : World B) (p : Pass B) : Bool :=
  p.phase.cleansUp.all fun item =>
    decide (∃ i ∈ w.engine.merged, makes w.writes i item.tree)

/-- The condition on a step. A write goes out after a token refresh, and a folder is created after
its query, only while the key is the pass's own; no batch of control is taken while an adoption is
under way; what is cleaned up is of a tree whose register write is known; a name key is never
adopted twice; and the control revision has not reached its last value. -/
def sound (w : World B) : Label B → Bool
  | .refreshed => w.pass.all fun p => p.phase.write.isNone || w.sameKey p
  | .answer (.found false) _ => w.pass.all fun p => w.sameKey p
  | .answer _ _ => w.pass.all fun p => w.knowsTarget p
  | .resume _ => w.pass.all fun p => w.knowsTarget p &&
      match p.phase with
      | .barrier _ => !w.engine.adopting
      | _ => true
  | .adoptInstall key _ _ => decide (key ∉ w.keys)
  | .mutate _ _ | .absorb _ => decide (w.engine.revision < lastRevision)
  | _ => true

end World

end Polyvisor.DriveOrder
