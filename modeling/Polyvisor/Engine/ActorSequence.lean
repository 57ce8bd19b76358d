import Polyvisor.Engine.Snapshot
import Polyvisor.Lib.ChangeGraph
import Polyvisor.Lib.Transition

/-!
# Actors, sequence numbers and task ids

`actor` and `Document` of `document-history/src/lib.rs`, `mutate` and `absorb_app` of
`engine/src/lib.rs` as far as they number changes, and `add` and `mint_id` of
`todo-model/src/lib.rs`, on the devices of a group that write, exchange, persist and crash.

A device's actor in a document is a hash of its seed and the document's name and nothing else, and
a change's number is one more than what the document holds. A commit can be in a peer's hands
before the journal that carries it is committed: a crash in between puts the device back under the
same actor with a document that does not hold the change.

`stored` lists the changes storage holds, as commits or inside fragments, in the order they got
there, and the committed journal is a prefix of it. The digests are parameters: the actor and the
task id are the first sixteen bytes of a SHA-256, of type `D`, and a change's hash has type `I`.

## Main results

* `Inv` and `inv_step`: what every step keeps, crashes included that lose nothing of the device's
  own that has a number or an id.
* `numbers_used_once`: in a run of such steps no number is used for two changes and no task id is
  minted twice.
* `number_reused`: a crash that loses one change.
-/

namespace Polyvisor

/-! ## Changes and their names -/

/-- An automerge change. -/
structure Change (D I O : Type) where
  actor : D
  seq : ℕ
  deps : List I
  ops : O
  deriving DecidableEq

/-- The digests the ids are made of. -/
structure Digests (D I O : Type) where
  /-- `Sha256::digest(..)[..16]`. -/
  digest : Bytes → D
  bytes : D → Bytes
  changeHash : Change D I O → I

/-- No two inputs collide. -/
structure Digests.Ideal {D I O : Type} (n : Digests D I O) : Prop where
  digest : Function.Injective n.digest
  bytes : Function.Injective n.bytes
  changeHash : Function.Injective n.changeHash

/-- A document: an app's partition, or the group's own. -/
inductive DocName where
  | app (partition : String)
  | us
  deriving DecidableEq

section Names

variable {D I O : Type} (n : Digests D I O)

/-- `document_history::actor`. -/
def actor (domain : Bytes) (seed : Vector UInt8 32) (scope : Bytes) : D :=
  n.digest (domain ++ seed.toList ++ scope)

/-- The actor a device writes a document under. -/
def documentActor (seed : Vector UInt8 32) : DocName → D
  | .app partition => actor n (utf8 "polyvisor:actor:") seed (utf8 partition)
  | .us => actor n (utf8 "polyvisor:us-actor:") seed []

/-- `u64::to_be_bytes`. -/
def toBeBytes (v : ℕ) : Bytes :=
  [v / 2 ^ 56, v / 2 ^ 48, v / 2 ^ 40, v / 2 ^ 32, v / 2 ^ 24, v / 2 ^ 16, v / 2 ^ 8, v].map
    UInt8.ofNat

/-- `mint_id`, before it is written out in hexadecimal. -/
def mintId (revision : ℕ) (actor : D) : D :=
  n.digest (utf8 "polyvisor:task-id:" ++ n.bytes actor ++ toBeBytes revision)

theorem toBeBytes_inj {v w : ℕ} (hv : v < 2 ^ 64) (hw : w < 2 ^ 64)
    (h : toBeBytes v = toBeBytes w) : v = w := by
  have hbyte {a b : ℕ} (hab : UInt8.ofNat a = UInt8.ofNat b) : a % 256 = b % 256 := by
    simpa using congrArg UInt8.toNat hab
  simp only [toBeBytes, List.map_cons, List.map_nil, List.cons.injEq, and_true] at h
  obtain ⟨h7, h6, h5, h4, h3, h2, h1, h0⟩ := h
  have := hbyte h7
  have := hbyte h6
  have := hbyte h5
  have := hbyte h4
  have := hbyte h3
  have := hbyte h2
  have := hbyte h1
  have := hbyte h0
  omega

variable {n}

theorem actor_inj (hn : n.Ideal) {domain : Bytes} {seed seed' : Vector UInt8 32}
    {scope scope' : Bytes} (h : actor n domain seed scope = actor n domain seed' scope') :
    seed = seed' ∧ scope = scope' := by
  have happ := hn.digest h
  rw [List.append_assoc, List.append_assoc] at happ
  have hlength : seed.toList.length = seed'.toList.length := by
    rw [Vector.length_toList, Vector.length_toList]
  obtain ⟨hseed, hscope⟩ := List.append_inj (List.append_cancel_left happ) hlength
  exact ⟨Vector.toList_inj.1 hseed, hscope⟩

/-- Two devices have different actors in a document. -/
theorem documentActor_seed_inj (hn : n.Ideal) {seed seed' : Vector UInt8 32} {name : DocName}
    (h : documentActor n seed name = documentActor n seed' name) : seed = seed' := by
  cases name with
  | app partition => exact (actor_inj hn h).1
  | us => exact (actor_inj hn h).1

/-- A device has different actors in different partitions. -/
theorem documentActor_app_inj (hn : n.Ideal) {seed seed' : Vector UInt8 32}
    {partition partition' : String}
    (h : documentActor n seed (.app partition) = documentActor n seed' (.app partition')) :
    seed = seed' ∧ partition = partition' :=
  (actor_inj hn h).imp_right fun hscope => utf8_injective hscope

theorem mintId_inj (hn : n.Ideal) {r r' : ℕ} {a a' : D} (hr : r < 2 ^ 64) (hr' : r' < 2 ^ 64)
    (h : mintId n r a = mintId n r' a') : r = r' ∧ a = a' := by
  have happ := hn.digest h
  rw [List.append_assoc, List.append_assoc] at happ
  -- the revision is the last eight bytes
  obtain ⟨hactor, hrevision⟩ := List.append_inj' (List.append_cancel_left happ) rfl
  exact ⟨toBeBytes_inj hr hr' hrevision, hn.bytes hactor⟩

end Names

/-! ## The devices of a group -/

section Machine

set_option linter.unusedSectionVars false

variable {ι D I O : Type}

/-- What one device holds. -/
structure Device (D I O : Type) where
  /-- The changes each document has applied. -/
  docs : DocName → List (Change D I O) := fun _ => []
  /-- Changes that were authored and drained, and not stored yet. -/
  inFlight : List (DocName × Change D I O) := []
  stored : List (DocName × Change D I O) := []
  /-- How many of the stored changes the committed journal holds. -/
  committed : ℕ := 0
  /-- How many of them the delta being written will bring it to. -/
  prepared : Option ℕ := none

/-- A minted task id. -/
structure Minted (ι D I O : Type) where
  device : ι
  partition : String
  revision : ℕ
  /-- The change that adds the task. -/
  change : Change D I O
  deriving DecidableEq

/-- The devices, what has ever been handed to a peer, and the task ids minted so far. -/
structure Exchange (ι D I O : Type) where
  devices : ι → Device D I O := fun _ => {}
  sent : List (DocName × Change D I O) := []
  minted : List (Minted ι D I O) := []

/-- What can happen next, and on which device. -/
inductive ExchangeLabel (ι D I O : Type) where
  /-- A transaction on a document, or one that adds a task. -/
  | author (d : ι) (name : DocName) (ops : O) (task : Bool)
  /-- Sealing and storing a drained change succeeds or fails. -/
  | land (d : ι) (name : DocName) (c : Change D I O) (ok : Bool)
  /-- Stored changes are opened and applied. -/
  | absorb (d : ι) (name : DocName) (batch : List (Change D I O))
  | receive (d : ι) (name : DocName) (c : Change D I O)
  | hand (d : ι) (name : DocName) (c : Change D I O)
  /-- `prepare_persistence`, with this many stored changes settled. -/
  | prepare (d : ι) (settled : ℕ)
  /-- The prepared delta is committed and acknowledged. -/
  | commit (d : ι)
  /-- The process stops, loads its committed journal and rebuilds its documents. -/
  | crash (d : ι)

/-- The number of a device's next change: one more than the last one the document holds. -/
def nextSeq [DecidableEq D] (doc : List (Change D I O)) (a : D) : ℕ :=
  ((doc.filter fun c => c.actor = a).map Change.seq).foldr max 0 + 1

variable (n : Digests D I O)

/-- How automerge names changes. -/
def Digests.graph : ChangeGraph (Change D I O) I where
  id := n.changeHash
  deps := Change.deps

variable [DecidableEq D] [DecidableEq I] [DecidableEq O]

/-- The change a transaction on a document produces. -/
def authored (seed : Vector UInt8 32) (name : DocName) (doc : List (Change D I O)) (ops : O) :
    Change D I O where
  actor := documentActor n seed name
  seq := nextSeq doc (documentActor n seed name)
  deps := n.graph.heads doc
  ops := ops

/-- Two changes under one actor and number. -/
def Clash (doc batch : List (Change D I O)) : Prop :=
  ∃ c ∈ batch, ∃ x ∈ doc ++ batch, x.actor = c.actor ∧ x.seq = c.seq ∧ x ≠ c

instance decidableClash (doc batch : List (Change D I O)) : Decidable (Clash doc batch) :=
  inferInstanceAs (Decidable (∃ c ∈ batch, ∃ x ∈ doc ++ batch, _))

/-- `Document::apply`: a batch automerge refuses is dropped whole, one it takes is applied as its
dependencies allow. -/
def applyBatch (doc batch : List (Change D I O)) : List (Change D I O) :=
  if Clash doc batch then doc else n.graph.deliver batch.length doc batch

/-- The stored changes of a document. -/
def itemsOf (items : List (DocName × Change D I O)) (name : DocName) : List (Change D I O) :=
  (items.filter fun item => item.1 = name).map Prod.snd

namespace Device

/-- The changes the committed journal holds. -/
def journal (dev : Device D I O) : List (DocName × Change D I O) :=
  dev.stored.take dev.committed

/-- A document as a reload rebuilds it. -/
def rebuilt (dev : Device D I O) (name : DocName) : List (Change D I O) :=
  applyBatch n [] (itemsOf dev.journal name)

/-- The reload. -/
def reload (dev : Device D I O) : Device D I O where
  docs := dev.rebuilt n
  stored := dev.journal
  committed := dev.journal.length

end Device

namespace Exchange

variable [DecidableEq ι] (seeds : ι → Vector UInt8 32)

def setDevice (s : Exchange ι D I O) (d : ι) (dev : Device D I O) : Exchange ι D I O :=
  { s with devices := Function.update s.devices d dev }

/-- One step. A label that does not apply changes nothing. -/
def step (s : Exchange ι D I O) : ExchangeLabel ι D I O → Exchange ι D I O
  | .author d name ops task =>
    let dev := s.devices d
    let doc := dev.docs name
    let c := authored n (seeds d) name doc ops
    let s' := s.setDevice d { dev with
      docs := Function.update dev.docs name (doc ++ [c])
      inFlight := dev.inFlight ++ [(name, c)] }
    match name, task with
    -- the id is made of the revision before the transaction
    | .app partition, true => { s' with minted := s.minted ++ [⟨d, partition, doc.length, c⟩] }
    | _, _ => s'
  | .land d name c ok =>
    let dev := s.devices d
    if (name, c) ∈ dev.inFlight then
      s.setDevice d { dev with
        inFlight := dev.inFlight.erase (name, c)
        stored := if ok then dev.stored ++ [(name, c)] else dev.stored }
    else s
  | .absorb d name batch =>
    let dev := s.devices d
    let batch := batch.filter fun c => (name, c) ∈ dev.stored
    s.setDevice d { dev with
      docs := Function.update dev.docs name (applyBatch n (dev.docs name) batch) }
  | .receive d name c =>
    let dev := s.devices d
    if (name, c) ∈ s.sent then s.setDevice d { dev with stored := dev.stored ++ [(name, c)] } else s
  | .hand d name c =>
    if (name, c) ∈ (s.devices d).stored then { s with sent := s.sent ++ [(name, c)] } else s
  | .prepare d settled =>
    let dev := s.devices d
    s.setDevice d { dev with
      prepared := some (max dev.committed (min settled dev.stored.length)) }
  | .commit d =>
    let dev := s.devices d
    s.setDevice d { dev with committed := dev.prepared.getD dev.committed, prepared := none }
  | .crash d => s.setDevice d ((s.devices d).reload n)

/-- The task id the call answered with. -/
def taskId (m : Minted ι D I O) : D :=
  mintId n m.revision m.change.actor

/-- No number and no id is used twice. -/
structure UsedOnce (s : Exchange ι D I O) : Prop where
  numbers : ∀ name c c', (name, c) ∈ s.sent → (name, c') ∈ s.sent →
    c.actor = c'.actor → c.seq = c'.seq → c = c'
  tasks : (s.minted.map (taskId n)).Nodup

/-- A change is a device's own. -/
def Own (d : ι) (name : DocName) (c : Change D I O) : Prop :=
  c.actor = documentActor n (seeds d) name

/-- A crash loses no change of the device's own that a peer or the journal has, and none that
minted a task id. -/
structure LosesNothing (s : Exchange ι D I O) (l : ExchangeLabel ι D I O) : Prop where
  own : ∀ d, l = .crash d → ∀ name c, Own n seeds d name c →
    (name, c) ∈ s.sent ∨ (name, c) ∈ (s.devices d).journal → c ∈ (s.devices d).rebuilt n name
  tasks : ∀ d, l = .crash d → ∀ m ∈ s.minted, m.device = d →
    m.change ∈ (s.devices d).rebuilt n (.app m.partition)
  /-- A revision is a `u64`. -/
  revision : ∀ d name ops, l = .author d name ops true →
    ((s.devices d).docs name).length < 2 ^ 64

variable {n seeds}

theorem lt_nextSeq {doc : List (Change D I O)} {c : Change D I O} (h : c ∈ doc) :
    c.seq < nextSeq doc c.actor := by
  have hmem : c.seq ∈ (doc.filter fun x => x.actor = c.actor).map Change.seq :=
    List.mem_map_of_mem (List.mem_filter.2 ⟨h, decide_eq_true rfl⟩)
  have hle (xs : List ℕ) : ∀ x ∈ xs, x ≤ xs.foldr max 0 := by
    induction xs with
    | nil => intro x hx; cases hx
    | cons y ys ih =>
      intro x hx
      rcases List.mem_cons.1 hx with rfl | hx
      · exact le_max_left _ _
      · exact (ih x hx).trans (le_max_right _ _)
  exact Nat.lt_succ_of_le (hle _ _ hmem)

/-- A batch changes a document only by adding some of its own changes. -/
theorem applyBatch_eq_append (doc batch : List (Change D I O)) :
    ∃ added, applyBatch n doc batch = doc ++ added ∧ added ⊆ batch := by
  rw [applyBatch]
  split
  · exact ⟨[], (List.append_nil doc).symm, List.nil_subset _⟩
  · exact ChangeGraph.deliver_eq_append _ _ _

theorem causal_applyBatch {doc : List (Change D I O)} (h : n.graph.Causal doc)
    (batch : List (Change D I O)) : n.graph.Causal (applyBatch n doc batch) := by
  rw [applyBatch]
  split
  · exact h
  · exact h.deliver _ _

theorem mem_itemsOf {items : List (DocName × Change D I O)} {name : DocName}
    {c : Change D I O} : c ∈ itemsOf items name ↔ (name, c) ∈ items := by
  simp [itemsOf]

/-- A reload rebuilds a document from journalled changes. -/
theorem mem_journal_of_mem_rebuilt {dev : Device D I O} {name : DocName} {c : Change D I O}
    (h : c ∈ dev.rebuilt n name) : (name, c) ∈ dev.journal := by
  obtain ⟨added, heq, hsub⟩ := applyBatch_eq_append (n := n) [] (itemsOf dev.journal name)
  rw [Device.rebuilt, heq, List.nil_append] at h
  exact mem_itemsOf.1 (hsub h)

theorem Own.device_eq (hn : n.Ideal) (hseeds : Function.Injective seeds) {d e : ι}
    {name : DocName} {c : Change D I O} (hd : Own n seeds d name c) (he : Own n seeds e name c) :
    d = e :=
  hseeds (documentActor_seed_inj hn (hd.symm.trans he))

/-! ## What is kept -/

/-- A device has a change that is not necessarily in its document. -/
def Held (s : Exchange ι D I O) (d : ι) (name : DocName) (c : Change D I O) : Prop :=
  (name, c) ∈ (s.devices d).stored ∨ (name, c) ∈ (s.devices d).inFlight

/-- What every step keeps that loses nothing. -/
structure Inv (n : Digests D I O) (seeds : ι → Vector UInt8 32) (s : Exchange ι D I O) : Prop where
  causal : ∀ d name, n.graph.Causal ((s.devices d).docs name)
  /-- Everything of a device's own that may still reach a peer, or has, is in its document. -/
  live : ∀ d name c, Own n seeds d name c → (name, c) ∈ s.sent ∨ s.Held d name c →
    c ∈ (s.devices d).docs name
  numbered : ∀ d name c c', Own n seeds d name c → Own n seeds d name c' →
    c ∈ (s.devices d).docs name → c' ∈ (s.devices d).docs name → c.seq = c'.seq → c = c'
  /-- What a device holds of others it was sent. -/
  foreign : ∀ d name c, s.Held d name c → Own n seeds d name c ∨ (name, c) ∈ s.sent
  authored : ∀ name c, (name, c) ∈ s.sent → ∃ d, Own n seeds d name c
  minted : ∀ m ∈ s.minted, Own n seeds m.device (.app m.partition) m.change ∧
    m.change ∈ (s.devices m.device).docs (.app m.partition)
  /-- A document that holds the change of a task has grown past the revision its id is made of. -/
  revision : ∀ m ∈ s.minted, m.revision < 2 ^ 64 ∧ ∀ doc, n.graph.Causal doc → m.change ∈ doc →
    m.revision < doc.length
  mintedOnce : (s.minted.map (taskId n)).Nodup

theorem inv_new : Inv n seeds ({} : Exchange ι D I O) where
  causal _ _ := .nil
  live _ _ _ _ h := by simp [Held] at h
  numbered _ _ _ _ _ _ h := by cases h
  foreign _ _ _ h := by simp [Held] at h
  authored _ _ h := by cases h
  minted _ h := by cases h
  revision _ h := by cases h
  mintedOnce := List.nodup_nil

/-- A step that moves changes about and leaves the documents as they are. -/
theorem Inv.move (hn : n.Ideal) (hseeds : Function.Injective seeds) {s s' : Exchange ι D I O}
    (h : s.Inv n seeds) (hdocs : ∀ d, (s'.devices d).docs = (s.devices d).docs)
    (hminted : s'.minted = s.minted) (hsent : s.sent ⊆ s'.sent)
    (hsent' : ∀ name c, (name, c) ∈ s'.sent → (name, c) ∈ s.sent ∨ ∃ d, s.Held d name c)
    (hheld : ∀ d name c, s'.Held d name c → s.Held d name c ∨ (name, c) ∈ s.sent) :
    s'.Inv n seeds where
  causal d := by rw [hdocs]; exact h.causal d
  live d name c hown hmem := by
    rw [hdocs]
    rcases hmem with hmem | hmem
    · rcases hsent' name c hmem with hmem | ⟨e, hmem⟩
      · exact h.live d name c hown (.inl hmem)
      · -- the sender is the author, or was sent the change before
        rcases h.foreign e name c hmem with hown' | hmem'
        · have hde : d = e := hown.device_eq hn hseeds hown'
          exact h.live d name c hown (.inr (hde ▸ hmem))
        · exact h.live d name c hown (.inl hmem')
    · rcases hheld d name c hmem with hmem | hmem
      · exact h.live d name c hown (.inr hmem)
      · exact h.live d name c hown (.inl hmem)
  numbered d := by rw [hdocs]; exact h.numbered d
  foreign d name c hmem := by
    rcases hheld d name c hmem with hmem | hmem
    · exact (h.foreign d name c hmem).imp_right (@hsent _)
    · exact .inr (hsent hmem)
  authored name c hmem := by
    rcases hsent' name c hmem with hmem | ⟨e, hmem⟩
    · exact h.authored name c hmem
    · rcases h.foreign e name c hmem with hown | hmem
      · exact ⟨e, hown⟩
      · exact h.authored name c hmem
  minted m hm := by rw [hdocs]; exact h.minted m (hminted ▸ hm)
  revision m hm := h.revision m (hminted ▸ hm)
  mintedOnce := by rw [hminted]; exact h.mintedOnce

/-- The change a transaction produces is new and rests on the document. -/
theorem ready_authored (hn : n.Ideal) (seed : Vector UInt8 32) (name : DocName)
    (doc : List (Change D I O)) (ops : O) : n.graph.Ready doc (authored n seed name doc ops) := by
  refine ⟨fun hmem => ?_, fun i hi => ChangeGraph.heads_subset_ids hi⟩
  have hmem := ChangeGraph.mem_of_id_mem_ids (g := n.graph) hn.changeHash hmem
  exact (lt_nextSeq hmem).false

@[simp]
theorem devices_setDevice_self (s : Exchange ι D I O) (d : ι) (dev : Device D I O) :
    (s.setDevice d dev).devices d = dev :=
  Function.update_self ..

theorem devices_setDevice_of_ne (s : Exchange ι D I O) {d e : ι} (h : e ≠ d)
    (dev : Device D I O) : (s.setDevice d dev).devices e = s.devices e :=
  Function.update_of_ne h ..

/-- A step that extends one document, by changes that are not the device's own or by one it holds
from now on. -/
theorem Inv.grow {s : Exchange ι D I O} (h : s.Inv n seeds) (d : ι) (name : DocName)
    (doc : List (Change D I O)) (dev : Device D I O)
    (hdocs : dev.docs = Function.update (s.devices d).docs name doc)
    (hsub : (s.devices d).docs name ⊆ doc) (hcausal : n.graph.Causal doc)
    (hnumbered : ∀ c c', Own n seeds d name c → Own n seeds d name c' → c ∈ doc → c' ∈ doc →
      c.seq = c'.seq → c = c')
    (hheld : ∀ name' c, (name', c) ∈ dev.stored ∨ (name', c) ∈ dev.inFlight →
      s.Held d name' c ∨ name' = name ∧ Own n seeds d name c ∧ c ∈ doc) :
    (s.setDevice d dev).Inv n seeds := by
  -- every document of every device holds what it held
  have hkeep : ∀ e name', (s.devices e).docs name' ⊆
      ((s.setDevice d dev).devices e).docs name' := by
    intro e name' c hc
    rcases eq_or_ne e d with rfl | he
    · rw [devices_setDevice_self, hdocs]
      rcases eq_or_ne name' name with rfl | hname
      · rw [Function.update_self]
        exact hsub hc
      · rwa [Function.update_of_ne hname]
    · rwa [devices_setDevice_of_ne s he]
  refine ⟨fun e name' => ?_, fun e name' c hown hmem => ?_, fun e name' c c' hc hc' => ?_,
    fun e name' c hmem => ?_, h.authored, fun m hm => ?_, h.revision, h.mintedOnce⟩
  · rcases eq_or_ne e d with rfl | he
    · rw [devices_setDevice_self, hdocs]
      rcases eq_or_ne name' name with rfl | hname
      · rwa [Function.update_self]
      · rw [Function.update_of_ne hname]
        exact h.causal e name'
    · rw [devices_setDevice_of_ne s he]
      exact h.causal e name'
  · rcases hmem with hmem | hmem
    · exact hkeep e name' (h.live e name' c hown (.inl hmem))
    · rcases eq_or_ne e d with rfl | he
      · rw [Held, devices_setDevice_self] at hmem
        rcases hheld name' c hmem with hmem | ⟨rfl, -, hmem⟩
        · exact hkeep e name' (h.live e name' c hown (.inr hmem))
        · rwa [devices_setDevice_self, hdocs, Function.update_self]
      · rw [Held, devices_setDevice_of_ne s he] at hmem
        exact hkeep e name' (h.live e name' c hown (.inr hmem))
  · rcases eq_or_ne e d with rfl | he
    · rw [devices_setDevice_self, hdocs]
      rcases eq_or_ne name' name with rfl | hname
      · rw [Function.update_self]
        exact hnumbered c c' hc hc'
      · rw [Function.update_of_ne hname]
        exact h.numbered e name' c c' hc hc'
    · rw [devices_setDevice_of_ne s he]
      exact h.numbered e name' c c' hc hc'
  · rcases eq_or_ne e d with rfl | he
    · rw [Held, devices_setDevice_self] at hmem
      rcases hheld name' c hmem with hmem | ⟨rfl, hown, -⟩
      · exact h.foreign e name' c hmem
      · exact .inl hown
    · rw [Held, devices_setDevice_of_ne s he] at hmem
      exact h.foreign e name' c hmem
  · exact (h.minted m hm).imp_right (@hkeep _ _ _)

/-- A transaction on a document, before a task id is counted. -/
theorem inv_author (hn : n.Ideal) {s : Exchange ι D I O} (h : s.Inv n seeds) (d : ι)
    (name : DocName) (ops : O) :
    (s.setDevice d { s.devices d with
      docs := Function.update (s.devices d).docs name
        ((s.devices d).docs name ++ [authored n (seeds d) name ((s.devices d).docs name) ops])
      inFlight := (s.devices d).inFlight ++
        [(name, authored n (seeds d) name ((s.devices d).docs name) ops)] }).Inv n seeds := by
  set doc := (s.devices d).docs name with hdoc
  set c := authored n (seeds d) name doc ops with hc
  -- the new number is above all the device has used
  have hlast : ∀ x, Own n seeds d name x → x ∈ doc → x.seq < c.seq := fun x hown hx => by
    have hlt := lt_nextSeq hx
    rwa [show x.actor = documentActor n (seeds d) name from hown] at hlt
  refine h.grow d name (doc ++ [c]) _ rfl (List.subset_append_left _ _)
    ((h.causal d name).snoc (ready_authored hn (seeds d) name doc ops))
    (fun x y hx hy hxmem hymem hseq => ?_) (fun name' x hmem => ?_)
  · rcases List.mem_append.1 hxmem with hxmem | hxmem <;>
      rcases List.mem_append.1 hymem with hymem | hymem
    · exact h.numbered d name x y hx hy hxmem hymem hseq
    · rw [List.mem_singleton.1 hymem] at hseq
      exact absurd hseq (hlast x hx hxmem).ne
    · rw [List.mem_singleton.1 hxmem] at hseq
      exact absurd hseq.symm (hlast y hy hymem).ne
    · rw [List.mem_singleton.1 hxmem, List.mem_singleton.1 hymem]
  · rcases hmem with hmem | hmem
    · exact .inl (.inl hmem)
    · rcases List.mem_append.1 hmem with hmem | hmem
      · exact .inl (.inr hmem)
      · rw [List.mem_singleton, Prod.mk.injEq] at hmem
        obtain ⟨rfl, rfl⟩ := hmem
        exact .inr ⟨rfl, rfl, by simp⟩

/-- The id of a task is new when its revision is past those of the document's other tasks. -/
theorem Inv.mint (hn : n.Ideal) (hseeds : Function.Injective seeds) {s : Exchange ι D I O}
    (h : s.Inv n seeds) {m : Minted ι D I O}
    (hown : Own n seeds m.device (.app m.partition) m.change)
    (hmem : m.change ∈ (s.devices m.device).docs (.app m.partition))
    (hrevision : m.revision < 2 ^ 64)
    (hlast : ∀ doc, n.graph.Causal doc → m.change ∈ doc → m.revision < doc.length)
    (hpast : ∀ x ∈ s.minted, x.device = m.device → x.partition = m.partition →
      x.revision < m.revision) :
    { s with minted := s.minted ++ [m] }.Inv n seeds := by
  refine ⟨h.causal, h.live, h.numbered, h.foreign, h.authored, fun x hx => ?_, fun x hx => ?_, ?_⟩
  · rcases List.mem_append.1 hx with hx | hx
    · exact h.minted x hx
    · rw [List.mem_singleton.1 hx]
      exact ⟨hown, hmem⟩
  · rcases List.mem_append.1 hx with hx | hx
    · exact h.revision x hx
    · rw [List.mem_singleton.1 hx]
      exact ⟨hrevision, hlast⟩
  · rw [List.map_append, List.map_singleton, List.nodup_append]
    refine ⟨h.mintedOnce, List.nodup_singleton _, fun a ha b hb heq => ?_⟩
    obtain ⟨x, hx, rfl⟩ := List.mem_map.1 ha
    rw [List.mem_singleton.1 hb] at heq
    obtain ⟨hrev, hactor⟩ := mintId_inj hn (h.revision x hx).1 hrevision heq
    rw [show x.change.actor = _ from (h.minted x hx).1, show m.change.actor = _ from hown] at hactor
    obtain ⟨hseed, hpartition⟩ := documentActor_app_inj hn hactor
    exact absurd hrev (hpast x hx (hseeds hseed) hpartition).ne

/-- A crash that loses nothing of the device's own. -/
theorem inv_crash {s : Exchange ι D I O} (h : s.Inv n seeds) (d : ι)
    (hl : s.LosesNothing n seeds (.crash d)) :
    (s.setDevice d ((s.devices d).reload n)).Inv n seeds := by
  have hjournal : ∀ name c, (name, c) ∈ (s.devices d).journal → s.Held d name c := fun name c hc =>
    .inl (List.mem_of_mem_take hc)
  refine ⟨fun e name => ?_, fun e name c hown hmem => ?_, fun e name c c' hc hc' hcm hcm' => ?_,
    fun e name c hmem => ?_, h.authored, fun m hm => ?_, h.revision, h.mintedOnce⟩
  · rcases eq_or_ne e d with rfl | he
    · rw [devices_setDevice_self]
      exact causal_applyBatch .nil _
    · rw [devices_setDevice_of_ne s he]
      exact h.causal e name
  · rcases eq_or_ne e d with rfl | he
    · rw [Held, devices_setDevice_self] at hmem
      rw [devices_setDevice_self]
      refine hl.own e rfl name c hown ?_
      rcases hmem with hmem | hmem | hmem
      · exact .inl hmem
      · exact .inr hmem
      · cases hmem
    · rw [Held, devices_setDevice_of_ne s he] at hmem
      rw [devices_setDevice_of_ne s he]
      exact h.live e name c hown hmem
  · rcases eq_or_ne e d with rfl | he
    · -- what is rebuilt was held, so the document held it before
      rw [devices_setDevice_self] at hcm hcm'
      have hold : ∀ x, Own n seeds e name x → x ∈ (s.devices e).rebuilt n name →
          x ∈ (s.devices e).docs name := fun x hx hmem =>
        h.live e name x hx (.inr (hjournal name x (mem_journal_of_mem_rebuilt hmem)))
      exact h.numbered e name c c' hc hc' (hold c hc hcm) (hold c' hc' hcm')
    · rw [devices_setDevice_of_ne s he] at hcm hcm'
      exact h.numbered e name c c' hc hc' hcm hcm'
  · rcases eq_or_ne e d with rfl | he
    · rw [Held, devices_setDevice_self] at hmem
      rcases hmem with hmem | hmem
      · exact h.foreign e name c (hjournal name c hmem)
      · cases hmem
    · rw [Held, devices_setDevice_of_ne s he] at hmem
      exact h.foreign e name c hmem
  · refine ⟨(h.minted m hm).1, ?_⟩
    rcases eq_or_ne m.device d with he | he
    · rw [he, devices_setDevice_self]
      exact hl.tasks d rfl m hm he
    · rw [devices_setDevice_of_ne s he]
      exact (h.minted m hm).2

/-- A step that only changes what a device stores, has in flight and has journalled. -/
theorem Inv.setDevice (hn : n.Ideal) (hseeds : Function.Injective seeds) {s : Exchange ι D I O}
    (h : s.Inv n seeds) (d : ι) (dev : Device D I O) (hdocs : dev.docs = (s.devices d).docs)
    (hheld : ∀ name c, (name, c) ∈ dev.stored ∨ (name, c) ∈ dev.inFlight →
      s.Held d name c ∨ (name, c) ∈ s.sent) : (s.setDevice d dev).Inv n seeds := by
  refine h.move hn hseeds (fun e => ?_) rfl (fun _ h => h) (fun _ _ => .inl)
    fun e name c hmem => ?_
  · rcases eq_or_ne e d with rfl | he
    · rw [devices_setDevice_self, hdocs]
    · rw [devices_setDevice_of_ne s he]
  · rcases eq_or_ne e d with rfl | he
    · rw [Held, devices_setDevice_self] at hmem
      exact hheld name c hmem
    · rw [Held, devices_setDevice_of_ne s he] at hmem
      exact .inl hmem

/-- Absorbing adds nothing of the device's own: the document held that already. -/
theorem inv_absorb {s : Exchange ι D I O} (h : s.Inv n seeds) (d : ι) (name : DocName)
    {batch : List (Change D I O)} (hbatch : ∀ c ∈ batch, (name, c) ∈ (s.devices d).stored) :
    (s.setDevice d { s.devices d with
      docs := Function.update (s.devices d).docs name
        (applyBatch n ((s.devices d).docs name) batch) }).Inv n seeds := by
  obtain ⟨added, heq, hsub⟩ := applyBatch_eq_append (n := n) ((s.devices d).docs name) batch
  have hown : ∀ c, Own n seeds d name c → c ∈ applyBatch n ((s.devices d).docs name) batch →
      c ∈ (s.devices d).docs name := fun c hc hmem => by
    rw [heq] at hmem
    rcases List.mem_append.1 hmem with hmem | hmem
    · exact hmem
    · exact h.live d name c hc (.inr (.inl (hbatch c (hsub hmem))))
  refine h.grow d name _ _ rfl ?_ (causal_applyBatch (h.causal d name) batch)
    (fun c c' hc hc' hmem hmem' =>
      h.numbered d name c c' hc hc' (hown c hc hmem) (hown c' hc' hmem'))
    (fun _ _ => .inl)
  rw [heq]
  exact List.subset_append_left _ _

theorem inv_step (hn : n.Ideal) (hseeds : Function.Injective seeds) {s : Exchange ι D I O}
    {l : ExchangeLabel ι D I O} (hl : s.LosesNothing n seeds l) (h : s.Inv n seeds) :
    (s.step n seeds l).Inv n seeds := by
  cases l with
  | author d name ops task =>
    have hauthor := inv_author hn h d name ops
    cases name with
    | us => exact hauthor
    | app partition =>
      cases task with
      | false => exact hauthor
      | true =>
        have hcausal := h.causal d (.app partition)
        have hready := ready_authored hn (seeds d) (.app partition)
          ((s.devices d).docs (.app partition)) ops
        refine hauthor.mint hn hseeds rfl ?_ (hl.revision d _ ops rfl)
          (fun doc hdoc hmem => hcausal.length_lt_of_deps_heads hn.changeHash hdoc rfl
            (fun hold => hready.1 (ChangeGraph.id_mem_ids hold)) hmem) fun x hx hd hp => ?_
        · rw [devices_setDevice_self]
          simp [Function.update_self]
        · have hmem := (h.minted x hx).2
          rw [hd, hp] at hmem
          exact (h.revision x hx).2 _ hcausal hmem
  | land d name c ok =>
    rw [step]
    split
    next hmem =>
      refine h.setDevice hn hseeds d _ rfl fun name' c' hheld => .inl ?_
      rcases hheld with hheld | hheld
      · cases ok with
        | false => exact .inl hheld
        | true =>
          rcases List.mem_append.1 hheld with hheld | hheld
          · exact .inl hheld
          · exact .inr (List.mem_singleton.1 hheld ▸ hmem)
      · exact .inr (List.mem_of_mem_erase hheld)
    next => exact h
  | absorb d name batch =>
    exact inv_absorb h d name fun c hc => by simpa using (List.mem_filter.1 hc).2
  | receive d name c =>
    rw [step]
    split
    next hsent =>
      refine h.setDevice hn hseeds d _ rfl fun name' c' hheld => ?_
      rcases hheld with hheld | hheld
      · rcases List.mem_append.1 hheld with hheld | hheld
        · exact .inl (.inl hheld)
        · exact .inr (List.mem_singleton.1 hheld ▸ hsent)
      · exact .inl (.inr hheld)
    next => exact h
  | hand d name c =>
    rw [step]
    split
    next hstored =>
      refine h.move hn hseeds (fun _ => rfl) rfl (List.subset_append_left _ _)
        (fun name' c' hmem => ?_) (fun _ _ _ => .inl)
      rcases List.mem_append.1 hmem with hmem | hmem
      · exact .inl hmem
      · exact .inr ⟨d, .inl (List.mem_singleton.1 hmem ▸ hstored)⟩
    next => exact h
  | prepare d settled => exact h.setDevice hn hseeds d _ rfl fun _ _ => .inl
  | commit d => exact h.setDevice hn hseeds d _ rfl fun _ _ => .inl
  | crash d => exact inv_crash h d hl

theorem Inv.usedOnce {s : Exchange ι D I O} (h : s.Inv n seeds) : s.UsedOnce n := by
  refine ⟨fun name c c' hc hc' hactor hseq => ?_, h.mintedOnce⟩
  obtain ⟨d, hown⟩ := h.authored name c hc
  have hown' : Own n seeds d name c' := hactor.symm.trans hown
  exact h.numbered d name c c' hown hown' (h.live d name c hown (.inl hc))
    (h.live d name c' hown' (.inl hc')) hseq

/-- **Numbers and ids.** In every run of a group's devices in which no crash loses a change of the
device's own that a peer or the committed journal has, nor one that added a task, no two distinct
changes that were ever handed to a peer have one actor and one number, and no task id is minted
twice. -/
theorem numbers_used_once (hn : n.Ideal) (hseeds : Function.Injective seeds)
    (labels : List (ExchangeLabel ι D I O))
    (h : Transition.Meets (step n seeds) (LosesNothing n seeds) {} labels) :
    (Transition.run (step n seeds) {} labels).UsedOnce n :=
  (Transition.run_preserves_of_meets (fun _ _ => inv_step hn hseeds) h inv_new).usedOnce

/-! ## Two runs -/

/-- The parts of a change, spelled out. -/
inductive Spelled where
  | nil
  | cons (head tail : Spelled)
  | change (actor : Bytes) (seq : ℕ) (deps : Spelled) (ops : ℕ)
  deriving DecidableEq

def spell : List Spelled → Spelled
  | [] => .nil
  | x :: xs => .cons x (spell xs)

theorem spell_injective : Function.Injective spell := by
  intro xs
  induction xs with
  | nil =>
    intro ys h
    cases ys with
    | nil => rfl
    | cons y ys => cases h
  | cons x xs ih =>
    intro ys h
    cases ys with
    | nil => cases h
    | cons y ys =>
      rw [spell, spell, Spelled.cons.injEq] at h
      rw [h.1, ih h.2]

/-- Digests that spell out what they digest. -/
def spelled : Digests Bytes Spelled ℕ where
  digest := id
  bytes := id
  changeHash c := .change c.actor c.seq (spell c.deps) c.ops

theorem spelled_ideal : spelled.Ideal where
  digest := Function.injective_id
  bytes := Function.injective_id
  changeHash c c' h := by
    obtain ⟨actor, seq, deps, ops⟩ := c
    obtain ⟨actor', seq', deps', ops'⟩ := c'
    simp only [spelled, Spelled.change.injEq] at h
    obtain ⟨rfl, rfl, hdeps, rfl⟩ := h
    rw [spell_injective hdeps]

def tasks : DocName := .app "tasks"

/-- The seed of the one device of the two runs. -/
def zeroSeed (_ : Unit) : Vector UInt8 32 := Vector.replicate 32 0

/-- The first change of the device, which adds a task. -/
def firstTask : Change Bytes Spelled ℕ :=
  authored spelled (zeroSeed ()) tasks [] 1

/-- What it writes after a reload that brought nothing back. -/
def firstTaskAgain : Change Bytes Spelled ℕ :=
  authored spelled (zeroSeed ()) tasks [] 2

/-- A peer gets the change before the journal holds it. -/
def exposeThenCrash : List (ExchangeLabel Unit Bytes Spelled ℕ) :=
  [.author () tasks 1 true, .land () tasks firstTask true, .hand () tasks firstTask, .crash (),
    .author () tasks 2 true, .land () tasks firstTaskAgain true, .hand () tasks firstTaskAgain]

/-- The journal holds the change before a peer gets it. -/
def journalThenCrash : List (ExchangeLabel Unit Bytes Spelled ℕ) :=
  [.author () tasks 1 true, .land () tasks firstTask true, .prepare () 1, .commit (),
    .hand () tasks firstTask, .crash (), .author () tasks 2 true]

theorem number_reused :
    let s := Transition.run (step spelled zeroSeed) {} exposeThenCrash
    s.sent = [(tasks, firstTask), (tasks, firstTaskAgain)] ∧ firstTask ≠ firstTaskAgain ∧
      firstTask.actor = firstTaskAgain.actor ∧ firstTask.seq = firstTaskAgain.seq ∧
      (∃ taskId', s.minted.map (taskId spelled) = [taskId', taskId']) ∧ ¬ s.UsedOnce spelled := by
  intro s
  have hsent : s.sent = [(tasks, firstTask), (tasks, firstTaskAgain)] := by decide +kernel
  have hne : firstTask ≠ firstTaskAgain := by decide +kernel
  refine ⟨hsent, hne, rfl, rfl, ⟨mintId spelled 0 firstTask.actor, by decide +kernel⟩, fun h => ?_⟩
  exact hne (h.numbers tasks _ _ (by simp [hsent]) (by simp [hsent]) rfl rfl)

theorem numbers_used_once_journalThenCrash :
    (Transition.run (step spelled zeroSeed) {} journalThenCrash).UsedOnce spelled := by
  have hquiet (s : Exchange Unit Bytes Spelled ℕ) (l : ExchangeLabel Unit Bytes Spelled ℕ)
      (hcrash : l ≠ .crash ()) (hrevision : ((s.devices ()).docs tasks).length < 2 ^ 64)
      (hname : ∀ d name ops, l = .author d name ops true → name = tasks) :
      s.LosesNothing spelled zeroSeed l :=
    ⟨fun _ h => absurd h hcrash, fun _ h => absurd h hcrash,
      fun d name ops h => hname d name ops h ▸ hrevision⟩
  have hname : ∀ {ops : ℕ} (d : Unit) (name : DocName) (ops' : ℕ),
      (.author () tasks ops true : ExchangeLabel Unit Bytes Spelled ℕ) = .author d name ops' true →
        name = tasks := fun _ _ _ h => by cases h; rfl
  -- where the crash finds the device
  let s := Transition.run (step spelled zeroSeed) {} (journalThenCrash.take 5)
  have hsent : s.sent = [(tasks, firstTask)] := by decide +kernel
  have hjournal : (s.devices ()).journal = [(tasks, firstTask)] := by decide +kernel
  have hminted : s.minted = [⟨(), "tasks", 0, firstTask⟩] := by decide +kernel
  have hrebuilt : firstTask ∈ (s.devices ()).rebuilt spelled tasks := by decide +kernel
  refine numbers_used_once spelled_ideal (fun _ _ _ => rfl) _ ⟨hquiet _ _ (by simp) (by simp) hname,
    hquiet _ _ (by simp) (by decide +kernel) (by simp),
    hquiet _ _ (by simp) (by decide +kernel) (by simp),
    hquiet _ _ (by simp) (by decide +kernel) (by simp),
    hquiet _ _ (by simp) (by decide +kernel) (by simp),
    ⟨fun d _ name c _ hmem => ?_, fun d _ m hm _ => ?_, fun _ _ _ h => by cases h⟩,
    hquiet _ _ (by simp) (by decide +kernel) hname, trivial⟩
  · have hmem : (name, c) ∈ [(tasks, firstTask)] := hmem.elim
      (fun h => by rw [← hsent]; exact h) (fun h => by rw [← hjournal]; exact h)
    obtain ⟨rfl, rfl⟩ := Prod.mk.inj (List.mem_singleton.1 hmem)
    exact hrebuilt
  · have hm : m ∈ [⟨(), "tasks", 0, firstTask⟩] := by rw [← hminted]; exact hm
    rw [List.mem_singleton.1 hm]
    exact hrebuilt

end Exchange

end Machine

end Polyvisor
