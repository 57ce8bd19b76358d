import Polyvisor.Engine.InlineItems
import Polyvisor.Kernel.Invitations
import Polyvisor.Kernel.Pairing
import Polyvisor.Lib.Course
import Polyvisor.Lib.Json
import Mathlib.Logic.Function.Basic

/-!
# What an adder leaves behind

`run_adder` of `kernel/src/pairing.rs`, from the claim to the checkpoint. What its awaits answer is
the `World` it runs in, so that a run may fail wherever the code can. The phases it sets and the
digits it shows are in `Pairing`.

The joiner is written into the group before the frame that tells it is collected, encoded and
measured, and nothing takes the membership back.

## Main results

* `runAdder_error_iff`: which runs leave no membership when they fail, and which frames are within
  the bound of the wire.
-/

namespace Polyvisor.Adder

open Pairing (Frame Wake cancelled gone outOfOrder malformedNonce)
open Invitations (ShareAccess)

/-- `PAIRING_FRAME_BUDGET`. -/
def pairingFrameBudget : ℕ := 8 * 1024 * 1024

/-- `PAIRING_SHARED_ITEMS_BUDGET`. -/
def pairingSharedItemsBudget : ℕ := 2 * 1024 * 1024

/-- `DocumentGrant`. -/
structure DocumentGrant where
  partition : Bytes
  document : Bytes
  recipientGroup : Bytes
  access : ShareAccess
  authority : Bytes
  frontier : Bytes

/-- `Frame::Enroll`. -/
structure Enroll where
  us : Bytes
  keyhive : Bytes
  readBack : Bytes
  nameKey : Bytes
  visor : Bytes
  contacts : Bytes
  shared : List (DocumentGrant × List (StoreItem Bytes))

/-! ## The wire -/

/-- An id as its bytes. -/
def idBytes (id : Bytes32) : Bytes :=
  BigEndian.toBytes 32 id.toNat

def kindName : ItemKind → String
  | .commit => "commit"
  | .fragment => "fragment"

def accessName : ShareAccess → String
  | .read => "Read"
  | .edit => "Edit"

/-- `serde_json` of an item. -/
def itemJson (item : StoreItem Bytes) : Bytes :=
  Json.object
    [("tree", Json.bytes (idBytes item.tree)), ("commit", Json.bytes (idBytes item.commit)),
      ("signed", Json.bytes item.signed), ("blob", Json.bytes item.blob),
      ("kind", Json.string (Json.text (kindName item.kind)))]

namespace DocumentGrant

/-- `serde_json` of a grant. -/
def json (grant : DocumentGrant) : Bytes :=
  Json.object
    [("document", Json.object
        [("partition", Json.string grant.partition), ("document", Json.bytes grant.document)]),
      ("recipient_group", Json.bytes grant.recipientGroup),
      ("access", Json.string (Json.text (accessName grant.access))),
      ("authority", Json.bytes grant.authority), ("frontier", Json.bytes grant.frontier)]

end DocumentGrant

/-- `serde_json` of a grant with its items. -/
def sharedJson (shared : DocumentGrant × List (StoreItem Bytes)) : Bytes :=
  Json.array [shared.1.json, Json.array (shared.2.map itemJson)]

namespace Enroll

/-- `serde_json::to_vec`. -/
def encode (frame : Enroll) : Bytes :=
  Json.object [("Enroll", Json.object
    [("us", Json.bytes frame.us), ("keyhive", Json.bytes frame.keyhive),
      ("read_back", Json.bytes frame.readBack), ("name_key", Json.bytes frame.nameKey),
      ("visor", Json.bytes frame.visor), ("contacts", Json.bytes frame.contacts),
      ("shared", Json.array (frame.shared.map sharedJson))])]

end Enroll

/-! ## The device and its world -/

/-- A member of the `us` document. -/
structure Member where
  petname : String
  enrolled : ℕ

/-- What a run can leave behind: the members in the `us` document and the devices in the Keyhive
group; and the store-name key. -/
structure Device where
  us : Bytes → Option Member
  group : Finset Bytes
  nameKey : Option Bytes

/-- How a write ends: nothing is written, or a later await fails, or all of it is done. -/
inductive Written (α : Type) where
  | refused (error : String)
  | unfinished (error : String)
  | done (answer : α)

/-- What the awaits of one run answer. -/
structure World where
  /-- `bind_session`. -/
  bindSession : Except String Unit
  sendClaim : Except String Unit
  /-- The frame that answers the claim. -/
  accept : Option Frame
  sendReveal : Except String Unit
  selfKey : Except String Bytes
  /-- What the two confirmations are waited for with. -/
  wakes : List Wake
  engine : Except String Unit
  initializePersonalization : Except String Unit
  initializeContacts : Except String Unit
  /-- `now_ms`. -/
  now : ℕ
  /-- `us_mutate`. -/
  addMember : Written Unit
  /-- `bincode::deserialize::<ContactCard>`, and its id. -/
  cardKey : Bytes → Except String Bytes
  /-- What follows the checks of the card: the operations and the keys. -/
  enrollKeyhive : Written (Bytes × Bytes)
  usSave : Except String Bytes
  saveVisor : Except String Bytes
  saveContacts : Except String Bytes
  sharedDocuments : Except String (List DocumentGrant)
  /-- `open_document`, with the storage after it. -/
  openDocument : DocumentGrant → Except String (SnapshotStorage Bytes)
  /-- `document_tree`. -/
  documentTree : Bytes → TreeId
  sendEnroll : Except String Unit
  checkpoint : Except String Unit

namespace World

variable (w : World)

/-- A frame that is not the one to come. -/
def refuseFrame {α : Type} : Option Frame → Except String α
  | some .cancel => .error cancelled
  | some _ => .error outOfOrder
  | none => .error gone

/-- What the joiner accepts with. -/
def readAccept (joinerKey : Bytes) : Option Frame → Except String (Bytes × String × Bytes)
  | some (.accept nonce key petname card) =>
    if key ≠ joinerKey then .error "that device answered for a different key"
    else if nonce.length ≠ 32 then .error malformedNonce
    else .ok (nonce, petname, card)
  | some .refused => .error "that code is spent or expired; ask that device for a new one"
  | frame => refuseFrame frame

/-- Both confirmations, in either order. Once it has come, the one here is not waited for. -/
def confirmBoth : (here there : Bool) → List Wake → Except String Unit
  | true, true, _ => .ok ()
  | _, _, [] => .error gone
  | _, there, .confirmed :: rest => confirmBoth true there rest
  | here, _, .frame (some .confirmJoin) :: rest => confirmBoth here true rest
  | _, _, .frame frame :: _ => refuseFrame frame

/-- `run_adder` up to the grant. -/
def exchange (joinerKey : Bytes) : Except String (String × Bytes) := do
  w.bindSession
  w.sendClaim
  let (_nonceJ, petname, card) ← readAccept joinerKey w.accept
  w.sendReveal
  let _adderKey ← w.selfKey
  confirmBoth false false w.wakes
  w.engine
  w.initializePersonalization
  w.initializeContacts
  return (petname, card)

/-- `document_inline_items`. -/
def documentInlineItems (grant : DocumentGrant) (budget : ℕ) :
    Except String (Option (List (StoreItem Bytes))) := do
  let storage ← w.openDocument grant
  storage.inlineItems (w.documentTree grant.partition) budget

/-- The loop over the shared documents. -/
def collectShared : List DocumentGrant →
    Except String (List (DocumentGrant × List (StoreItem Bytes)))
  | [] => .ok []
  | grant :: rest => do
    match ← w.documentInlineItems grant pairingSharedItemsBudget with
    | none => .error "shared documents exceed the pairing transfer bound"
    | some items =>
      let rest ← collectShared rest
      return (grant, items) :: rest

/-- What ENROLL carries, collected after the grant. -/
def collect (nameKey : Option Bytes) (keyhive readBack : Bytes) : Except String Enroll := do
  let us ← w.usSave
  let visor ← w.saveVisor
  let contacts ← w.saveContacts
  let grants ← w.sharedDocuments
  let shared ← w.collectShared grants
  match nameKey with
  | none => .error "this device has no group to enroll into"
  | some nameKey => return { us, keyhive, readBack, nameKey, visor, contacts, shared }

/-- `send_frame`, of the one frame that can be large. -/
def sendFrame (frame : Enroll) : Except String Unit :=
  if pairingFrameBudget < frame.encode.length then .error "the pairing frame exceeds 8 MiB"
  else w.sendEnroll

/-- `run_adder` after the grant. Any answer ends the wait for the receipt. -/
def conclude (nameKey : Option Bytes) (keyhive readBack : Bytes) : Except String Unit := do
  let frame ← w.collect nameKey keyhive readBack
  w.sendFrame frame
  w.checkpoint

end World

namespace Device

variable (w : World) (d : Device)

/-- `UsDoc::add_member`: a member that is there already is written over. -/
def enter (key : Bytes) (member : Member) : Device :=
  { d with us := Function.update d.us key (some member) }

/-- `Engine::add_member`. -/
def addMember (key : Bytes) (petname : String) (enrolled : ℕ) : Device × Except String Unit :=
  match w.addMember with
  | .refused e => (d, .error e)
  | .unfinished e => (d.enter key ⟨petname, enrolled⟩, .error e)
  | .done () => (d.enter key ⟨petname, enrolled⟩, .ok ())

/-- `Engine::enroll_keyhive`. The card has to be of the key that was authenticated. -/
def enrollKeyhive (card joinerKey : Bytes) : Device × Except String (Bytes × Bytes) :=
  match w.cardKey card with
  | .error e => (d, .error ("bad contact card: " ++ e))
  | .ok key =>
    if key ≠ joinerKey then (d, .error "that device's keyhive card is for a different key")
    else
      match w.enrollKeyhive with
      | .refused e => (d, .error e)
      | .unfinished e => ({ d with group := insert joinerKey d.group }, .error e)
      | .done answer => ({ d with group := insert joinerKey d.group }, .ok answer)

/-- `run_adder`. -/
def runAdder (joinerKey : Bytes) : Device × Except String Unit :=
  match w.exchange joinerKey with
  | .error e => (d, .error e)
  | .ok (petname, card) =>
    match d.addMember w joinerKey petname w.now with
    | (d, .error e) => (d, .error e)
    | (d, .ok ()) =>
      match d.enrollKeyhive w card joinerKey with
      | (d, .error e) => (d, .error e)
      | (d, .ok (keyhive, readBack)) => (d, w.conclude d.nameKey keyhive readBack)

end Device

/-! ## How long a frame is -/

/-- An array of bytes: their decimal digits, and one more byte for each. -/
def bytesSize (l : Bytes) : ℕ :=
  1 + max 1 (l.map fun byte => Json.digits byte + 1).sum

/-- An array, by the sizes of its values. -/
def arraySize (sizes : List ℕ) : ℕ :=
  1 + max 1 (sizes.map (· + 1)).sum

def itemSize (item : StoreItem Bytes) : ℕ :=
  47 + bytesSize (idBytes item.tree) + bytesSize (idBytes item.commit) + bytesSize item.signed +
    bytesSize item.blob + (kindName item.kind).toList.length

def DocumentGrant.size (grant : DocumentGrant) : ℕ :=
  99 + (Json.string grant.partition).length + bytesSize grant.document +
    bytesSize grant.recipientGroup + bytesSize grant.authority + bytesSize grant.frontier

def Enroll.size (frame : Enroll) : ℕ :=
  85 + bytesSize frame.us + bytesSize frame.keyhive + bytesSize frame.readBack +
    bytesSize frame.nameKey + bytesSize frame.visor + bytesSize frame.contacts +
    arraySize (frame.shared.map fun shared =>
      3 + shared.1.size + arraySize (shared.2.map itemSize))

theorem length_bytes (l : Bytes) : (Json.bytes l).length = bytesSize l :=
  Json.length_bytes l

theorem length_array {α : Type} {json : α → Bytes} {size : α → ℕ}
    (h : ∀ value, (json value).length = size value) (values : List α) :
    (Json.array (values.map json)).length = arraySize (values.map size) := by
  rw [Json.length_array, arraySize, List.map_map, List.map_map]
  simp only [Function.comp_def, h]

theorem length_itemJson (item : StoreItem Bytes) : (itemJson item).length = itemSize item := by
  have hkind : (Json.string (Json.text (kindName item.kind))).length =
      2 + (kindName item.kind).toList.length := by
    rcases item.kind <;> decide
  rw [itemJson, Json.length_object]
  simp only [List.map_cons, List.map_nil, List.sum_cons, List.sum_nil, length_bytes, hkind]
  show 1 + max 1 (4 + _ + 4 + (6 + _ + 4 + (6 + _ + 4 + (4 + _ + 4 + (4 + _ + 4 + 0))))) = _
  rw [itemSize]
  omega

theorem length_grantJson (grant : DocumentGrant) : grant.json.length = grant.size := by
  have haccess : (Json.string (Json.text (accessName grant.access))).length = 6 := by
    rcases grant.access <;> decide
  rw [DocumentGrant.json, Json.length_object]
  simp only [List.map_cons, List.map_nil, List.sum_cons, List.sum_nil, length_bytes, haccess,
    Json.length_object]
  show 1 + max 1 (8 + (1 + max 1 (9 + _ + 4 + (8 + _ + 4 + 0))) + 4 +
    (15 + _ + 4 + (6 + 6 + 4 + (9 + _ + 4 + (8 + _ + 4 + 0))))) = _
  rw [DocumentGrant.size]
  omega

theorem length_sharedJson (shared : DocumentGrant × List (StoreItem Bytes)) :
    (sharedJson shared).length = 3 + shared.1.size + arraySize (shared.2.map itemSize) := by
  rw [sharedJson, Json.length_array]
  simp only [List.map_cons, List.map_nil, List.sum_cons, List.sum_nil, length_grantJson,
    length_array length_itemJson]
  omega

theorem Enroll.length_encode (frame : Enroll) : frame.encode.length = frame.size := by
  rw [encode, Json.length_object]
  simp only [List.map_cons, List.map_nil, List.sum_cons, List.sum_nil, length_bytes,
    Json.length_object, length_array length_sharedJson]
  show 1 + max 1 (6 + (1 + max 1 (2 + _ + 4 + (7 + _ + 4 + (9 + _ + 4 + (8 + _ + 4 + (5 + _ + 4 +
    (8 + _ + 4 + (6 + _ + 4 + 0)))))))) + 4 + 0) = _
  rw [size]
  omega

/-- The frame carries the items of a document in at most four times what the item budget counts of
them. -/
theorem arraySize_items_le (s : SnapshotStorage Bytes) (t : TreeId) :
    arraySize ((s.storedItems t).map itemSize) ≤ 4 * s.inlineSize t := by
  have hid (id : Bytes32) : bytesSize (idBytes id) ≤ 130 := by
    have h := Json.length_bytes_le (idBytes id)
    rw [length_bytes, idBytes, BigEndian.length_toBytes] at h
    exact h
  have hitem (item : StoreItem Bytes) : itemSize item + 1 ≤ 4 * item.serializedSize := by
    have htree := hid item.tree
    have hcommit := hid item.commit
    have hsigned := Json.length_bytes_le item.signed
    have hblob := Json.length_bytes_le item.blob
    have hkind : (kindName item.kind).toList.length ≤ 8 := by
      rcases item.kind <;> decide
    rw [length_bytes] at hsigned hblob
    rw [itemSize, StoreItem.serializedSize]
    omega
  have hsum (items : List (StoreItem Bytes)) : ((items.map itemSize).map (· + 1)).sum ≤
      4 * (items.map StoreItem.serializedSize).sum := by
    induction items with
    | nil => exact Nat.le_refl _
    | cons item items ih =>
      have := hitem item
      simp only [List.map_cons, List.sum_cons]
      omega
  have := hsum (s.storedItems t)
  rw [arraySize, SnapshotStorage.inlineSize]
  omega

/-! ## The conditions -/

/-- The two devices have come to the grant. -/
structure World.Exchanged (w : World) (joinerKey : Bytes) (petname : String) (card : Bytes) :
    Prop where
  bindSession : w.bindSession = .ok ()
  sendClaim : w.sendClaim = .ok ()
  accept : ∃ nonce, w.accept = some (.accept nonce joinerKey petname card) ∧ nonce.length = 32
  sendReveal : w.sendReveal = .ok ()
  selfKey : ∃ key, w.selfKey = .ok key
  confirmed : World.confirmBoth false false w.wakes = .ok ()
  engine : w.engine = .ok ()
  initializePersonalization : w.initializePersonalization = .ok ()
  initializeContacts : w.initializeContacts = .ok ()

/-- A shared document is opened, and its items are within their budget. -/
def World.Inlined (w : World) (grant : DocumentGrant)
    (shared : DocumentGrant × List (StoreItem Bytes)) : Prop :=
  shared.1 = grant ∧ ∃ storage, w.openDocument grant = .ok storage ∧
    shared.2 = storage.storedItems (w.documentTree grant.partition) ∧
      storage.inlineSize (w.documentTree grant.partition) ≤ pairingSharedItemsBudget

/-- What the frame is made of is there. -/
structure World.Collected (w : World) (nameKey : Option Bytes) (keyhive readBack : Bytes)
    (frame : Enroll) : Prop where
  us : w.usSave = .ok frame.us
  keyhive : frame.keyhive = keyhive
  readBack : frame.readBack = readBack
  nameKey : nameKey = some frame.nameKey
  visor : w.saveVisor = .ok frame.visor
  contacts : w.saveContacts = .ok frame.contacts
  shared : ∃ grants, w.sharedDocuments = .ok grants ∧ List.Forall₂ w.Inlined grants frame.shared

/-- Nothing fails. -/
def World.Completes (w : World) (d : Device) (joinerKey : Bytes) : Prop :=
  (∃ petname card, w.Exchanged joinerKey petname card ∧ w.cardKey card = .ok joinerKey) ∧
    w.addMember = .done () ∧
      ∃ keyhive readBack frame, w.enrollKeyhive = .done (keyhive, readBack) ∧
        w.Collected d.nameKey keyhive readBack frame ∧ frame.size ≤ pairingFrameBudget ∧
          w.sendEnroll = .ok () ∧ w.checkpoint = .ok ()

/-- Something fails before the joiner is written into the group. -/
def World.FailsEarly (w : World) (joinerKey : Bytes) : Prop :=
  (∀ petname card, ¬ w.Exchanged joinerKey petname card) ∨ ∃ e, w.addMember = .refused e

/-- Neither half of the membership is there. -/
def Device.Absent (d : Device) (key : Bytes) : Prop :=
  d.us key = none ∧ key ∉ d.group

/-- A run that fails leaves no membership. -/
def Device.LeavesNothing (w : World) (d : Device) (joinerKey : Bytes) : Prop :=
  ∀ e, (d.runAdder w joinerKey).2 = .error e → (d.runAdder w joinerKey).1.Absent joinerKey

/-- What was collected within the item budget is within the bound of the wire. -/
def Device.FitsFrame (w : World) (d : Device) (keyhive readBack : Bytes) : Prop :=
  ∀ frame, w.collect d.nameKey keyhive readBack = .ok frame →
    frame.encode.length ≤ pairingFrameBudget

variable {w : World} {d : Device} {joinerKey : Bytes}

theorem readAccept_eq_ok {frame : Option Frame} {nonce : Bytes} {petname : String} {card : Bytes} :
    World.readAccept joinerKey frame = .ok (nonce, petname, card) ↔
      frame = some (.accept nonce joinerKey petname card) ∧ nonce.length = 32 := by
  unfold World.readAccept
  split
  · split_ifs with hkey hlength
    · refine iff_of_false (fun h => nomatch h) ?_
      rintro ⟨h, -⟩
      simp only [Option.some.injEq, Frame.accept.injEq] at h
      exact hkey h.2.1
    · refine iff_of_false (fun h => nomatch h) ?_
      rintro ⟨h, hnonce⟩
      simp only [Option.some.injEq, Frame.accept.injEq] at h
      exact hlength (h.1 ▸ hnonce)
    · rw [not_ne_iff] at hkey hlength
      simp only [Except.ok.injEq, Prod.mk.injEq, Option.some.injEq, Frame.accept.injEq]
      constructor
      · rintro ⟨rfl, rfl, rfl⟩
        exact ⟨⟨rfl, hkey, rfl, rfl⟩, hlength⟩
      · rintro ⟨⟨rfl, -, rfl, rfl⟩, -⟩
        exact ⟨rfl, rfl, rfl⟩
  · exact iff_of_false (fun h => nomatch h) fun h => nomatch h.1
  next frame haccept hrefused =>
    refine iff_of_false ?_ fun h => haccept _ _ _ _ h.1
    unfold World.refuseFrame
    split <;> exact fun h => nomatch h

theorem exchange_eq_ok {petname : String} {card : Bytes} :
    w.exchange joinerKey = .ok (petname, card) ↔ w.Exchanged joinerKey petname card := by
  simp only [World.exchange, except_bind_eq_ok]
  constructor
  · rintro ⟨_, hbind, _, hclaim, ⟨nonce, petname', card'⟩, haccept, _, hreveal, key, hkey, _,
      hconfirm, _, hengine, _, hvisor, _, hcontacts, h⟩
    obtain ⟨rfl, rfl⟩ := Prod.mk.inj (Except.ok.inj h)
    exact ⟨hbind, hclaim, ⟨nonce, readAccept_eq_ok.1 haccept⟩, hreveal, ⟨key, hkey⟩, hconfirm,
      hengine, hvisor, hcontacts⟩
  · rintro ⟨hbind, hclaim, ⟨nonce, haccept⟩, hreveal, ⟨key, hkey⟩, hconfirm, hengine, hvisor,
      hcontacts⟩
    exact ⟨(), hbind, (), hclaim, (nonce, petname, card), readAccept_eq_ok.2 haccept, (), hreveal,
      key, hkey, (), hconfirm, (), hengine, (), hvisor, (), hcontacts, rfl⟩

theorem documentInlineItems_eq_some {grant : DocumentGrant} {items : List (StoreItem Bytes)} :
    w.documentInlineItems grant pairingSharedItemsBudget = .ok (some items) ↔
      w.Inlined grant (grant, items) := by
  rw [World.documentInlineItems, except_bind_eq_ok, World.Inlined]
  have hinline (storage : SnapshotStorage Bytes) (t : TreeId) :
      storage.inlineItems t pairingSharedItemsBudget = .ok (some items) ↔
        items = storage.storedItems t ∧ storage.inlineSize t ≤ pairingSharedItemsBudget :=
    inlineItems_eq_some (by decide) (by decide)
  simp only [hinline, true_and]

theorem collectShared_eq_ok {grants : List DocumentGrant}
    {shared : List (DocumentGrant × List (StoreItem Bytes))} :
    w.collectShared grants = .ok shared ↔ List.Forall₂ w.Inlined grants shared := by
  induction grants generalizing shared with
  | nil =>
    rw [World.collectShared, List.forall₂_nil_left_iff]
    exact ⟨fun h => (Except.ok.inj h).symm, fun h => h ▸ rfl⟩
  | cons grant rest ih =>
    rw [World.collectShared, except_bind_eq_ok]
    constructor
    · rintro ⟨_ | items, hitems, h⟩
      · exact nomatch h
      obtain ⟨later, hlater, h⟩ := except_bind_eq_ok.1 h
      obtain rfl := Except.ok.inj h
      exact .cons (documentInlineItems_eq_some.1 hitems) (ih.1 hlater)
    · rintro (_ | ⟨hitems, hlater⟩)
      rename_i entry later
      obtain ⟨grant', items⟩ := entry
      obtain rfl : grant' = grant := hitems.1
      exact ⟨some items, documentInlineItems_eq_some.2 hitems,
        except_bind_eq_ok.2 ⟨later, ih.2 hlater, rfl⟩⟩

theorem collect_eq_ok {nameKey : Option Bytes} {keyhive readBack : Bytes} {frame : Enroll} :
    w.collect nameKey keyhive readBack = .ok frame ↔
      w.Collected nameKey keyhive readBack frame := by
  simp only [World.collect, except_bind_eq_ok, collectShared_eq_ok]
  constructor
  · rintro ⟨us, hus, visor, hvisor, contacts, hcontacts, grants, hgrants, shared, hshared, h⟩
    rcases nameKey with _ | nameKey
    · exact nomatch h
    obtain rfl := Except.ok.inj h
    exact ⟨hus, rfl, rfl, rfl, hvisor, hcontacts, grants, hgrants, hshared⟩
  · rintro ⟨hus, hkeyhive, hreadBack, hnameKey, hvisor, hcontacts, grants, hgrants, hshared⟩
    refine ⟨frame.us, hus, frame.visor, hvisor, frame.contacts, hcontacts, grants, hgrants,
      frame.shared, hshared, ?_⟩
    rw [hnameKey, ← hkeyhive, ← hreadBack]
    rfl

/-! ## The run -/

theorem conclude_eq_ok {nameKey : Option Bytes} {keyhive readBack : Bytes} :
    w.conclude nameKey keyhive readBack = .ok () ↔ ∃ frame,
      w.Collected nameKey keyhive readBack frame ∧ frame.size ≤ pairingFrameBudget ∧
        w.sendEnroll = .ok () ∧ w.checkpoint = .ok () := by
  simp only [World.conclude, except_bind_eq_ok, collect_eq_ok, World.sendFrame,
    Enroll.length_encode]
  constructor
  · rintro ⟨frame, hframe, _, hsend, hcheckpoint⟩
    split_ifs at hsend with hlarge
    exact ⟨frame, hframe, Nat.le_of_not_lt hlarge, hsend, hcheckpoint⟩
  · rintro ⟨frame, hframe, hsize, hsend, hcheckpoint⟩
    refine ⟨frame, hframe, (), ?_, hcheckpoint⟩
    rw [if_neg (Nat.not_lt_of_le hsize)]
    exact hsend

/-- Enrolling in the Keyhive group does not touch the `us` document. -/
theorem enrollKeyhive_us (w : World) (d : Device) (card joinerKey : Bytes) :
    (d.enrollKeyhive w card joinerKey).1.us = d.us ∧
      (d.enrollKeyhive w card joinerKey).1.nameKey = d.nameKey := by
  unfold Device.enrollKeyhive
  split
  · exact ⟨rfl, rfl⟩
  split_ifs
  · exact ⟨rfl, rfl⟩
  split
  all_goals exact ⟨rfl, rfl⟩

theorem enrollKeyhive_eq_ok (w : World) (d : Device) (card joinerKey keyhive readBack : Bytes) :
    (d.enrollKeyhive w card joinerKey).2 = .ok (keyhive, readBack) ↔
      w.cardKey card = .ok joinerKey ∧ w.enrollKeyhive = .done (keyhive, readBack) := by
  unfold Device.enrollKeyhive
  rcases w.cardKey card with e | key
  · exact iff_of_false (fun h => nomatch h) fun h => nomatch h.1
  dsimp only
  split_ifs with hkey
  · exact iff_of_false (fun h => nomatch h) fun h => hkey (Except.ok.inj h.1)
  rw [not_ne_iff] at hkey
  rcases w.enrollKeyhive with e | e | answer
  · exact iff_of_false (fun h => nomatch h) fun h => nomatch h.2
  · exact iff_of_false (fun h => nomatch h) fun h => nomatch h.2
  · constructor
    · intro h
      exact ⟨congrArg _ hkey, congrArg _ (Except.ok.inj h)⟩
    · rintro ⟨-, h⟩
      exact congrArg _ (Written.done.inj h)

/-- A run that has written the joiner into the `us` document keeps it there. -/
theorem us_of_written {petname : String} {card : Bytes}
    (hexchange : w.Exchanged joinerKey petname card) (hadd : ∀ e, w.addMember ≠ .refused e) :
    (d.runAdder w joinerKey).1.us joinerKey = some ⟨petname, w.now⟩ := by
  rw [Device.runAdder, exchange_eq_ok.2 hexchange]
  rcases hwrite : w.addMember with e | e | ⟨⟨⟩⟩
  · exact absurd hwrite (hadd e)
  · simp only [Device.addMember, hwrite]
    exact Function.update_self ..
  · simp only [Device.addMember, hwrite]
    have hus := (enrollKeyhive_us w (d.enter joinerKey ⟨petname, w.now⟩) card joinerKey).1
    have hentered : (d.enter joinerKey ⟨petname, w.now⟩).us joinerKey = some ⟨petname, w.now⟩ :=
      Function.update_self ..
    split
    next d' e hrun =>
      rw [hrun] at hus
      exact (congrFun hus joinerKey).trans hentered
    next d' keyhive readBack hrun =>
      rw [hrun] at hus
      exact (congrFun hus joinerKey).trans hentered

theorem runAdder_of_early (h : w.FailsEarly joinerKey) :
    ∃ e, d.runAdder w joinerKey = (d, .error e) := by
  rw [Device.runAdder]
  rcases hexchange : w.exchange joinerKey with e | ⟨petname, card⟩
  · exact ⟨e, rfl⟩
  rcases h with hnone | ⟨e, hrefused⟩
  · exact absurd (exchange_eq_ok.1 hexchange) (hnone petname card)
  · refine ⟨e, ?_⟩
    simp only [Device.addMember, hrefused]

theorem runAdder_eq_ok : (d.runAdder w joinerKey).2 = .ok () ↔ w.Completes d joinerKey := by
  rw [Device.runAdder]
  rcases hexchange : w.exchange joinerKey with e | ⟨petname, card⟩
  · refine iff_of_false (fun h => nomatch h) ?_
    rintro ⟨⟨petname, card, h, -⟩, -⟩
    exact nomatch hexchange.symm.trans (exchange_eq_ok.2 h)
  have honly {petname' card'} (h : w.Exchanged joinerKey petname' card') : card' = card :=
    congrArg Prod.snd (Except.ok.inj ((exchange_eq_ok.2 h).symm.trans hexchange))
  rcases hadd : w.addMember with e | e | ⟨⟨⟩⟩
  · simp only [Device.addMember, hadd]
    exact iff_of_false (fun h => nomatch h) fun h => nomatch hadd.symm.trans h.2.1
  · simp only [Device.addMember, hadd]
    exact iff_of_false (fun h => nomatch h) fun h => nomatch hadd.symm.trans h.2.1
  simp only [Device.addMember, hadd]
  have henroll := enrollKeyhive_eq_ok w (d.enter joinerKey ⟨petname, w.now⟩) card joinerKey
  have hname := (enrollKeyhive_us w (d.enter joinerKey ⟨petname, w.now⟩) card joinerKey).2
  split
  next d' e hrun =>
    refine iff_of_false (fun h => nomatch h) ?_
    rintro ⟨⟨petname', card', h, hcard⟩, -, keyhive, readBack, frame, hdone, -⟩
    rw [honly h] at hcard
    have := (henroll keyhive readBack).2 ⟨hcard, hdone⟩
    rw [hrun] at this
    exact nomatch this
  next d' keyhive readBack hrun =>
    obtain ⟨hcard, hdone⟩ := (henroll keyhive readBack).1 (by rw [hrun])
    rw [hrun] at hname
    have hkey : d'.nameKey = d.nameKey := hname
    rw [hkey, conclude_eq_ok]
    constructor
    · rintro ⟨frame, hframe⟩
      exact ⟨⟨petname, card, exchange_eq_ok.1 hexchange, hcard⟩, hadd, keyhive, readBack, frame,
        hdone, hframe⟩
    · rintro ⟨-, -, keyhive', readBack', frame, hdone', hframe⟩
      obtain ⟨rfl, rfl⟩ := Prod.mk.inj (Written.done.inj (hdone.symm.trans hdone'))
      exact ⟨frame, hframe⟩

/-- A run that fails leaves no membership exactly if nothing fails, or the failure comes before the
joiner is written into the group and it was no member already; and what is collected fits the wire
exactly if its bytes, written out in decimal, do. -/
theorem runAdder_error_iff (w : World) (d : Device) (joinerKey keyhive readBack : Bytes) :
    (d.LeavesNothing w joinerKey ↔
        w.Completes d joinerKey ∨ w.FailsEarly joinerKey ∧ d.Absent joinerKey) ∧
      (d.FitsFrame w keyhive readBack ↔ ∀ frame, w.Collected d.nameKey keyhive readBack frame →
        frame.size ≤ pairingFrameBudget) := by
  constructor
  · by_cases hearly : w.FailsEarly joinerKey
    · obtain ⟨e, hrun⟩ := runAdder_of_early (d := d) hearly
      have hincomplete : ¬ w.Completes d joinerKey := by
        rw [← runAdder_eq_ok, hrun]
        exact fun h => nomatch h
      rw [Device.LeavesNothing, hrun]
      constructor
      · exact fun h => .inr ⟨hearly, h e rfl⟩
      · rintro (h | ⟨-, habsent⟩)
        · exact absurd h hincomplete
        · exact fun _ _ => habsent
    · rw [World.FailsEarly, not_or] at hearly
      push Not at hearly
      obtain ⟨⟨petname, card, hexchange⟩, hadd⟩ := hearly
      have hmember := us_of_written (d := d) hexchange hadd
      rw [or_iff_left fun h => h.1.elim (fun hnone => hnone _ _ hexchange) fun ⟨e, he⟩ => hadd e he,
        ← runAdder_eq_ok, Device.LeavesNothing]
      rcases hanswer : (d.runAdder w joinerKey).2 with e | ⟨⟨⟩⟩
      · refine iff_of_false (fun h => ?_) fun h => nomatch h
        exact nomatch (h e rfl).1.symm.trans hmember
      · exact iff_of_true (fun e h => nomatch h) rfl
  · simp only [Device.FitsFrame, collect_eq_ok, Enroll.length_encode]

theorem bytesSize_replicate {n : ℕ} (h : 0 < n) (byte : UInt8) :
    bytesSize (List.replicate n byte) = 1 + n * (Json.digits byte + 1) := by
  have hsum : ((List.replicate n byte).map fun byte => Json.digits byte + 1).sum =
      n * (Json.digits byte + 1) := by
    rw [List.map_replicate, List.sum_replicate_nat]
  have hpos : n ≤ n * (Json.digits byte + 1) := Nat.le_mul_of_pos_right n (Nat.succ_pos _)
  rw [bytesSize, hsum]
  omega

/-- A key in every byte. -/
def sampleKey (byte : UInt8) : Bytes := List.replicate 32 byte

/-- A signed commit of 240 bytes, and its blob. -/
def sampleCommit (blob : Bytes) : Signed LooseCommit × Bytes :=
  (⟨0, List.replicate 240 255, some ⟨0, 0, [], ⟨0, blob.length⟩⟩⟩, blob)

/-- A document with one commit. -/
def oneCommit (blob : Bytes) : SnapshotStorage Bytes where
  trees := (∅ : Std.ExtTreeMap TreeId (Tree Bytes)).insert 0
    { commits := (∅ : Std.ExtTreeMap CommitId (Signed LooseCommit × Bytes)).insert 0
        (sampleCommit blob) }

theorem storedItems_oneCommit (blob : Bytes) :
    (oneCommit blob).storedItems 0 = [⟨0, 0, List.replicate 240 255, blob, .commit⟩] := by
  have htree : (oneCommit blob).tree 0 =
      { commits := (∅ : Std.ExtTreeMap CommitId (Signed LooseCommit × Bytes)).insert 0
          (sampleCommit blob) } := by
    rw [SnapshotStorage.tree, oneCommit, Std.ExtTreeMap.getD_insert_self]
  rw [SnapshotStorage.storedItems, htree]
  rfl

def sampleGrant : DocumentGrant where
  partition := Json.text "document/0"
  document := sampleKey 0
  recipientGroup := sampleKey 1
  access := .edit
  authority := [1]
  frontier := [1]

/-- A joiner that confirms, and whose card is cut short; and one shared document. -/
def cardlessWorld (blob : Bytes) : World where
  bindSession := .ok ()
  sendClaim := .ok ()
  accept := some (.accept (sampleKey 0) (sampleKey 7) "tablet" [1])
  sendReveal := .ok ()
  selfKey := .ok (sampleKey 8)
  wakes := [.confirmed, .frame (some .confirmJoin)]
  engine := .ok ()
  initializePersonalization := .ok ()
  initializeContacts := .ok ()
  now := 0
  addMember := .done ()
  cardKey _ := .error "io error: unexpected end of file"
  enrollKeyhive := .done ([1], [1])
  usSave := .ok [1]
  saveVisor := .ok [1]
  saveContacts := .ok [1]
  sharedDocuments := .ok [sampleGrant]
  openDocument _ := .ok (oneCommit blob)
  documentTree _ := 0
  sendEnroll := .ok ()
  checkpoint := .ok ()

def founder : Device where
  us _ := none
  group := ∅
  nameKey := some (sampleKey 0)

/-- A blob within the item budget whose bytes all have three digits makes the frame too long. -/
theorem not_fitsFrame {blob : Bytes} (hlength : blob.length = 2096820)
    (hsize : bytesSize blob = 8387281) : ¬ founder.FitsFrame (cardlessWorld blob) [1] [1] := by
  intro h
  have hitems : (oneCommit blob).inlineSize 0 ≤ pairingSharedItemsBudget := by
    rw [SnapshotStorage.inlineSize, storedItems_oneCommit]
    show 8 + (32 + 32 + (8 + (List.replicate 240 (255 : UInt8)).length) + (8 + blob.length) +
        4 + 0) ≤
      2 * 1024 * 1024
    rw [List.length_replicate]
    omega
  have hcollect : (cardlessWorld blob).Collected founder.nameKey [1] [1]
      ⟨[1], [1], [1], sampleKey 0, [1], [1], [(sampleGrant, (oneCommit blob).storedItems 0)]⟩ :=
    ⟨rfl, rfl, rfl, rfl, rfl, rfl, _, rfl, .cons ⟨rfl, _, rfl, rfl, hitems⟩ .nil⟩
  have hframe := h _ (collect_eq_ok.2 hcollect)
  have hid : bytesSize (idBytes 0) = 65 := by decide
  have hkey : bytesSize (sampleKey 0) = 65 := bytesSize_replicate (by decide) 0
  have hone : bytesSize [1] = 3 := rfl
  have hsigned : bytesSize (List.replicate 240 255) = 961 := bytesSize_replicate (by decide) 255
  have hgrant : sampleGrant.size = 247 := by decide +kernel
  have hkind : (kindName .commit).toList.length = 6 := by decide
  rw [Enroll.length_encode, Enroll.size, storedItems_oneCommit] at hframe
  simp only [List.map_cons, List.map_nil, arraySize, itemSize, hsize, hid, hkey, hone, hsigned,
    hgrant, hkind, List.sum_cons, List.sum_nil, pairingFrameBudget] at hframe
  omega

/-- A run fails over the joiner's card with the joiner in the group; and a frame whose one document
is within the item budget is longer than the wire takes. -/
theorem cardless_joiner_stays :
    ¬ founder.LeavesNothing (cardlessWorld []) (sampleKey 7) ∧
      ¬ founder.FitsFrame (cardlessWorld (List.replicate 2096820 255)) [1] [1] := by
  constructor
  · intro h
    have hexchange : (cardlessWorld []).Exchanged (sampleKey 7) "tablet" [1] :=
      ⟨rfl, rfl, ⟨_, rfl, rfl⟩, rfl, ⟨_, rfl⟩, rfl, rfl, rfl, rfl⟩
    have hmember := us_of_written (d := founder) hexchange fun e he => nomatch he
    exact nomatch (h _ rfl).1.symm.trans hmember
  · exact not_fitsFrame List.length_replicate (bytesSize_replicate (by decide) 255)

end Polyvisor.Adder
