import Mathlib.Logic.Function.Basic
import Polyvisor.Kernel.Invitations

/-!
# Granting a document

`sharing_confirm`, `sharing_retry` and the other calls of `kernel/src/sharing.rs` beside the
persists of the device. The calls take turns behind one lock. `sharing_confirm` grants in the
authority of the document and then, some turns later, writes the outgoing record into the visor
document; a persist copies both documents together, at any turn between two.

The visor document is what its records read back as. It is synced with the user's other devices.
So is the authority of a shared document: `grant_document` publishes the grant before it returns,
and `absorb` of `engine/src/lib.rs` takes it up again from whoever has it, whatever this device has
lost in the meantime.

## Main results

* `keeps_apply`: no call takes an outgoing record away.
* `inv_step`: what memory, disk and the persist under way hold around one share.
* `committed_grants_recorded`: in a run in which nothing is copied between a grant and its record,
  no share is given up there and no grant comes back without its record, every grant that a load
  restores has its record.
-/

namespace Polyvisor.Grants

open Contacts
open Invitations (ShareAccess ShareInboxRecord Wire)

/-! ## The visor document -/

/-- `SharePromptRecord`. -/
structure SharePromptRecord where
  id : Bytes
  partition : Bytes
  app : Bytes
  label : Bytes
  deriving DecidableEq

/-- `ShareOutgoingRecord`. -/
structure ShareOutgoingRecord where
  id : Bytes
  label : Bytes
  recipient : Bytes
  edit : Bool
  state : String
  detail : String
  endpoint : Bytes
  envelope : Bytes
  rebuildBody : Bytes
  recipientDevice : Bytes32
  deriving DecidableEq

/-- `ShareInstanceRecord`. -/
structure ShareInstanceRecord where
  partition : Bytes
  app : Bytes
  label : Bytes
  edit : Bool
  senderEndpoint : Bytes
  senderDevice : Bytes32
  deriving DecidableEq

/-- The records under the `share:` prefixes. -/
structure Visor where
  prompts : Bytes → Option SharePromptRecord := fun _ => none
  outgoing : Bytes → Option ShareOutgoingRecord := fun _ => none
  inbox : Bytes → Option ShareInboxRecord := fun _ => none
  instances : Bytes → Option ShareInstanceRecord := fun _ => none

namespace Visor

/-- `queue_share_prompt`. -/
def queueSharePrompt (v : Visor) (value : SharePromptRecord) : Visor :=
  { v with prompts := Function.update v.prompts value.id (some value) }

/-- `remove_share_prompt`. -/
def removeSharePrompt (v : Visor) (id : Bytes) : Visor :=
  { v with prompts := Function.update v.prompts id none }

/-- `finish_share_prompt`. -/
def finishSharePrompt (v : Visor) (id : Bytes) (value : ShareOutgoingRecord) :
    Except String Visor :=
  match v.prompts id with
  | none => .error "share prompt disappeared"
  | some prompt =>
    let value := { value with id, label := prompt.label }
    .ok ({ v with outgoing := Function.update v.outgoing id (some value) }.removeSharePrompt id)

/-- An outgoing record is read, changed and put back. -/
def updateOutgoing (v : Visor) (id : Bytes) (change : ShareOutgoingRecord → ShareOutgoingRecord) :
    Except String Visor :=
  match v.outgoing id with
  | none => .error "outgoing invitation disappeared"
  | some value => .ok { v with outgoing := Function.update v.outgoing id (some (change value)) }

/-- `set_share_delivery`. -/
def setShareDelivery (v : Visor) (id : Bytes) (delivered : Bool) : Except String Visor :=
  v.updateOutgoing id fun value =>
    { value with
      state := if delivered then "delivered" else "failed"
      detail := if delivered then "" else "the recipient did not checkpoint the invitation" }

/-- `set_share_delivery_detail`. -/
def setShareDeliveryDetail (v : Visor) (id : Bytes) (delivered : Bool) (detail : String) :
    Except String Visor :=
  v.updateOutgoing id fun value =>
    { value with state := if delivered then "delivered" else "failed", detail }

/-- `set_share_envelope`. -/
def setShareEnvelope (v : Visor) (id : Bytes) (envelope : Bytes) : Except String Visor :=
  v.updateOutgoing id fun value => { value with envelope, state := "queued", detail := "" }

/-- `receive_share_invitation`. -/
def receiveShareInvitation (v : Visor) (value : ShareInboxRecord) : Visor :=
  if (v.inbox value.id).isSome then v
  else { v with inbox := Function.update v.inbox value.id (some value) }

/-- `remove_share_invitation`. -/
def removeShareInvitation (v : Visor) (id : Bytes) : Visor :=
  { v with inbox := Function.update v.inbox id none }

/-- `adopt_share_invitation`. -/
def adoptShareInvitation (v : Visor) (id name partition app : Bytes) : Except String Visor :=
  match v.inbox id with
  | none => .error "invitation disappeared"
  | some inbox =>
    .ok { v with
      inbox := Function.update v.inbox id (some { inbox with adoptedInstance := some name })
      instances := Function.update v.instances name (some {
        partition, app
        label := inbox.label
        edit := inbox.edit
        senderEndpoint := inbox.senderEndpoint
        senderDevice := inbox.senderDevice }) }

end Visor

/-! ## A share -/

/-- What `bincode::serialize` writes of a frame or of a body: never nothing. -/
structure Encoded where
  bytes : Bytes
  nonempty : bytes ≠ []

/-- What a share takes from the contact it is for. -/
structure Recipient where
  name : Bytes
  root : Bytes32
  group : Bytes32
  device : Bytes32
  proof : Bytes
  endpoint : Bytes
  deriving DecidableEq

/-- The checks on the contact. `contact_display_name` is `displayName`. -/
def recipientOf (w : Wire) (displayName : Contact w.foreign → Bytes) (contact : Contact w.foreign) :
    Except Error Recipient :=
  match contact.retainedIdentity with
  | none => .error ⟨.refused, "that contact has no authenticated group authority"⟩
  | some retained =>
    match verifyRootBinding w.foreign retained.binding.bytes with
    | .error why => .error ⟨.refused, why⟩
    | .ok binding =>
      match retained.authorities.head? with
      | none => .error ⟨.refused, "that contact has no retained authority device"⟩
      | some authority => .ok {
          name := displayName contact
          root := retained.root
          group := binding.group
          device := authority.device
          proof := authority.keyhiveAuthorityProof
          endpoint := w.endpointId authority.device }

/-- A share that has read all it needs. -/
structure Share where
  prompt : Bytes
  partition : Bytes
  recipient : Recipient
  access : ShareAccess
  deriving DecidableEq

/-- The recipient's group has access to the document because of the share of a prompt. -/
structure Grant where
  prompt : Bytes
  partition : Bytes
  group : Bytes32
  device : Bytes32
  access : ShareAccess
  deriving DecidableEq

/-- What `grant_document` does for a share. -/
def Share.grant (share : Share) : Grant where
  prompt := share.prompt
  partition := share.partition
  group := share.recipient.group
  device := share.recipient.device
  access := share.access

/-- The record of a share, before `finish_share_prompt` fills in its id and its label. -/
def Share.outgoing (share : Share) (rebuildBody : Encoded) (built : Except Error Encoded) :
    ShareOutgoingRecord where
  id := []
  label := []
  recipient := share.recipient.name
  edit := share.access = .edit
  state := match built with
    | .ok _ => "queued"
    | .error _ => "failed"
  detail := match built with
    | .ok _ => ""
    | .error error =>
      "access was granted, but its invitation could not be prepared: " ++ error.message
  endpoint := share.recipient.endpoint
  envelope := match built with
    | .ok wire => wire.bytes
    | .error _ => []
  rebuildBody := rebuildBody.bytes
  recipientDevice := share.recipient.device

/-- What `sharing_confirm` is answered once it has granted: whether the identity is still the same,
at both places that ask, the body and the wire of the invitation, and `document_mutate`. -/
structure Answers where
  sameIdentity : Bool
  body : Except String Encoded
  built : Except Error Encoded
  mutation : Except String Unit
  sameIdentityInMutation : Bool

/-- `sharing_confirm`, from the grant to the record. -/
def Share.finish (share : Share) (answers : Answers) (v : Visor) : Except Error Visor := do
  check answers.sameIdentity
    (Error.mk .unavailable "the user identity changed during sharing confirmation")
  let rebuildBody ← answers.body.mapError (Error.mk .failed)
  answers.mutation.mapError (Error.mk .failed)
  check answers.sameIdentityInMutation
    (Error.mk .failed "the user identity changed during sharing confirmation")
  (v.finishSharePrompt share.prompt (share.outgoing rebuildBody answers.built)).mapError
    (Error.mk .failed)

/-! ## The other calls -/

/-- A change of the visor document. -/
inductive Update where
  /-- `tasks_share`. -/
  | queue (value : SharePromptRecord)
  /-- `sharing_cancel`. -/
  | cancel (id : Bytes)
  /-- `sharing_dismiss`. -/
  | dismiss (id : Bytes)
  /-- `receive_invitation`. -/
  | receive (value : ShareInboxRecord)
  /-- `sharing_adopt`. -/
  | adopt (id name partition app : Bytes)
  /-- The three changes of `sharing_retry`. -/
  | envelope (id : Bytes) (envelope : Encoded)
  | delivery (id : Bytes) (delivered : Bool)
  | failure (id : Bytes) (why : String)

def Update.apply (v : Visor) : Update → Except String Visor
  | .queue value => .ok (v.queueSharePrompt value)
  | .cancel id => .ok (v.removeSharePrompt id)
  | .dismiss id => .ok (v.removeShareInvitation id)
  | .receive value => .ok (v.receiveShareInvitation value)
  | .adopt id name partition app => v.adoptShareInvitation id name partition app
  | .envelope id wire => v.setShareEnvelope id wire.bytes
  | .delivery id delivered => v.setShareDelivery id delivered
  | .failure id why => v.setShareDeliveryDetail id false why

/-- What a call does while it holds the lock. -/
inductive Action where
  | update (update : Update)
  | persist

/-- What `sharing_retry` is answered: the body it decodes and the wire it builds of it, the identity
before and after the delivery, the endpoint, the key a connection authenticated, the delivery. -/
structure Attempt where
  decodes : Bool
  built : Except Error Encoded
  sameIdentity : Bool
  endpoint : Bool
  connected : Except String Bytes32
  delivery : Except String Unit
  sameIdentityAfter : Bool

/-- `record_delivery_failure`. -/
def recordDeliveryFailure (id : Bytes) (why : String) : List Action :=
  [.update (.failure id why), .persist]

/-- `sharing_retry`, from the check of the envelope on: what it does, and what it returns if all of
that succeeds. -/
def deliver (id : Bytes) (row : ShareOutgoingRecord) (a : Attempt) :
    List Action × Except Error Unit :=
  if Invitations.invitationBudget < row.envelope.length + 4 then
    ([], .error ⟨.refused, "stored invitation exceeds 512 KiB"⟩)
  else if row.envelope = [] then
    ([], .error ⟨.failed, "access was granted, but this invitation has no deliverable payload"⟩)
  else if ¬ a.sameIdentity then
    ([], .error ⟨.unavailable, "the user identity changed before invitation delivery"⟩)
  else if ¬ a.endpoint then
    (.persist :: recordDeliveryFailure id "this device has no network endpoint",
      .error ⟨.unavailable, "this device has no network endpoint"⟩)
  else
    match a.connected with
    | .error why => (.persist :: recordDeliveryFailure id why, .error ⟨.unavailable, why⟩)
    | .ok key =>
      let delivery :=
        if key ≠ row.recipientDevice then
          .error "the recipient endpoint authenticated as another device"
        else a.delivery
      if ¬ a.sameIdentityAfter then
        ([.persist],
          .error ⟨.unavailable, "the user identity changed during invitation delivery"⟩)
      else
        ([.persist, .update (.delivery id delivery.isOk), .persist],
          delivery.mapError (Error.mk .failed))

/-- `sharing_retry`. -/
def retry (v : Visor) (id : Bytes) (a : Attempt) : List Action × Except Error Unit :=
  match v.outgoing id with
  | none => ([], .error ⟨.notFound, "no such outgoing invitation"⟩)
  | some row =>
    if row.envelope = [] ∧ row.rebuildBody ≠ [] then
      if ¬ a.decodes then ([], .error ⟨.failed, "stored invitation input is malformed"⟩)
      else
        match a.built with
        | .error error => (recordDeliveryFailure id error.message, .error error)
        | .ok envelope =>
          let (actions, result) := deliver id { row with envelope := envelope.bytes } a
          (.update (.envelope id envelope) :: .persist :: actions, result)
    else deliver id row a

/-! ## The device -/

/-- What a persist commits: what the authority grants because of this device's shares, and the
visor document. -/
structure Store where
  grants : List Grant := []
  visor : Visor := {}

/-- Where the call that holds the lock stands. -/
inductive Stage where
  | idle
  /-- `sharing_confirm` has found no outgoing record, and reads on. -/
  | confirming (prompt : Bytes)
  /-- It has read all it needs. -/
  | granting (share : Share)
  /-- The grant stands. -/
  | granted (share : Share)
  /-- What a call still has to do. -/
  | doing (todo : List Action)

/-- Whose persist it is. -/
inductive Owner where
  | call
  | other
  deriving DecidableEq

/-- The persist under way, and what it copied. -/
structure Writer where
  owner : Owner
  snapshot : Store

structure Device where
  memory : Store
  committed : Store
  writer : Option Writer := none
  stage : Stage := .idle
  /-- The grants that the authority trees of other devices may have. No crash takes them back. -/
  published : List Grant := []

/-- A device that has loaded what it had committed. -/
def Device.load (store : Store) (published : List Grant) : Device where
  memory := store
  committed := store
  published := published

/-- How a persist ends. A failed one may still have moved the pointer. -/
inductive Outcome where
  | ok
  | failed (landed : Bool)
  deriving DecidableEq

/-- Whether the pointer was moved. -/
def Outcome.landed : Outcome → Bool
  | .ok => true
  | .failed landed => landed

/-- How `grant_document` ends: before the authority has changed, after it, or well. -/
inductive GrantOutcome where
  | refused (why : String)
  | failed (why : String)
  | ok
  deriving DecidableEq

inductive Label (w : Wire) where
  /-- `sharing_confirm` gets the lock. -/
  | confirm (prompt : Bytes)
  /-- It reads the contact, what goes into the invitation, and the prompt. -/
  | read (contact : Except Error (Contact w.foreign)) (access : ShareAccess)
    (sender : Except Error Unit)
  | grant (outcome : GrantOutcome)
  | record (answers : Answers)
  /-- `sharing_retry` gets the lock. -/
  | retry (id : Bytes) (attempt : Attempt)
  /-- `sharing_cancel`, `sharing_dismiss` or `sharing_adopt` gets the lock. -/
  | call (update : Update)
  /-- The call that holds the lock changes the visor document. -/
  | act
  /-- A call without the lock does. -/
  | update (update : Update)
  /-- Changes of the user's other devices arrive. -/
  | merge (visor : Visor)
  /-- An item of a document's authority tree arrives, and `absorb` ingests it. -/
  | absorb (grant : Grant)
  /-- A persist prepares what it writes. -/
  | prepare (owner : Owner)
  | finish (outcome : Outcome)
  /-- The device stops and is loaded again. -/
  | crash

namespace Device

/-- A call with the lock goes on. -/
def begin (d : Device) (todo : List Action) : Device :=
  { d with stage := .doing todo }

def confirm (d : Device) (prompt : Bytes) : Device :=
  match d.stage with
  | .idle =>
    if (d.memory.visor.outgoing prompt).isSome then d.begin [.persist]
    else { d with stage := .confirming prompt }
  | _ => d

/-- What `sharing_confirm` reads before it grants. -/
def reads (w : Wire) (displayName : Contact w.foreign → Bytes) (v : Visor) (prompt : Bytes)
    (contact : Except Error (Contact w.foreign)) (access : ShareAccess)
    (sender : Except Error Unit) : Except Error Share := do
  let recipient ← recipientOf w displayName (← contact)
  match v.prompts prompt with
  | none => .error ⟨.notFound, "that share prompt no longer exists"⟩
  | some found =>
    sender
    return { prompt, partition := found.partition, recipient, access }

def read (w : Wire) (displayName : Contact w.foreign → Bytes) (d : Device)
    (contact : Except Error (Contact w.foreign)) (access : ShareAccess)
    (sender : Except Error Unit) : Device :=
  match d.stage with
  | .confirming prompt =>
    match reads w displayName d.memory.visor prompt contact access sender with
    | .ok share => { d with stage := .granting share }
    | .error _ => { d with stage := .idle }
  | _ => d

def grant (d : Device) (outcome : GrantOutcome) : Device :=
  match d.stage with
  | .granting share =>
    let granted := { d with
      memory := { d.memory with grants := share.grant :: d.memory.grants }
      published := share.grant :: d.published }
    match outcome with
    | .refused _ => { d with stage := .idle }
    -- the authority has changed, and the call returns without its record
    | .failed _ => { granted with stage := .idle }
    | .ok => { granted with stage := .granted share }
  | _ => d

def record (d : Device) (answers : Answers) : Device :=
  match d.stage with
  | .granted share =>
    match share.finish answers d.memory.visor with
    | .ok visor => { d with memory := { d.memory with visor }, stage := .doing [.persist] }
    | .error _ => { d with stage := .idle }
  | _ => d

/-- A change of the visor document, by the call that goes on to `todo` if it succeeds. -/
def change (d : Device) (update : Update) (todo : List Action) : Device :=
  match update.apply d.memory.visor with
  | .ok visor => { d with memory := { d.memory with visor }, stage := .doing todo }
  | .error _ => { d with stage := .idle }

def act (d : Device) : Device :=
  match d.stage with
  | .doing (.update update :: todo) => d.change update todo
  | .doing [] => { d with stage := .idle }
  | _ => d

/-- A call gets the lock if it is free. -/
def enter (d : Device) (todo : List Action) : Device :=
  match d.stage with
  | .idle => d.begin todo
  | _ => d

def update (d : Device) (update : Update) : Device :=
  match update.apply d.memory.visor with
  | .ok visor => { d with memory := { d.memory with visor } }
  | .error _ => d

def absorb (d : Device) (grant : Grant) : Device :=
  if grant ∈ d.published ∧ grant ∉ d.memory.grants then
    { d with memory := { d.memory with grants := grant :: d.memory.grants } }
  else d

/-- The call waits for a persist of its own. -/
def Waits (d : Device) : Prop :=
  match d.stage with
  | .doing (.persist :: _) => True
  | _ => False

instance (d : Device) : Decidable d.Waits := by
  unfold Waits
  split <;> infer_instance

def prepare (d : Device) (owner : Owner) : Device :=
  if d.writer.isNone ∧ (owner = .call → d.Waits) then
    { d with writer := some { owner, snapshot := d.memory } }
  else d

/-- Where the call stands once its persist has ended. -/
def answered (d : Device) (outcome : Outcome) : Stage :=
  match d.stage, outcome with
  | .doing (.persist :: todo), .ok => .doing todo
  | .doing (.persist :: _), .failed _ => .idle
  | stage, _ => stage

def finish (d : Device) (outcome : Outcome) : Device :=
  match d.writer with
  | none => d
  | some writer =>
    { d with
      committed := if outcome.landed then writer.snapshot else d.committed
      writer := none
      stage := if writer.owner = .call then d.answered outcome else d.stage }

variable (w : Wire) (displayName : Contact w.foreign → Bytes)

def step (d : Device) : Label w → Device
  | .confirm prompt => d.confirm prompt
  | .read contact access sender => d.read w displayName contact access sender
  | .grant outcome => d.grant outcome
  | .record answers => d.record answers
  | .retry id attempt => d.enter (retry d.memory.visor id attempt).1
  | .call update => d.enter [.update update, .persist]
  | .act => d.act
  | .update update => d.update update
  | .merge visor => { d with memory := { d.memory with visor } }
  | .absorb grant => d.absorb grant
  | .prepare owner => d.prepare owner
  | .finish outcome => d.finish outcome
  | .crash => .load d.committed d.published

end Device

/-! ## Outgoing records stay -/

/-- `found` is the record of the same share. -/
structure ShareOutgoingRecord.Same (value found : ShareOutgoingRecord) : Prop where
  id : found.id = value.id
  edit : found.edit = value.edit
  rebuildBody : found.rebuildBody = value.rebuildBody
  recipientDevice : found.recipientDevice = value.recipientDevice

theorem ShareOutgoingRecord.Same.refl (value : ShareOutgoingRecord) : value.Same value :=
  ⟨rfl, rfl, rfl, rfl⟩

/-- Where `v` has an outgoing record, `v'` has one of the same share. -/
def Keeps (v v' : Visor) : Prop :=
  ∀ id value, v.outgoing id = some value → ∃ found, v'.outgoing id = some found ∧ value.Same found

theorem keeps_of_outgoing_eq {v v' : Visor} (h : v'.outgoing = v.outgoing) : Keeps v v' :=
  fun _ value hvalue => ⟨value, h ▸ hvalue, .refl value⟩

theorem keeps_updateOutgoing {v v' : Visor} {id : Bytes}
    {change : ShareOutgoingRecord → ShareOutgoingRecord}
    (h : v.updateOutgoing id change = .ok v')
    (hsame : ∀ value : ShareOutgoingRecord, value.Same (change value)) : Keeps v v' := by
  rw [Visor.updateOutgoing] at h
  rcases hfound : v.outgoing id with _ | value <;> simp only [hfound] at h
  · exact nomatch h
  obtain rfl := Except.ok.inj h
  intro other held hheld
  show ∃ found, Function.update v.outgoing id (some (change value)) other = some found ∧ _
  by_cases hother : other = id
  · -- the record that was changed
    subst hother
    obtain rfl := Option.some.inj (hfound.symm.trans hheld)
    exact ⟨_, Function.update_self .., hsame value⟩
  · exact ⟨held, by rw [Function.update_of_ne hother]; exact hheld, .refl held⟩

/-- No call takes an outgoing record away, or makes it the record of another share. -/
theorem keeps_apply {v v' : Visor} {update : Update} (h : update.apply v = .ok v') :
    Keeps v v' := by
  rcases update with value | id | id | value | ⟨id, name, partition, app⟩ | ⟨id, wire⟩ |
      ⟨id, delivered⟩ | ⟨id, why⟩ <;>
    simp only [Update.apply, Visor.setShareEnvelope, Visor.setShareDelivery,
      Visor.setShareDeliveryDetail] at h
  · obtain rfl := Except.ok.inj h
    exact keeps_of_outgoing_eq rfl
  · obtain rfl := Except.ok.inj h
    exact keeps_of_outgoing_eq rfl
  · obtain rfl := Except.ok.inj h
    exact keeps_of_outgoing_eq rfl
  · obtain rfl := Except.ok.inj h
    apply keeps_of_outgoing_eq
    rw [Visor.receiveShareInvitation]
    split <;> rfl
  · rw [Visor.adoptShareInvitation] at h
    split at h
    · exact nomatch h
    · obtain rfl := Except.ok.inj h
      exact keeps_of_outgoing_eq rfl
  · exact keeps_updateOutgoing h fun _ => ⟨rfl, rfl, rfl, rfl⟩
  · exact keeps_updateOutgoing h fun _ => ⟨rfl, rfl, rfl, rfl⟩
  · exact keeps_updateOutgoing h fun _ => ⟨rfl, rfl, rfl, rfl⟩

/-! ## Grants and their records -/

/-- The visor document holds the outgoing record of the share that made the grant, with what a retry
needs to build its invitation again. -/
def Grant.Recorded (grant : Grant) (v : Visor) : Prop :=
  ∃ value, v.outgoing grant.prompt = some value ∧ value.id = grant.prompt ∧
    value.recipientDevice = grant.device ∧ value.edit = decide (grant.access = .edit) ∧
    value.rebuildBody ≠ []

/-- Every grant of this device's shares has its outgoing record. -/
def Store.Traced (store : Store) : Prop :=
  ∀ grant ∈ store.grants, grant.Recorded store.visor

theorem Grant.Recorded.mono {grant : Grant} {v v' : Visor} (h : grant.Recorded v)
    (hkeeps : Keeps v v') : grant.Recorded v' := by
  obtain ⟨value, hvalue, hid, hdevice, hedit, hbody⟩ := h
  obtain ⟨found, hfound, hsame⟩ := hkeeps _ value hvalue
  exact ⟨found, hfound, hsame.id.trans hid, hsame.recipientDevice.trans hdevice,
    hsame.edit.trans hedit, hsame.rebuildBody ▸ hbody⟩

/-- What `deliver` leaves in the visor document, once it is past its checks. -/
theorem report_mem_deliver (id : Bytes) (row : ShareOutgoingRecord) {a : Attempt}
    (hbudget : row.envelope.length + 4 ≤ Invitations.invitationBudget) (hrow : row.envelope ≠ [])
    (hsame : a.sameIdentity) (hafter : a.sameIdentityAfter) :
    (∃ delivered, Action.update (.delivery id delivered) ∈ (deliver id row a).1) ∨
      ∃ why, Action.update (.failure id why) ∈ (deliver id row a).1 := by
  rw [deliver, if_neg (by omega), if_neg hrow, if_neg (not_not.2 hsame)]
  split
  · exact .inr ⟨_, .tail _ (.head _)⟩
  · split
    · exact .inr ⟨_, .tail _ (.head _)⟩
    · exact .inl ⟨_, .tail _ (.head _)⟩

/-- A retry of a recorded grant delivers its invitation or reports that it failed. -/
theorem report_mem_retry {grant : Grant} {v : Visor} {a : Attempt} (h : grant.Recorded v)
    (hstored : ∀ value, v.outgoing grant.prompt = some value →
      value.envelope.length + 4 ≤ Invitations.invitationBudget)
    (hbuilt : ∀ wire, a.built = .ok wire → wire.bytes.length + 4 ≤ Invitations.invitationBudget)
    (hdecodes : a.decodes) (hsame : a.sameIdentity) (hafter : a.sameIdentityAfter) :
    (∃ delivered, Action.update (.delivery grant.prompt delivered) ∈ (retry v grant.prompt a).1) ∨
      ∃ why, Action.update (.failure grant.prompt why) ∈ (retry v grant.prompt a).1 := by
  obtain ⟨value, hvalue, -, -, -, hbody⟩ := h
  simp only [retry, hvalue]
  by_cases hempty : value.envelope = []
  · rw [if_pos ⟨hempty, hbody⟩, if_neg (not_not.2 hdecodes)]
    rcases hwire : a.built with error | wire <;> dsimp only
    · exact .inr ⟨error.message, by simp [recordDeliveryFailure]⟩
    · -- the wire is built again, and is sent as the stored one would be
      have hreport := report_mem_deliver grant.prompt { value with envelope := wire.bytes }
        (hbuilt wire hwire) wire.nonempty hsame hafter
      refine hreport.imp ?_ ?_
      · rintro ⟨delivered, hmem⟩
        exact ⟨delivered, .tail _ (.tail _ hmem)⟩
      · rintro ⟨why, hmem⟩
        exact ⟨why, .tail _ (.tail _ hmem)⟩
  · rw [if_neg (fun h => hempty h.1)]
    exact report_mem_deliver _ value (hstored value hvalue) hempty hsame hafter

/-! ## Around one share -/

/-- The prompt a share is for, while it has the lock. -/
def Stage.prompt? : Stage → Option Bytes
  | .confirming prompt => some prompt
  | .granting share | .granted share => some share.prompt
  | .idle | .doing _ => none

/-- The grant stands, and its record is still to be written. -/
def Stage.Owes (stage : Stage) (grant : Grant) : Prop :=
  ∃ share, stage = .granted share ∧ grant = share.grant

structure Inv (d : Device) : Prop where
  /-- Only the share that has the lock may still owe a record. -/
  memory : ∀ grant ∈ d.memory.grants, grant.Recorded d.memory.visor ∨ d.stage.Owes grant
  /-- The prompt of that share has no other grant. -/
  fresh : ∀ prompt ∈ d.stage.prompt?, ∀ grant ∈ d.memory.grants, grant.prompt = prompt →
    d.stage.Owes grant
  committed : d.committed.Traced
  writer : ∀ writer ∈ d.writer, writer.snapshot.Traced

theorem inv_load {store : Store} (h : store.Traced) (published : List Grant) :
    Inv (.load store published) where
  memory grant hgrant := .inl (h grant hgrant)
  fresh _ hprompt := nomatch hprompt
  committed := h
  writer _ hwriter := nomatch hwriter

variable {d : Device} {w : Wire} {displayName : Contact w.foreign → Bytes}

/-- Nobody owes a record: what is in memory may be copied. -/
theorem Inv.traced (h : Inv d) (hnone : ∀ share, d.stage ≠ .granted share) : d.memory.Traced := by
  intro grant hgrant
  rcases h.memory grant hgrant with hrecorded | ⟨share, hshare, -⟩
  · exact hrecorded
  · exact absurd hshare (hnone share)

/-- A change of the visor document that keeps the outgoing records. -/
theorem inv_visor (h : Inv d) {visor : Visor} (hkeeps : Keeps d.memory.visor visor) :
    Inv { d with memory := { d.memory with visor } } where
  memory grant hgrant := (h.memory grant hgrant).imp_left fun hrecorded => hrecorded.mono hkeeps
  fresh := h.fresh
  committed := h.committed
  writer := h.writer

/-- The call goes on to a stage without a prompt, or lets the lock go. -/
theorem inv_stage (h : Inv d) (hnone : ∀ share, d.stage ≠ .granted share) {stage : Stage}
    (hstage : stage.prompt? = none) : Inv { d with stage } where
  memory grant hgrant := .inl (h.traced hnone grant hgrant)
  fresh prompt hprompt := by
    rw [show ({ d with stage } : Device).stage.prompt? = none from hstage] at hprompt
    exact nomatch hprompt
  committed := h.committed
  writer := h.writer

/-! ## Steps -/

/-- Nothing between the grant of a share and its record goes wrong. -/
structure Share.Finishes (share : Share) (answers : Answers) (v : Visor) : Prop where
  sameIdentity : answers.sameIdentity
  body : answers.body.isOk
  mutation : answers.mutation.isOk
  sameIdentityInMutation : answers.sameIdentityInMutation
  prompt : (v.prompts share.prompt).isSome

/-- What a share that finishes leaves in the visor document. -/
theorem Share.Finishes.finish_eq {share : Share} {answers : Answers} {v : Visor}
    (h : share.Finishes answers v) :
    ∃ (body : Encoded) (prompt : SharePromptRecord), share.finish answers v = .ok ({ v with
      outgoing := Function.update v.outgoing share.prompt (some
        { share.outgoing body answers.built with
          id := share.prompt, label := prompt.label }) }.removeSharePrompt share.prompt) := by
  rcases hbody : answers.body with _ | body
  · exact absurd h.body (by simp [hbody, Except.isOk, Except.toBool])
  rcases hmutation : answers.mutation with _ | _
  · exact absurd h.mutation (by simp [hmutation, Except.isOk, Except.toBool])
  obtain ⟨prompt, hprompt⟩ := Option.isSome_iff_exists.1 h.prompt
  refine ⟨body, prompt, ?_⟩
  simp only [Share.finish, check, h.sameIdentity, h.sameIdentityInMutation, hbody, hmutation,
    Visor.finishSharePrompt, hprompt]
  rfl

/-- The step copies nothing between a grant and its record, gives up no share there, and no other
device of the user takes an outgoing record away. A grant comes back where its record is. -/
def Device.Undivided (d : Device) : Label w → Prop
  | .grant (.failed _) => ∀ share, d.stage ≠ .granting share
  | .record answers => ∀ share, d.stage = .granted share → share.Finishes answers d.memory.visor
  | .merge visor => Keeps d.memory.visor visor
  | .absorb grant => grant ∈ d.published → grant ∉ d.memory.grants →
    grant.Recorded d.memory.visor ∧ grant.prompt ∉ d.stage.prompt?
  | .prepare _ => ∀ share, d.stage ≠ .granted share
  | _ => True

theorem inv_confirm (h : Inv d) (prompt : Bytes) : Inv (d.confirm prompt) := by
  rw [Device.confirm]
  split
  · next hidle =>
    have hnone : ∀ share, d.stage ≠ .granted share := by simp [hidle]
    split
    · exact inv_stage h hnone rfl
    · next hfree =>
      -- without an outgoing record the prompt has no grant: memory is traced
      refine ⟨fun grant hgrant => .inl (h.traced hnone grant hgrant), ?_, h.committed, h.writer⟩
      intro other hother grant hgrant hprompt
      obtain rfl := Option.some.inj hother
      obtain ⟨value, hvalue, -⟩ := h.traced hnone grant hgrant
      rw [hprompt] at hvalue
      exact absurd (Option.isSome_iff_exists.2 ⟨value, hvalue⟩) hfree
  · exact h

theorem prompt_of_reads {v : Visor} {prompt : Bytes} {contact : Except Error (Contact w.foreign)}
    {access : ShareAccess} {sender : Except Error Unit} {share : Share}
    (h : Device.reads w displayName v prompt contact access sender = .ok share) :
    share.prompt = prompt := by
  obtain ⟨found, -, h⟩ := of_bind h
  obtain ⟨recipient, -, h⟩ := of_bind h
  split at h
  · exact nomatch h
  · obtain ⟨-, -, h⟩ := of_bind h
    obtain rfl := Except.ok.inj h
    rfl

theorem inv_read (h : Inv d) (contact : Except Error (Contact w.foreign)) (access : ShareAccess)
    (sender : Except Error Unit) : Inv (d.read w displayName contact access sender) := by
  rw [Device.read]
  split
  · next prompt hstage =>
    have hnone : ∀ share, d.stage ≠ .granted share := by simp [hstage]
    split
    · next share hshare =>
      refine ⟨fun grant hgrant => .inl (h.traced hnone grant hgrant), ?_, h.committed, h.writer⟩
      intro other hother grant hgrant hprompt
      obtain rfl := Option.some.inj hother
      -- the share is for the prompt that was free
      rw [prompt_of_reads hshare] at hprompt
      obtain ⟨held, hheld, -⟩ := h.fresh prompt (by rw [hstage]; rfl) grant hgrant hprompt
      exact absurd hheld (hnone held)
    · exact inv_stage h hnone rfl
  · exact h

theorem inv_grant (h : Inv d) {outcome : GrantOutcome}
    (hundivided : d.Undivided (w := w) (.grant outcome)) : Inv (d.grant outcome) := by
  rw [Device.grant]
  split
  · next share hstage =>
    have hnone : ∀ held, d.stage ≠ .granted held := by simp [hstage]
    rcases outcome with why | why | _
    · exact inv_stage h hnone rfl
    · exact absurd hstage (hundivided share)
    · refine ⟨fun grant hgrant => ?_, ?_, h.committed, h.writer⟩
      · rcases List.mem_cons.1 hgrant with rfl | hbefore
        · exact .inr ⟨share, rfl, rfl⟩
        · exact .inl (h.traced hnone grant hbefore)
      · intro prompt hprompt grant hgrant heq
        obtain rfl := Option.some.inj hprompt
        rcases List.mem_cons.1 hgrant with rfl | hbefore
        · exact ⟨share, rfl, rfl⟩
        · obtain ⟨held, hheld, -⟩ := h.fresh _ (by rw [hstage]; rfl) grant hbefore heq
          exact absurd hheld (hnone held)
  · exact h

theorem inv_record (h : Inv d) {answers : Answers}
    (hundivided : d.Undivided (w := w) (.record answers)) : Inv (d.record answers) := by
  rw [Device.record]
  split
  · next share hstage =>
    obtain ⟨body, prompt, hfinish⟩ := (hundivided share hstage).finish_eq
    rw [hfinish]
    refine ⟨fun grant hgrant => .inl ?_, (fun _ hprompt => nomatch hprompt), h.committed,
      h.writer⟩
    by_cases hprompt : grant.prompt = share.prompt
    · -- the grant of this share: its record was just written
      obtain ⟨held, hheld, rfl⟩ := h.fresh _ (by rw [hstage]; rfl) grant hgrant hprompt
      obtain rfl := Stage.granted.inj (hstage.symm.trans hheld)
      exact ⟨_, Function.update_self .., rfl, rfl, rfl, body.nonempty⟩
    · rcases h.memory grant hgrant with ⟨value, hvalue, hrest⟩ | ⟨held, hheld, rfl⟩
      · refine ⟨value, ?_, hrest⟩
        exact (Function.update_of_ne hprompt ..).trans hvalue
      · obtain rfl := Stage.granted.inj (hstage.symm.trans hheld)
        exact absurd rfl hprompt
  · exact h

theorem inv_change (h : Inv d) (hnone : ∀ share, d.stage ≠ .granted share) (update : Update)
    (todo : List Action) : Inv (d.change update todo) := by
  rw [Device.change]
  split
  · next visor happly =>
    exact inv_stage (inv_visor h (keeps_apply happly)) hnone rfl
  · exact inv_stage h hnone rfl

theorem inv_act (h : Inv d) : Inv d.act := by
  rw [Device.act]
  split
  · next update todo hstage => exact inv_change h (by simp [hstage]) update todo
  · next hstage => exact inv_stage h (by simp [hstage]) rfl
  · exact h

theorem inv_enter (h : Inv d) (todo : List Action) : Inv (d.enter todo) := by
  rw [Device.enter]
  split
  · next hidle => exact inv_stage h (by simp [hidle]) rfl
  · exact h

theorem inv_update (h : Inv d) (update : Update) : Inv (d.update update) := by
  rw [Device.update]
  split
  · next visor happly => exact inv_visor h (keeps_apply happly)
  · exact h

theorem inv_absorb (h : Inv d) {grant : Grant}
    (hundivided : d.Undivided (w := w) (.absorb grant)) : Inv (d.absorb grant) := by
  rw [Device.absorb]
  split
  · next hback =>
    obtain ⟨hrecorded, hfree⟩ := hundivided hback.1 hback.2
    refine ⟨fun other hother => ?_, fun prompt hprompt other hother heq => ?_, h.committed,
      h.writer⟩
    · rcases List.mem_cons.1 hother with rfl | hother
      · exact .inl hrecorded
      · exact h.memory other hother
    · rcases List.mem_cons.1 hother with rfl | hother
      · exact absurd (heq ▸ hprompt) hfree
      · exact h.fresh prompt hprompt other hother heq
  · exact h

theorem inv_prepare (h : Inv d) {owner : Owner}
    (hundivided : d.Undivided (w := w) (.prepare owner)) : Inv (d.prepare owner) := by
  rw [Device.prepare]
  split
  · refine ⟨h.memory, h.fresh, h.committed, fun writer hwriter => ?_⟩
    obtain rfl := Option.mem_some.1 hwriter
    exact h.traced hundivided
  · exact h

/-- The answer of a persist takes a call from its wait to what it does next. -/
theorem inv_answered (h : Inv d) (outcome : Outcome) :
    Inv { d with stage := d.answered outcome } := by
  unfold Device.answered
  split
  · next hstage => exact inv_stage h (by simp [hstage]) rfl
  · next hstage => exact inv_stage h (by simp [hstage]) rfl
  · exact h

theorem inv_finish (h : Inv d) (outcome : Outcome) : Inv (d.finish outcome) := by
  rw [Device.finish]
  split
  · exact h
  · next writer hwriter =>
    have hcommitted : (if outcome.landed then writer.snapshot else d.committed).Traced := by
      split
      · exact h.writer writer hwriter
      · exact h.committed
    have hended : Inv { d with
        committed := if outcome.landed then writer.snapshot else d.committed
        writer := none } :=
      ⟨h.memory, h.fresh, hcommitted, fun _ hnone => nomatch hnone⟩
    by_cases hcall : writer.owner = .call
    · rw [if_pos hcall]
      exact inv_answered hended outcome
    · rw [if_neg hcall]
      exact hended

theorem inv_step (l : Label w) (hundivided : d.Undivided l) (h : Inv d) :
    Inv (d.step w displayName l) := by
  rcases l with prompt | ⟨contact, access, sender⟩ | outcome | answers | ⟨id, attempt⟩ | update |
    _ | update | visor | grant | owner | outcome | _
  · exact inv_confirm h prompt
  · exact inv_read h contact access sender
  · exact inv_grant h hundivided
  · exact inv_record h hundivided
  · exact inv_enter h _
  · exact inv_enter h _
  · exact inv_act h
  · exact inv_update h update
  · exact inv_visor h hundivided
  · exact inv_absorb h hundivided
  · exact inv_prepare h hundivided
  · exact inv_finish h outcome
  · exact inv_load h.committed d.published

/-! ## Runs -/

/-- In a run whose steps are undivided, what a load restores has the outgoing record of every
grant. -/
theorem committed_grants_recorded (visor : Visor) {labels : List (Label w)}
    (hundivided : Transition.Meets (Device.step w displayName) Device.Undivided
      (.load { visor } []) labels) :
    ((Transition.run (Device.step w displayName) (.load { visor } []) labels).step w displayName
      .crash).memory.Traced := by
  have htraced : ({ visor } : Store).Traced := fun _ hgrant => nomatch hgrant
  have hstart : Inv (.load { visor } []) := inv_load htraced []
  exact (Transition.run_preserves_of_meets (fun _ => inv_step) hundivided hstart).committed

/-- A contact that was met as the user of the first binding, on the device `9`. -/
def exampleContact : Contact exampleForeign where
  id := [1]
  publicKey := none
  petname := [2]
  glyph := []
  retainedIdentity := some {
    root := firstBinding.binding.root
    binding := firstBinding
    profiles := []
    authorities := [⟨9, [3]⟩] }

/-- A prompt to share a list. -/
def examplePrompt : Visor where
  prompts := fun id => if id = [4] then some ⟨[4], [5], utf8 "todomvc", [6]⟩ else none

/-- The share of that list with that contact. -/
def exampleShare : Share where
  prompt := [4]
  partition := [5]
  recipient := {
    name := [2]
    root := firstBinding.binding.root
    group := firstBinding.binding.group
    device := 9
    proof := [3]
    endpoint := Invitations.exampleWire.endpointId 9 }
  access := .read

/-- It is confirmed, and what it needs is read. -/
def untilGrant : List (Label Invitations.exampleWire) :=
  [.confirm [4], .read (.ok exampleContact) .read (.ok ())]

theorem run_untilGrant :
    Transition.run (Device.step Invitations.exampleWire Contact.petname)
        (.load { visor := examplePrompt } []) untilGrant =
      { Device.load { visor := examplePrompt } [] with stage := .granting exampleShare } := rfl

/-- The grant is made, the pump persists, and the device stops. -/
def persistedBetween : List (Label Invitations.exampleWire) :=
  untilGrant ++ [.grant .ok, .prepare .other, .finish .ok]

/-- The device stops with nothing persisted, and the grant comes back from where it was published
before the pump persists. -/
def publishedBetween : List (Label Invitations.exampleWire) :=
  untilGrant ++ [.grant .ok, .crash, .absorb exampleShare.grant, .prepare .other, .finish .ok]

/-- After the run the grant is loaded, and no record of it. -/
def Unrecorded (labels : List (Label Invitations.exampleWire)) : Prop :=
  let loaded := ((Transition.run (Device.step Invitations.exampleWire Contact.petname)
    (.load { visor := examplePrompt } []) labels).step Invitations.exampleWire
      Contact.petname .crash).memory
  loaded.grants = [exampleShare.grant] ∧ loaded.visor.outgoing [4] = none ∧ ¬ loaded.Traced

theorem grant_loaded_without_record :
    Unrecorded persistedBetween ∧ Unrecorded publishedBetween := by
  have hlost {store : Store} (hgrants : store.grants = [exampleShare.grant])
      (hnone : store.visor.outgoing [4] = none) : ¬ store.Traced := by
    intro htraced
    obtain ⟨value, hvalue, -⟩ := htraced exampleShare.grant (by rw [hgrants]; exact .head _)
    exact nomatch hnone.symm.trans hvalue
  exact ⟨⟨rfl, rfl, hlost rfl rfl⟩, ⟨rfl, rfl, hlost rfl rfl⟩⟩

/-- What `sharing_confirm` is answered when nothing goes wrong. -/
def goodAnswers : Answers where
  sameIdentity := true
  body := .ok ⟨[7], nofun⟩
  built := .ok ⟨[8], nofun⟩
  mutation := .ok ()
  sameIdentityInMutation := true

/-- The record follows the grant, and the call persists. The published grant arrives as well. -/
def recordedAtOnce : List (Label Invitations.exampleWire) :=
  untilGrant ++ [.grant .ok, .record goodAnswers, .prepare .call, .finish .ok,
    .absorb exampleShare.grant, .crash]

theorem committed_grants_recorded_at_once :
    ((Transition.run (Device.step Invitations.exampleWire Contact.petname)
      (.load { visor := examplePrompt } []) recordedAtOnce).step Invitations.exampleWire
        Contact.petname .crash).memory.Traced := by
  refine committed_grants_recorded examplePrompt ?_
  refine Transition.meets_append.2 ⟨⟨trivial, trivial, trivial⟩, ?_⟩
  rw [run_untilGrant]
  refine ⟨trivial, fun share hshare => ?_, (fun share hshare => nomatch hshare), trivial,
    fun _ hback => ?_, trivial, trivial⟩
  · obtain rfl := Stage.granted.inj hshare
    exact ⟨rfl, rfl, rfl, rfl, rfl⟩
  · -- the device has the grant still
    exact absurd (.head _) hback

end Polyvisor.Grants
