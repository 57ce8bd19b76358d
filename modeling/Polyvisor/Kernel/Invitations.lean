import Polyvisor.Contacts.RootBindings
import Polyvisor.Kernel.Seal
import Polyvisor.Lib.Transition

/-!
# Receiving invitations

`sharing_accept`, `receive_invitation`, `verify_invitation` and `verify_sender_identity` of
`kernel/src/sharing.rs`, and the inbox of `visor-model/src/lib.rs`. Every connection has a task of
its own; a task that changed the visor document goes on to its checkpoint in its own time, and the
device persists on other occasions too.

The answers of the tasks are kept, beside what each of them answered; no code reads that list.

## Main results

* `inbox_receiveInvitation`: what the visor document holds after an invitation was received.
* `acknowledged_invitations_stored`: in a run in which no invitation is let through while the inbox
  holds another one under its id, every invitation answered with `Received` is committed.
-/

namespace Polyvisor.Invitations

open Contacts

/-! ## The wire -/

/-- `ShareAccess`. -/
inductive ShareAccess where
  | read
  | edit
  deriving DecidableEq

/-- What is read of a `DocumentGrant`. -/
structure DocumentGrant where
  partition : Bytes
  recipientGroup : Bytes32
  access : ShareAccess

/-- `InvitationBody`, without the history that is inlined. -/
structure InvitationBody where
  version : ℕ
  id : Bytes32
  senderRoot : Bytes32
  senderGroup : Bytes32
  senderDevice : Bytes32
  senderIdentity : Bytes
  recipientRoot : Bytes32
  recipientGroup : Bytes32
  documentType : Bytes
  service : Bytes
  label : Bytes
  access : ShareAccess
  historyAndResharing : Bool
  grant : DocumentGrant

/-- `SignedInvitation`. -/
structure SignedInvitation where
  body : Bytes
  signature : Bytes
  deriving DecidableEq

/-- `Frame`. -/
inductive Frame where
  | invitation (signed : SignedInvitation)
  | received
  | refused (message : String)
  | done
  deriving DecidableEq

/-- `ShareInboxRecord`. -/
structure ShareInboxRecord where
  id : Bytes
  label : Bytes
  sender : Bytes
  app : Bytes
  edit : Bool
  envelope : Bytes
  adoptedInstance : Option Bytes
  senderEndpoint : Bytes
  senderDevice : Bytes32
  deriving DecidableEq

/-- What the sharing code takes from other crates: `bincode`, `serde_json`, `ed25519_dalek` and the
endpoint names of the network. -/
structure Wire where
  foreign : Foreign
  decodeFrame : Bytes → Option Frame
  decodeBody : Bytes → Option InvitationBody
  /-- `bincode::serialize` of a signed invitation. -/
  encodeInvitation : SignedInvitation → Except String Bytes
  /-- `Signature::from_slice`. -/
  isSignature : Bytes → Bool
  /-- `VerifyingKey::verify`. -/
  verifies : Bytes32 → Bytes → Bytes → Bool
  encodeRecord : ShareInboxRecord → Bytes
  decodeRecord : Bytes → Option ShareInboxRecord
  endpointId : Bytes32 → Bytes

/-- What the encoder writes, the decoder reads back. -/
def Wire.Lawful (w : Wire) : Prop :=
  ∀ record, w.decodeRecord (w.encodeRecord record) = some record

def invitationBudget : ℕ := 512 * 1024

/-- A check that fails with the code `refused`. -/
def require (condition : Prop) [Decidable condition] (message : String) : Except Error Unit :=
  check condition (Error.mk .refused message)

/-- `verify_invitation`. -/
def verifyInvitation (w : Wire) (signed : SignedInvitation) : Except Error InvitationBody := do
  require (signed.body.length + signed.signature.length ≤ invitationBudget)
    "invitation exceeds 512 KiB"
  match w.decodeBody signed.body with
  | none => .error ⟨.refused, "invalid invitation body"⟩
  | some body =>
    require (w.foreign.keyKind body.senderDevice ≠ .invalid) "invalid sender device"
    require (w.isSignature signed.signature) "invalid invitation signature"
    require (w.verifies body.senderDevice
        (utf8 "polyvisor:document-invitation:v0\x00" ++ signed.body) signed.signature)
      "invitation signature did not verify"
    require (body.version = 0 ∧ body.historyAndResharing) "unsupported invitation semantics"
    return body

/-- `to_ascii_lowercase`. -/
def asciiLowercase (text : Bytes) : Bytes :=
  text.map fun c => if 65 ≤ c.toNat ∧ c.toNat < 91 then c + 32 else c

/-- `verify_sender_identity`, once the introduction in the body was validated. -/
def verifySenderIdentity {f : Foreign} (body : InvitationBody) (verified : VerifiedIntroduction f) :
    Except Error Unit := do
  let intro := verified.introduction
  require (intro.issuer.root = body.senderRoot ∧
      intro.issuer.binding.binding.group = body.senderGroup ∧
      intro.device = body.senderDevice ∧ intro.issuer.authorityDevice = body.senderDevice ∧
      intro.authenticatedIdentities.isEmpty ∧ intro.parties.isEmpty)
    "invitation sender identity does not match its authenticated proof"
  require (body.service = utf8 "todomvc" ∧ body.documentType = utf8 "polyvisor.todo/v0" ∧
      body.grant.partition = asciiLowercase body.grant.partition ∧
      body.grant.recipientGroup = body.recipientGroup ∧ body.grant.access = body.access)
    "invitation grant metadata is inconsistent"

/-! ## The inbox -/

/-- A key of the visor document. -/
inductive VisorKey where
  /-- `SHARE_INBOX_PREFIX` and an id. -/
  | inbox (id : Bytes)
  | other (name : Bytes)
  deriving DecidableEq

/-- The visor document. -/
abbrev Visor := RootMap VisorKey

/-- `share_inbox_record`. -/
def shareInboxRecord (w : Wire) (doc : Visor) (id : Bytes) : Option ShareInboxRecord :=
  (rootString doc (.inbox id)).bind w.decodeRecord

/-- `receive_share_invitation`. -/
def receiveShareInvitation (w : Wire) (doc : Visor) (value : ShareInboxRecord) : Visor :=
  if (shareInboxRecord w doc value.id).isSome then doc
  else doc.put (.inbox value.id) (.text (w.encodeRecord value))

/-! ## The receiver -/

/-- What the rest of the device answers while an invitation is checked: the own profile and
authority group, the validated introduction of the sender, the grant, and whether the identity is
still the same at the two places that ask. -/
structure Answers (f : Foreign) where
  ownRoot : Except Error Bytes32
  ownGroup : Except Error Bytes32
  introduction : Except Error (VerifiedIntroduction f)
  grant : Except String Unit
  sameIdentity : Bool
  sameIdentityInMutation : Bool

/-- The record of an invitation. -/
def inboxRecord (w : Wire) (body : InvitationBody) (envelope : Bytes) : ShareInboxRecord where
  id := hex (Bytes32.bytes body.id)
  label := body.label
  sender := hex (Bytes32.bytes body.senderRoot)
  app := body.service
  edit := body.access = .edit
  envelope := envelope
  adoptedInstance := none
  senderEndpoint := w.endpointId body.senderDevice
  senderDevice := body.senderDevice

/-- The checks of `receive_invitation`. An invitation that is let through has a record. -/
def checkInvitation (w : Wire) (answers : Answers w.foreign) (peer : Bytes32)
    (signed : SignedInvitation) : Except Error ShareInboxRecord := do
  let body ← verifyInvitation w signed
  require (body.senderDevice = peer) "invitation signer does not match the transport peer"
  let ownRoot ← answers.ownRoot
  let ownGroup ← answers.ownGroup
  require (body.recipientRoot = ownRoot ∧ body.recipientGroup = ownGroup)
    "invitation names another recipient"
  let introduction ← answers.introduction
  verifySenderIdentity body introduction
  answers.grant.mapError (Error.mk .refused)
  check answers.sameIdentity
    (Error.mk .unavailable "the user identity changed during invitation verification")
  let envelope ← (w.encodeInvitation signed).mapError (Error.mk .failed)
  -- asked once more in the turn that changes the document
  check answers.sameIdentityInMutation
    (Error.mk .failed "the user identity changed during invitation receipt")
  return inboxRecord w body envelope

/-- A task whose invitation was let through, before its checkpoint. -/
structure Task where
  signed : SignedInvitation
  record : ShareInboxRecord
  deriving DecidableEq

/-- The visor document in memory and as a load would restore it, the tasks before their checkpoint,
and what was answered so far, to which invitation and with which record. -/
structure Receiver where
  visor : Visor
  committed : Visor
  tasks : List Task := []
  answered : List (Option Task × Frame) := []

/-- How a persist ends. A failed one may still have committed. -/
inductive Outcome where
  | ok
  | failed (error : Error) (landed : Bool)

/-- What the device commits. -/
def Outcome.commits : Outcome → Bool
  | .ok => true
  | .failed _ landed => landed

inductive Label (w : Wire) where
  /-- A connection of this peer brings a message, or none in time. -/
  | arrive (peer : Bytes32) (message : Option Bytes) (answers : Answers w.foreign)
  /-- The task of this number checkpoints and answers. -/
  | checkpoint (task : ℕ) (outcome : Outcome)
  /-- The device persists on another occasion. -/
  | persist (outcome : Outcome)

namespace Receiver

/-- `sharing_accept` up to the mutation of the visor document. -/
def arrive (w : Wire) (e : Receiver) (peer : Bytes32) (message : Option Bytes)
    (answers : Answers w.foreign) : Receiver :=
  let invitation := message.bind fun bytes =>
    if bytes.length + 4 ≤ invitationBudget then w.decodeFrame bytes else none
  match invitation with
  | some (.invitation signed) =>
    match checkInvitation w answers peer signed with
    | .ok record =>
      { e with
        visor := receiveShareInvitation w e.visor record
        tasks := e.tasks ++ [⟨signed, record⟩] }
    | .error error => { e with answered := e.answered ++ [(none, .refused error.message)] }
  | _ =>
    { e with answered := e.answered ++ [(none, .refused "malformed or oversized invitation")] }

/-- A persist: what is in memory is what it commits. -/
def persist (e : Receiver) (outcome : Outcome) : Receiver :=
  if outcome.commits then { e with committed := e.visor } else e

/-- The end of `receive_invitation`, and the answer. -/
def checkpoint (e : Receiver) (task : ℕ) (outcome : Outcome) : Receiver :=
  match e.tasks[task]? with
  | none => e
  | some t =>
    let e := { e.persist outcome with tasks := e.tasks.eraseIdx task }
    match outcome with
    | .ok => { e with answered := e.answered ++ [(some t, .received)] }
    | .failed error _ => { e with answered := e.answered ++ [(some t, .refused error.message)] }

def step (w : Wire) (e : Receiver) : Label w → Receiver
  | .arrive peer message answers => e.arrive w peer message answers
  | .checkpoint task outcome => e.checkpoint task outcome
  | .persist outcome => e.persist outcome

end Receiver

/-! ## What the inbox holds -/

variable {w : Wire}

theorem shareInboxRecord_put_self (hlaw : w.Lawful) (doc : Visor) (record : ShareInboxRecord) :
    shareInboxRecord w (doc.put (.inbox record.id) (.text (w.encodeRecord record))) record.id =
      some record := by
  rw [shareInboxRecord, rootString, RootMap.newest_put]
  exact hlaw record

theorem shareInboxRecord_put_of_ne {doc : Visor} {id other : Bytes} {value : Value}
    (hne : other ≠ id) :
    shareInboxRecord w (doc.put (.inbox id) value) other = shareInboxRecord w doc other := by
  have hkey : VisorKey.inbox other ≠ .inbox id := by simpa using hne
  rw [shareInboxRecord, rootString, RootMap.newest_put_of_ne hkey]
  rfl

/-- Whatever the inbox held it still holds, and under the id of what arrived it holds something. -/
theorem inbox_receiveInvitation (hlaw : w.Lawful) (doc : Visor) (record : ShareInboxRecord) :
    (∀ id held, shareInboxRecord w doc id = some held →
        shareInboxRecord w (receiveShareInvitation w doc record) id = some held) ∧
      shareInboxRecord w (receiveShareInvitation w doc record) record.id =
        some ((shareInboxRecord w doc record.id).getD record) := by
  rw [receiveShareInvitation]
  rcases hfound : shareInboxRecord w doc record.id with _ | found
  · rw [if_neg (by simp)]
    refine ⟨fun id held hheld => ?_, shareInboxRecord_put_self hlaw doc record⟩
    by_cases hid : id = record.id
    · rw [hid, hfound] at hheld
      exact nomatch hheld
    · rw [shareInboxRecord_put_of_ne hid]
      exact hheld
  · rw [if_pos (by simp)]
    exact ⟨fun _ _ hheld => hheld, hfound⟩

/-- `found` is the record of the same invitation: who sent it, and its envelope. -/
def ShareInboxRecord.Same (record found : ShareInboxRecord) : Prop :=
  found.id = record.id ∧ found.sender = record.sender ∧ found.envelope = record.envelope

/-- The document holds the invitation under its id. -/
def Stored (w : Wire) (doc : Visor) (record : ShareInboxRecord) : Prop :=
  ∃ found, shareInboxRecord w doc record.id = some found ∧ record.Same found

/-- What a document has of an invitation that is answered with `Received`. -/
def Acknowledged (w : Wire) (doc : Visor) (signed : SignedInvitation) : Prop :=
  ∃ body envelope, verifyInvitation w signed = .ok body ∧
    w.encodeInvitation signed = .ok envelope ∧ Stored w doc (inboxRecord w body envelope)

/-- Every invitation that was answered with `Received` is committed as it came. -/
def Receiver.Truthful (w : Wire) (e : Receiver) : Prop :=
  ∀ task, (some task, Frame.received) ∈ e.answered → Acknowledged w e.committed task.signed

/-- An invitation that is let through finds no other one under its id. -/
def Unclaimed (w : Wire) (e : Receiver) : Label w → Prop
  | .arrive peer message answers => ∀ bytes signed record, message = some bytes →
      w.decodeFrame bytes = some (.invitation signed) →
      checkInvitation w answers peer signed = .ok record →
      ∀ found, shareInboxRecord w e.visor record.id = some found → record.Same found
  | _ => True

/-- The record of an invitation that was let through is made of its body and its bytes. -/
theorem of_checkInvitation {answers : Answers w.foreign} {peer : Bytes32}
    {signed : SignedInvitation} {record : ShareInboxRecord}
    (h : checkInvitation w answers peer signed = .ok record) : ∃ body envelope,
      verifyInvitation w signed = .ok body ∧ w.encodeInvitation signed = .ok envelope ∧
        record = inboxRecord w body envelope := by
  rw [checkInvitation] at h
  obtain ⟨body, hbody, h⟩ := of_bind h
  obtain ⟨-, -, h⟩ := of_bind h
  obtain ⟨ownRoot, -, h⟩ := of_bind h
  obtain ⟨ownGroup, -, h⟩ := of_bind h
  obtain ⟨-, -, h⟩ := of_bind h
  obtain ⟨introduction, -, h⟩ := of_bind h
  obtain ⟨-, -, h⟩ := of_bind h
  obtain ⟨-, -, h⟩ := of_bind h
  obtain ⟨-, h⟩ := of_check h
  obtain ⟨envelope, henvelope, h⟩ := of_bind h
  obtain ⟨-, h⟩ := of_check h
  refine ⟨body, envelope, hbody, ?_, (Except.ok.inj h).symm⟩
  rcases hencode : w.encodeInvitation signed with e | encoded
  · rw [hencode] at henvelope
    exact nomatch henvelope
  · rw [hencode] at henvelope
    exact congrArg Except.ok (Except.ok.inj henvelope)

/-! ## Runs -/

/-- What a receiver keeps from step to step: it has committed nothing it does not hold, and every
task before its checkpoint has its invitation in memory. -/
structure Inv (w : Wire) (e : Receiver) : Prop where
  committed : ∀ id held, shareInboxRecord w e.committed id = some held →
    shareInboxRecord w e.visor id = some held
  tasks : ∀ task ∈ e.tasks, Acknowledged w e.visor task.signed
  answered : e.Truthful w

/-- An invitation that is on disk stays there when more of the inbox is committed. -/
theorem Acknowledged.mono {doc doc' : Visor} {signed : SignedInvitation}
    (h : Acknowledged w doc signed)
    (hmore : ∀ id held, shareInboxRecord w doc id = some held →
      shareInboxRecord w doc' id = some held) : Acknowledged w doc' signed := by
  obtain ⟨body, envelope, hbody, henvelope, found, hfound, hsame⟩ := h
  exact ⟨body, envelope, hbody, henvelope, found, hmore _ _ hfound, hsame⟩

theorem inv_arrive (hlaw : w.Lawful) {e : Receiver} {peer : Bytes32} {message : Option Bytes}
    {answers : Answers w.foreign} (hunclaimed : Unclaimed w e (.arrive peer message answers))
    (h : Inv w e) : Inv w (e.arrive w peer message answers) := by
  -- a refusal is one more answer, and none with `Received`
  have hrefused : ∀ text, Inv w { e with answered := e.answered ++ [(none, .refused text)] } := by
    refine fun text => ⟨h.committed, h.tasks, fun task htask => ?_⟩
    rcases List.mem_append.1 htask with hold | hnew
    · exact h.answered task hold
    · exact nomatch List.mem_singleton.1 hnew
  rw [Receiver.arrive]
  split
  swap
  · exact hrefused _
  next signed hmessage =>
  split
  swap
  · exact hrefused _
  next record hcheck =>
  obtain ⟨bytes, hbytes, hdecode⟩ := Option.bind_eq_some_iff.1 hmessage
  have hframe : w.decodeFrame bytes = some (.invitation signed) := by
    split at hdecode
    · exact hdecode
    · exact nomatch hdecode
  obtain ⟨hkept, hstored⟩ := inbox_receiveInvitation hlaw e.visor record
  obtain ⟨body, envelope, hbody, henvelope, hrecord⟩ := of_checkInvitation hcheck
  refine ⟨fun id held hheld => hkept id held (h.committed id held hheld), fun task htask => ?_,
    h.answered⟩
  rcases List.mem_append.1 htask with hold | hnew
  · exact (h.tasks task hold).mono hkept
  · obtain rfl := List.mem_singleton.1 hnew
    have hsame : record.Same ((shareInboxRecord w e.visor record.id).getD record) := by
      rcases hfound : shareInboxRecord w e.visor record.id with _ | found
      · exact ⟨rfl, rfl, rfl⟩
      · exact hunclaimed bytes signed record hbytes hframe hcheck found hfound
    subst hrecord
    exact ⟨body, envelope, hbody, henvelope, _, hstored, hsame⟩

theorem inv_persist {e : Receiver} (outcome : Outcome) (h : Inv w e) :
    Inv w (e.persist outcome) := by
  rw [Receiver.persist]
  split
  · exact ⟨fun _ _ hheld => hheld, h.tasks,
      fun task htask => (h.answered task htask).mono h.committed⟩
  · exact h

theorem inv_checkpoint {e : Receiver} (task : ℕ) (outcome : Outcome) (h : Inv w e) :
    Inv w (e.checkpoint task outcome) := by
  rw [Receiver.checkpoint]
  split
  · exact h
  next t ht =>
  have hpersist := inv_persist outcome h
  have htasks : (e.persist outcome).tasks = e.tasks := by
    rw [Receiver.persist]
    split <;> rfl
  have hanswered : (e.persist outcome).answered = e.answered := by
    rw [Receiver.persist]
    split <;> rfl
  have hrest : ∀ u ∈ (e.persist outcome).tasks.eraseIdx task,
      Acknowledged w (e.persist outcome).visor u.signed :=
    fun u hu => hpersist.tasks u (List.mem_of_mem_eraseIdx hu)
  rcases outcome with _ | ⟨error, landed⟩
  · refine ⟨hpersist.committed, by rw [← htasks]; exact hrest, fun u hu => ?_⟩
    rcases List.mem_append.1 hu with hold | hnew
    · exact hpersist.answered u hold
    · -- this task's answer: its invitation is in memory, and memory was just committed
      obtain rfl := Option.some.inj (Prod.mk.inj (List.mem_singleton.1 hnew)).1
      exact h.tasks u (List.mem_of_getElem? ht)
  · refine ⟨hpersist.committed, by rw [← htasks]; exact hrest, fun u hu => ?_⟩
    rcases List.mem_append.1 hu with hold | hnew
    · exact hpersist.answered u hold
    · exact nomatch (Prod.mk.inj (List.mem_singleton.1 hnew)).2

theorem inv_step (hlaw : w.Lawful) {e : Receiver} {label : Label w}
    (hunclaimed : Unclaimed w e label) (h : Inv w e) : Inv w (e.step w label) := by
  rcases label with ⟨peer, message, answers⟩ | ⟨task, outcome⟩ | outcome
  · exact inv_arrive hlaw hunclaimed h
  · exact inv_checkpoint task outcome h
  · exact inv_persist outcome h

/-- A device that was loaded, with any inbox. -/
def Receiver.start (visor : Visor) : Receiver := { visor, committed := visor }

/-- Over every run of arriving frames, checkpoints and persists, in any order and with any failures,
in which no invitation is let through while the inbox holds another one under its id: every
invitation that was answered with `Received` is committed under its id, with its sender and its
envelope. -/
theorem acknowledged_invitations_stored (hlaw : w.Lawful) (visor : Visor)
    {labels : List (Label w)}
    (hunclaimed : Transition.Meets (Receiver.step w) (Unclaimed w) (.start visor) labels) :
    (Transition.run (Receiver.step w) (.start visor) labels).Truthful w := by
  have hstart : Inv w (.start visor) :=
    ⟨fun _ _ h => h, fun _ h => absurd h List.not_mem_nil, fun _ h => absurd h List.not_mem_nil⟩
  exact (Transition.run_preserves_of_meets (fun _ _ => inv_step hlaw) hunclaimed hstart).answered

/-! ## Two invitations under one id

Root 1 on device 9 introduces itself as in `RootBindings`, root 4 on device 8. Both invite with the
id 5. A signed invitation is the number of its body. -/

/-- The binding of root 4 to group 2. -/
def otherBinding : SignedRootBinding exampleForeign where
  bytes := [4, 2]
  binding := ⟨BitVec.ofNat 256 (BigEndian.ofBytes (repeated 4)),
    BitVec.ofNat 256 (BigEndian.ofBytes (repeated 2))⟩
  verified := rfl

def otherProfile : SignedProfile exampleForeign where
  bytes := [4]
  profile := ⟨BitVec.ofNat 256 (BigEndian.ofBytes (repeated 4)),
    BitVec.ofNat 256 (BigEndian.ofBytes (repeated 4)), []⟩
  verified := rfl

/-- Root 4 introduces itself. -/
def otherIntroduction : VerifiedIntroduction exampleForeign where
  introduction := {
    issuer := ⟨otherBinding, [otherProfile], 8, [1]⟩
    device := 8
    authenticatedIdentities := []
    parties := []
    issuedAt := ⟨0, 0⟩ }
  valid := rfl

/-- An invitation with the id 5 for root 6 and group 7. -/
def exampleBody (binding : RootBinding) (device : Bytes32) : InvitationBody where
  version := 0
  id := 5
  senderRoot := binding.root
  senderGroup := binding.group
  senderDevice := device
  senderIdentity := []
  recipientRoot := 6
  recipientGroup := 7
  documentType := utf8 "polyvisor.todo/v0"
  service := utf8 "todomvc"
  label := []
  access := .edit
  historyAndResharing := true
  grant := ⟨[], 7, .edit⟩

/-- The fields of a record. -/
def recordFields (record : ShareInboxRecord) : List Bytes :=
  [record.id, record.label, record.sender, record.app, if record.edit then [1] else [],
    record.envelope, (record.adoptedInstance.map fun instance' => 1 :: instance').getD [],
    record.senderEndpoint, Bytes32.bytes record.senderDevice]

/-- Invitation 1 is from root 1, invitation 2 from root 4. -/
def exampleWire : Wire where
  foreign := exampleForeign
  decodeFrame bytes := some (.invitation ⟨bytes, []⟩)
  decodeBody
    | [1] => some (exampleBody firstBinding.binding 9)
    | [2] => some (exampleBody otherBinding.binding 8)
    | _ => none
  encodeInvitation signed := .ok signed.body
  isSignature _ := true
  verifies _ _ _ := true
  encodeRecord record := (recordFields record).flatMap encodeField
  decodeRecord bytes :=
    match decodeFields 9 bytes with
    | [id, label, sender, app, edit, envelope, adopted, senderEndpoint, senderDevice] => some {
        id, label, sender, app, edit := edit ≠ [], envelope
        adoptedInstance := if adopted = [] then none else some adopted.tail
        senderEndpoint, senderDevice := BitVec.ofNat 256 (BigEndian.ofBytes senderDevice) }
    | _ => none
  endpointId device := Bytes32.bytes device

theorem exampleWire_lawful : exampleWire.Lawful := by
  rintro ⟨id, label, sender, app, edit, envelope, adopted, senderEndpoint, senderDevice⟩
  have hdevice : BitVec.ofNat 256 (BigEndian.ofBytes (Bytes32.bytes senderDevice)) =
      senderDevice := by
    have hkey := key32_bytes senderDevice ""
    rw [key32, Bytes32.bytes, if_pos (BigEndian.length_toBytes 32 _)] at hkey
    exact Except.ok.inj hkey
  have hfields : ∀ record, decodeFields 9 ((recordFields record).flatMap encodeField) =
      recordFields record :=
    fun record => decodeFields_encode _ 9 (le_refl (recordFields record).length)
  simp only [exampleWire, hfields]
  rcases edit <;> rcases adopted <;> simp [recordFields, hdevice]

/-- Every check is passed. -/
def exampleAnswers (introduction : VerifiedIntroduction exampleForeign) :
    Answers exampleForeign :=
  ⟨.ok 6, .ok 7, .ok introduction, .ok (), true, true⟩

/-- Root 1 invites and is answered, and then root 4 does. -/
def sameIdTwice : List (Label exampleWire) :=
  [.arrive 9 (some [1]) (exampleAnswers exampleIntroduction.verified), .checkpoint 0 .ok,
    .arrive 8 (some [2]) (exampleAnswers otherIntroduction), .checkpoint 0 .ok]

def twiceAnswered : Receiver :=
  Transition.run (Receiver.step exampleWire) (.start (.empty [])) sameIdTwice

/-- Both are answered with `Received`, and the inbox has the first one alone. -/
theorem second_sender_acknowledged :
    (twiceAnswered.answered.map fun answer => (answer.1.map fun task => task.signed, answer.2)) =
        [(some ⟨[1], []⟩, .received), (some ⟨[2], []⟩, .received)] ∧
      ((shareInboxRecord exampleWire twiceAnswered.committed (hex (Bytes32.bytes 5))).map
        fun record => (record.sender, record.envelope)) =
          some (hex (Bytes32.bytes firstBinding.binding.root), [1]) ∧
      ¬ twiceAnswered.Truthful exampleWire := by
  refine ⟨by decide +kernel, by decide +kernel, fun htruthful => ?_⟩
  have hanswer : (some (Task.mk ⟨[2], []⟩ (inboxRecord exampleWire
      (exampleBody otherBinding.binding 8) [2])), Frame.received) ∈ twiceAnswered.answered := by
    decide +kernel
  obtain ⟨body, envelope, hbody, henvelope, found, hfound, -, -, hsame⟩ := htruthful _ hanswer
  have hbody' : verifyInvitation exampleWire ⟨[2], []⟩ =
      .ok (exampleBody otherBinding.binding 8) := rfl
  obtain rfl := Except.ok.inj (hbody'.symm.trans hbody)
  obtain rfl := Except.ok.inj henvelope
  have hfirst : ((shareInboxRecord exampleWire twiceAnswered.committed
      (inboxRecord exampleWire (exampleBody otherBinding.binding 8) [2]).id).map
        fun record => record.envelope) = some [1] := by
    decide +kernel
  have henvelopes : found.envelope = [1] := by
    rw [hfound] at hfirst
    exact Option.some.inj hfirst
  exact absurd (hsame.symm.trans henvelopes) (by decide)

/-- The first one arrives, its checkpoint fails without a trace, and it is brought again. -/
def broughtAgain : List (Label exampleWire) :=
  [.arrive 9 (some [1]) (exampleAnswers exampleIntroduction.verified),
    .checkpoint 0 (.failed ⟨.failed, "disk full"⟩ false),
    .arrive 9 (some [1]) (exampleAnswers exampleIntroduction.verified), .checkpoint 0 .ok]

theorem acknowledged_invitations_stored_retry :
    (Transition.run (Receiver.step exampleWire) (.start (.empty [])) broughtAgain).Truthful
      exampleWire :=
  acknowledged_invitations_stored exampleWire_lawful (.empty []) (by
    let record := inboxRecord exampleWire (exampleBody firstBinding.binding 9) [1]
    -- it is the same invitation both times
    have hrecord : ∀ found, checkInvitation exampleWire
        (exampleAnswers exampleIntroduction.verified) 9 ⟨[1], []⟩ = .ok found → found = record := by
      intro found hcheck
      have hcomputed : (checkInvitation exampleWire
          (exampleAnswers exampleIntroduction.verified) 9 ⟨[1], []⟩).toOption = some record := by
        decide +kernel
      rw [hcheck] at hcomputed
      exact Option.some.inj hcomputed
    refine ⟨?_, trivial, ?_, trivial, trivial⟩
    all_goals
      rintro bytes signed found hbytes hdecode hcheck held hheld
      obtain rfl := Option.some.inj hbytes
      obtain rfl := Frame.invitation.inj (Option.some.inj hdecode)
      obtain rfl := hrecord found hcheck
    · have hnone : shareInboxRecord exampleWire (.empty []) record.id = none := by decide +kernel
      exact nomatch hnone.symm.trans hheld
    · have hfirst : shareInboxRecord exampleWire (Transition.run (Receiver.step exampleWire)
          (.start (.empty [])) (broughtAgain.take 2)).visor record.id = some record := by
        decide +kernel
      obtain rfl := Option.some.inj (hfirst.symm.trans hheld)
      exact ⟨rfl, rfl, rfl⟩)

end Polyvisor.Invitations
