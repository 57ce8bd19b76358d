import Polyvisor.Kernel.Pairing
import Polyvisor.Lib.Transition

/-!
# Meetings

`kernel/src/meeting.rs` on one device, with `contacts_accept_meeting` of `contacts.rs`, against a
peer that may send anything. Every meeting that is offered or joined has a generation, and so has
what replaces one: a cancel, an expiry, or a second claim of its link. A step of the machine is what
a call, a connection or a task does between two awaits.
-/

namespace Polyvisor.Meeting

open Pairing (Code sixDigits)

abbrev Bytes := List UInt8

/-- `MEETING_TTL_MS`. -/
def meetingTtlMs : ℕ := 120000

/-- `u32::MAX`. -/
def lastGeneration : ℕ := 2 ^ 32 - 1

/-- `MeetingReview`. What is shown of the peer is in its introduction. -/
structure Review where
  generation : ℕ
  sas : String
  introduction : Bytes
  deriving DecidableEq, Repr

inductive Phase where
  | idle
  | offering (generation : ℕ) (link : Code)
  | dialing (generation : ℕ)
  | awaitingConfirm (review : Review)
  | awaitingPeer
  | done (contact : String)
  | failed (why : String)
  deriving DecidableEq, Repr

def Phase.isDone : Phase → Bool
  | .done _ => true
  | _ => false

/-- Neither idle nor over. -/
def Phase.isActive : Phase → Bool
  | .idle => false
  | .done _ => false
  | .failed _ => false
  | _ => true

inductive Frame where
  | claim (token endpointKey introduction commit : Bytes)
  | accept (endpointKey introduction commit : Bytes)
  | reveal (nonce : Bytes)
  | confirm
  | accepted
  | refused
  | cancel
  deriving DecidableEq, Repr

structure Offer where
  token : Bytes
  expires : ℕ
  claimed : Bool
  introduction : Bytes
  deriving DecidableEq, Repr

structure Session where
  generation : ℕ
  /-- Whether `confirm` is there to be taken. -/
  confirm : Bool
  cancelled : Bool
  /-- The task at the other end of `confirm`. -/
  task : ℕ
  deriving DecidableEq, Repr

/-- Where a task stands, by the await it is in. -/
inductive Pc where
  | done
  /-- `contacts_share`, to offer a meeting or to join one. -/
  | sharing (join : Option Code)
  /-- The expiry of a generation. -/
  | sleeping (expires : ℕ)
  | dialing
  | claiming
  | awaitingAccept
  | reading
  /-- `contacts_validate_meeting_introduction`. -/
  | checking
  | accepting
  | awaitingReveal
  /-- The guest reveals its nonce before it reads the host's, the host afterwards. -/
  | revealing
  | confirming (confirmed peerConfirmed : Bool)
  | sendingConfirm (peerConfirmed : Bool)
  /-- `contacts_mutate_in`, up to the change. -/
  | recording
  /-- `contacts_mutate_in`, past the change. -/
  | storing (contact : String)
  /-- `contacts_changed`. -/
  | checkpointing (contact : String)
  /-- `Accepted` is sent, and the peer's waited for. -/
  | receipt (contact : String)
  deriving DecidableEq, Repr

structure Task where
  pc : Pc
  generation : ℕ := 0
  host : Bool := false
  /-- The endpoint key of the peer. -/
  key : Bytes := []
  token : Bytes := []
  /-- The introductions of this device and of its peer. -/
  own : Bytes := []
  peer : Bytes := []
  nonce : Bytes := []
  peerNonce : Bytes := []
  /-- What the peer committed to. -/
  commit : Bytes := []
  /-- Whether the user's confirmation was sent to the task. -/
  fired : Bool := false
  deriving DecidableEq, Repr

/-- What is remembered of a run. No code reads it. -/
inductive Event where
  | received (task : ℕ) (frame : Frame)
  /-- The user confirmed the session of a task. -/
  | confirmed (task : ℕ)
  /-- A contact that a task recorded is on disk, in the generation that is current by then. -/
  | checkpointed (task generation : ℕ) (peer : Bytes)
  deriving DecidableEq, Repr

/-- What an await answers. -/
inductive Answer where
  | ok
  | err (why : String)
  | dialed (key : Bytes)
  | frame (frame : Option Frame)
  deriving DecidableEq, Repr

/-- What the calls that need no await give. -/
structure Seams where
  now : ℕ := 0
  random : Bytes := []
  /-- What `contacts_share` gave. -/
  introduction : Bytes := []
  /-- The identifier of a contact. -/
  contact : String := ""
  /-- What the checks of an identity say, where they refuse it. -/
  refusal : Option String := none
  deriving DecidableEq, Repr

def replaced : String := "that meeting was replaced"
def cancelled : String := "the other person cancelled"
def gone : String := "the other device went away"
def outOfOrder : String := "that device did not speak meeting"
def mismatched : String := "that device's nonce did not match its commitment"

/-- `Meeting`, and what is under way. -/
structure Kernel where
  /-- This device's own endpoint key. -/
  me : Bytes
  generation : ℕ := 0
  phase : Phase := .idle
  offer : Option Offer := none
  session : Option Session := none
  tasks : List Task := []
  /-- The contacts that meetings recorded. -/
  contacts : List Bytes := []
  /-- What has happened, the latest first. -/
  log : List Event := []
  deriving DecidableEq, Repr

/-- A length and the bytes. -/
def field (bytes : Bytes) : Bytes :=
  BigEndian.toBytes 4 bytes.length ++ bytes

/-- The six digits both users compare. -/
def sas (blake3 : Bytes → Bytes) (token guestKey hostKey guest host guestNonce hostNonce : Bytes) :
    String :=
  sixDigits (blake3 ("polyvisor:meeting:sas:v0\x00".toUTF8.toList ++
    ([token, guestKey, hostKey, guest, host, guestNonce, hostNonce].map field).flatten))

/-- What a task of either role shows. -/
def Task.sas (blake3 : Bytes → Bytes) (me : Bytes) (t : Task) : String :=
  if t.host then Meeting.sas blake3 t.token t.key me t.peer t.own t.peerNonce t.nonce
  else Meeting.sas blake3 t.token me t.key t.own t.peer t.nonce t.peerNonce

namespace Kernel

variable (k : Kernel) (id : ℕ)

def note (events : List Event) : Kernel :=
  { k with log := events ++ k.log }

/-- A task goes on to its next await, with what it knows by then. -/
def update (t : Task) : Kernel :=
  { k with tasks := k.tasks.set id t }

/-- `meeting_set_phase`. -/
def setPhase (generation : ℕ) (phase : Phase) : Kernel :=
  if k.generation ≠ generation ∨ k.phase.isDone then k
  else { k with phase, offer := if phase.isDone then none else k.offer }

/-- `meeting_reserve`, where there is a generation left. -/
def reserve : Kernel :=
  { k with generation := k.generation + 1, offer := none, phase := .idle, session := none }

/-- `meeting_finish`. -/
def finish (generation : ℕ) (outcome : Except String String) : Kernel :=
  if k.generation ≠ generation then k
  else
    let session := k.session.filter (·.generation = generation)
    let k := { k with session := if session.isSome then none else k.session }
    if session.any (·.cancelled) then k
    else
      k.setPhase generation
        (match outcome with
        | .ok contact => .done contact
        | .error why => .failed why)

/-- The end of a role. A host whose generation is current takes its offer with it. -/
def close (t : Task) (outcome : Except String String) : Kernel :=
  let k := if t.host ∧ k.generation = t.generation then { k with offer := none } else k
  (k.finish t.generation outcome).update id { t with pc := .done }

/-- `meeting_expire`. -/
def expire (generation : ℕ) : Kernel :=
  if k.generation ≠ generation ∨ !k.phase.isActive then k
  else if k.generation = lastGeneration then
    { k with offer := none, phase := .failed "meeting generations exhausted" }
  else
    { k with
      generation := k.generation + 1
      offer := none
      phase := .failed "this meeting expired"
      session := none }

/-- `meeting_arm_expiry`. -/
def armExpiry (generation expires : ℕ) : Kernel :=
  { k with tasks := k.tasks ++ [{ pc := .sleeping expires, generation }] }

/-- `meeting_bind_session`, and the first step of a role that has its session. -/
def bindSession (t : Task) (pc : Pc) (seams : Seams) : Kernel :=
  if k.generation ≠ t.generation ∨ k.session.isSome then
    k.close id t (.error "this device is already meeting")
  else
    { k with
      session := some
        { generation := t.generation, confirm := true, cancelled := false, task := id } }.update id
          { t with pc, nonce := seams.random }

/-- The head of `meeting_confirm_and_persist`. -/
def review (blake3 : Bytes → Bytes) (t : Task) : Kernel :=
  if k.generation ≠ t.generation ∨ k.phase.isDone then k.close id t (.error replaced)
  else
    (k.setPhase t.generation (.awaitingConfirm
      { generation := t.generation, sas := t.sas blake3 k.me, introduction := t.peer })).update id
        { t with pc := .confirming false false }

/-- Both sides have confirmed: `contacts_accept_meeting`, up to its await. -/
def accept (t : Task) (seams : Seams) : Kernel :=
  if k.generation ≠ t.generation then k.close id t (.error replaced)
  else
    match seams.refusal with
    | some why => k.close id t (.error why)
    | none => k.update id { t with pc := .recording }

/-- A frame that is not the one to come. -/
def refuseFrame (t : Task) : Option Frame → Kernel
  | some .cancel => k.close id t (.error cancelled)
  | some _ => k.close id t (.error outOfOrder)
  | none => k.close id t (.error gone)

/-- The guest reads what the host accepts with. -/
def readAccept (t : Task) (frame : Option Frame) : Kernel :=
  match frame with
  | some (.accept endpointKey introduction commit) =>
    if endpointKey ≠ t.key then k.close id t (.error outOfOrder)
    else if commit.length ≠ 32 then
      k.close id t (.error "that device sent a malformed commitment")
    else
      (k.note [.received id (.accept endpointKey introduction commit)]).update id
        { t with pc := .checking, peer := introduction, commit }
  | some .refused => k.close id t (.error "that meeting link is spent or expired")
  | frame => k.refuseFrame id t frame

/-- `next_reveal`, and the check of the commitment. -/
def readReveal (blake3 : Bytes → Bytes) (t : Task) (frame : Option Frame) : Kernel :=
  match frame with
  | some (.reveal nonce) =>
    if nonce.length ≠ 32 then k.close id t (.error "that device sent a malformed nonce")
    else if blake3 nonce ≠ t.commit then k.close id t (.error mismatched)
    else
      let k := k.note [.received id (.reveal nonce)]
      let t := { t with peerNonce := nonce }
      if t.host then k.update id { t with pc := .revealing } else k.review id blake3 t
  | frame => k.refuseFrame id t frame

/-- The wait for both confirmations is over, or one of them has come. -/
def wakeConfirming (t : Task) (confirmed peerConfirmed : Bool) (seams : Seams)
    (frame : Option (Option Frame)) : Kernel :=
  if k.generation ≠ t.generation then k.close id t (.error replaced)
  else
    match frame with
    -- the user's confirmation
    | none => k.update id { t with pc := .sendingConfirm peerConfirmed }
    | some (some .confirm) =>
      let k := k.note [.received id .confirm]
      if confirmed then k.accept id t seams
      else k.update id { t with pc := .confirming false true }
    | some frame => k.refuseFrame id t frame

/-- The first frame of a connection. -/
def runHost (t : Task) (frame : Option Frame) (seams : Seams) : Kernel :=
  let ignored := k.update id { t with pc := .done }
  match frame with
  | some (.claim token endpointKey introduction commit) =>
    if endpointKey ≠ t.key then ignored
    else
      match k.offer with
      | none => ignored
      | some offer =>
        if token ≠ offer.token then ignored
        else if offer.claimed then
          -- the link was used before, and whoever used it is ended
          if k.generation = lastGeneration then ignored
          else
            { k with
              generation := k.generation + 1
              offer := none
              phase := .failed "someone else used this meeting link; make a new one"
              session := none }.update id { t with pc := .done }
        else if offer.expires ≤ seams.now then ignored
        else
          let k := k.note [.received id (.claim token endpointKey introduction commit)]
          let k := { k with offer := some { offer with claimed := true } }
          let t : Task :=
            { t with
              generation := k.generation, host := true, token, own := offer.introduction
              peer := introduction, commit }
          if token.length ≠ 16 then k.close id t (.error "that meeting token is malformed")
          else if commit.length ≠ 32 then
            k.close id t (.error "that device sent a malformed commitment")
          else k.update id { t with pc := .checking }
  | _ => ignored

/-- The await of a task answers. An answer that it does not wait for changes nothing. -/
def wake (blake3 : Bytes → Bytes) (t : Task) (answer : Answer) (seams : Seams) : Kernel :=
  match t.pc with
  | .done => k
  | .sharing join =>
    match answer with
    | .ok =>
      if k.generation ≠ t.generation then k.update id { t with pc := .done }
      else
        let expires := min (seams.now + meetingTtlMs) (2 ^ 64 - 1)
        match join with
        | none =>
          let link : Code := ⟨k.me, seams.random⟩
          let k := { k with
            offer := some
              { token := seams.random, expires, claimed := false
                introduction := seams.introduction } }
          ((k.setPhase t.generation (.offering t.generation link)).update id
            { t with pc := .done }).armExpiry t.generation expires
        | some code =>
          (k.update id
            { t with
              pc := .dialing, key := code.key, token := code.token
              own := seams.introduction }).armExpiry t.generation expires
    | .err why => (k.setPhase t.generation (.failed why)).update id { t with pc := .done }
    | _ => k
  | .sleeping expires =>
    match answer with
    | .ok =>
      (if expires ≤ seams.now then k.expire t.generation else k).update id { t with pc := .done }
    | _ => k
  | .dialing =>
    match answer with
    | .dialed key =>
      if key ≠ t.key then
        k.close id t (.error "that device answered with a different endpoint key")
      else if k.generation ≠ t.generation then k.update id { t with pc := .done }
      else k.bindSession id t .claiming seams
    | .err why => k.close id t (.error why)
    | _ => k
  | .claiming =>
    match answer with
    | .ok => k.update id { t with pc := .awaitingAccept }
    | .err why => k.close id t (.error why)
    | _ => k
  | .awaitingAccept =>
    match answer with
    | .frame frame => k.readAccept id t frame
    | _ => k
  | .reading =>
    match answer with
    | .frame frame => k.runHost id t frame seams
    | .err _ => k.update id { t with pc := .done }
    | _ => k
  | .checking =>
    match answer with
    | .ok =>
      if t.host then k.bindSession id t .accepting seams
      else k.update id { t with pc := .revealing }
    | .err why => k.close id t (.error why)
    | _ => k
  | .accepting =>
    match answer with
    | .ok => k.update id { t with pc := .awaitingReveal }
    | .err why => k.close id t (.error why)
    | _ => k
  | .awaitingReveal =>
    match answer with
    | .frame frame => k.readReveal id blake3 t frame
    | _ => k
  | .revealing =>
    match answer with
    | .ok =>
      if t.host then k.review id blake3 t else k.update id { t with pc := .awaitingReveal }
    | .err why => k.close id t (.error why)
    | _ => k
  | .confirming confirmed peerConfirmed =>
    -- the confirmation comes first, and is waited for until it has come
    if !confirmed && t.fired then k.wakeConfirming id t confirmed peerConfirmed seams none
    else
      match answer with
      | .frame frame => k.wakeConfirming id t confirmed peerConfirmed seams (some frame)
      | _ => k
  | .sendingConfirm peerConfirmed =>
    match answer with
    | .ok =>
      if peerConfirmed then k.accept id t seams
      else
        (k.setPhase t.generation .awaitingPeer).update id { t with pc := .confirming true false }
    | .err why => k.close id t (.error why)
    | _ => k
  | .recording =>
    match answer with
    | .ok =>
      if k.generation ≠ t.generation then k.close id t (.error replaced)
      else
        match seams.refusal with
        | some why => k.close id t (.error why)
        | none =>
          { k with contacts := k.contacts ++ [t.peer] }.update id
            { t with pc := .storing seams.contact }
    | .err why => k.close id t (.error why)
    | _ => k
  | .storing contact =>
    match answer with
    | .ok => k.update id { t with pc := .checkpointing contact }
    | .err why => k.close id t (.error why)
    | _ => k
  | .checkpointing contact =>
    match answer with
    | .ok =>
      let k := k.note [.checkpointed id k.generation t.peer]
      if k.generation ≠ t.generation then k.close id t (.error replaced)
      else
        (k.setPhase t.generation (.done contact)).update id { t with pc := .receipt contact }
    | .err why => k.close id t (.error why)
    | _ => k
  -- a receipt that is missing is no failure
  | .receipt contact => k.close id t (.ok contact)

/-- `meeting_confirm`. -/
def confirm (generation : ℕ) : Kernel :=
  match k.phase, k.session with
  | .awaitingConfirm review, some session =>
    if k.generation = generation ∧ review.generation = generation ∧ session.confirm then
      { k with
        session := some { session with confirm := false }
        tasks := k.tasks.modify session.task fun t => { t with fired := true } }.note
          [.confirmed session.task]
    else k
  | _, _ => k

/-- `meeting_status`, as far as it changes anything. -/
def status (now : ℕ) : Kernel :=
  match k.phase, k.offer with
  | .offering _ _, some offer => if offer.expires ≤ now then k.expire k.generation else k
  | _, _ => k

end Kernel

/-- What can happen next. -/
inductive Label where
  | offer
  | join (link : Code)
  | confirm (generation : ℕ)
  | cancel (generation : ℕ)
  | status (now : ℕ)
  /-- A connection comes in, from an authenticated key. -/
  | inbound (key : Bytes)
  | wake (task : ℕ) (answer : Answer) (seams : Seams)
  deriving DecidableEq, Repr

namespace Kernel

/-- A meeting begins with the introduction of this device. -/
def begin (k : Kernel) (join : Option Code) : Kernel :=
  if k.generation = lastGeneration then k
  else
    let t : Task := { pc := .sharing join, generation := k.generation + 1 }
    let k := { k.reserve with tasks := k.tasks ++ [t] }
    if join.isSome then k.setPhase k.generation (.dialing k.generation) else k

/-- One step of the device. -/
def step (blake3 : Bytes → Bytes) (k : Kernel) : Label → Kernel
  | .offer => k.begin none
  | .join link => if link.key = k.me then k else k.begin (some link)
  | .confirm generation => k.confirm generation
  | .cancel generation =>
    if k.generation ≠ generation ∨ k.generation = lastGeneration then k else k.reserve
  | .status now => k.status now
  | .inbound key => { k with tasks := k.tasks ++ [{ pc := .reading, key }] }
  | .wake task answer seams =>
    match k.tasks[task]? with
    | none => k
    | some t => k.wake task blake3 t answer seams

end Kernel

end Polyvisor.Meeting
