import Polyvisor.Lib.BigEndian
import Mathlib.Data.List.Basic
import Mathlib.Data.Nat.Notation

/-!
# Pairing

`kernel/src/pairing.rs` on one device, against a peer that may send anything. One phase, one offer
and one session are shared by the calls of the user interface, the connections that come in and the
tasks that are under way; a step of the machine is what one of them does between two awaits. What
an await answers, what the clock and the generator of random bytes give and what the checks of an
enrolment say is part of the step. What the device sends is left out, since the peer is arbitrary.

A ceremony begins with an offer that is minted or a claim that is dialed, and is numbered. A
connection that claims an offer belongs to its ceremony.

* `Task.turn`: the two roles, from an await to the next.
* `Kernel.step`: the device.
-/

namespace Polyvisor.Pairing

abbrev Bytes := List UInt8

/-- `OFFER_TTL_MS`. -/
def offerTtlMs : ℕ := 120000

/-- What is in a code: the endpoint that shows it, and its token. -/
structure Code where
  key : Bytes
  token : Bytes
  deriving DecidableEq, Repr

inductive Phase where
  | idle
  | offering (code : Code)
  | claiming
  | awaitingConfirm (digits : String)
  | awaitingPeer
  | done
  | failed (why : String)
  deriving DecidableEq, Repr

/-- One pairing message, with what the receiving side reads of it. -/
inductive Frame where
  | claim (token commit : Bytes)
  | accept (nonce key : Bytes) (petname : String) (card : Bytes)
  | reveal (nonce : Bytes)
  | confirmJoin
  | enroll (nameKey : Bytes)
  | enrolled
  | refused
  | cancel
  deriving DecidableEq, Repr

/-- The open offer. -/
structure Offer where
  token : Bytes
  expires : ℕ
  claimed : Bool
  /-- The ceremony it begins. -/
  ceremony : ℕ
  deriving DecidableEq, Repr

/-- The live exchange. -/
structure Session where
  /-- Whether `confirm` is there to be taken. -/
  confirm : Bool
  cancelled : Bool
  /-- The task at the other end of `confirm`, and its ceremony. -/
  task : ℕ
  ceremony : ℕ
  deriving DecidableEq, Repr

/-- Who waits for `tear_down_session`, and is going on then. -/
inductive Caller where
  | offer
  | claim (code : Code)
  /-- A cancel, and how many ceremonies had begun when it was called. -/
  | cancel (begun : ℕ)
  /-- A second claim of the code of a ceremony. -/
  | burn (ceremony : ℕ)
  deriving DecidableEq, Repr

/-- Where a task stands, by the await it is in. -/
inductive Pc where
  | done
  /-- `tear_down_session` of the session of a task, sending `Cancel` or closing. -/
  | tearing (caller : Caller) (task : ℕ) (closing : Bool)
  -- `pairing_claim` and `run_adder`
  | dialing
  | claiming (nonceA : Bytes)
  | awaitingAccept (nonceA : Bytes)
  | revealing (nonceA nonceJ : Bytes) (petname : String) (card : Bytes)
  | confirming (here there : Bool) (petname : String) (card : Bytes)
  /-- `initialize_personalization` and `initialize_contacts`. -/
  | preparing (petname : String) (card : Bytes)
  /-- `add_member`. -/
  | adding (card : Bytes)
  /-- `enroll_keyhive`. -/
  | enrolling
  /-- What `Enroll` carries is collected. -/
  | saving
  | sendingEnroll
  | awaitingReceipt
  | checkpointing
  -- `run_joiner` and `run_claimed`
  | reading
  /-- A second claim is refused, and its connection closed. -/
  | burning (ceremony : ℕ) (closing : Bool)
  /-- `keyhive_card`. -/
  | carding
  | accepting (nonceJ : Bytes)
  | awaitingReveal (nonceJ : Bytes)
  | comparing
  | confirmingJoin
  | awaitingEnroll
  /-- A meeting is ended, and the two locks are taken. -/
  | locking
  /-- `adopt_pairing_payload` and `write_persistence`. -/
  | adopting
  | acking
  deriving DecidableEq, Repr

structure Task where
  pc : Pc
  ceremony : ℕ := 0
  /-- The key the code named, or the one of the connection that came in. -/
  key : Bytes := []
  token : Bytes := []
  /-- What the adder committed to. -/
  commit : Bytes := []
  /-- Whether the user's confirmation was sent to the task. -/
  fired : Bool := false
  /-- Whether the sender of it is gone. -/
  severed : Bool := false
  deriving DecidableEq, Repr

/-- What is remembered of a run. No code reads it. -/
inductive Event where
  /-- A code was claimed here. -/
  | named (ceremony : ℕ) (code : Code)
  /-- The transport authenticated the device that was dialed. -/
  | dialed (ceremony : ℕ) (key : Bytes)
  /-- A session was bound. -/
  | bound (ceremony : ℕ)
  /-- A connection that came in became a session. -/
  | joined (task ceremony : ℕ)
  | received (ceremony : ℕ) (frame : Frame)
  | shown (ceremony : ℕ) (digits : String)
  /-- The user confirmed the digits of a ceremony. -/
  | confirmed (ceremony : ℕ)
  /-- `add_member` was called. -/
  | added (ceremony : ℕ) (key : Bytes) (petname : String)
  /-- `enroll_keyhive` was called. -/
  | enrolled (ceremony : ℕ) (card key : Bytes)
  /-- The adoption of an identity began. -/
  | adopted (ceremony : ℕ)
  /-- The user cancelled, when so many ceremonies had begun. -/
  | cancelled (begun : ℕ)
  /-- A ceremony took or replaced the offer, the session or the phase of a ceremony, after it was
  refused a session or otherwise. -/
  | touched (ceremony target : ℕ) (refused : Bool)
  deriving DecidableEq, Repr

/-- What an await answers. -/
inductive Answer where
  | ok
  | err (why : String)
  /-- `connect`, with the key it authenticated. -/
  | dialed (key : Bytes)
  | frame (frame : Option Frame)
  deriving DecidableEq, Repr

/-- What the calls that need no await give. -/
structure Seams where
  now : ℕ := 0
  random : Bytes := []
  /-- What the checks of an enrolment say, where they refuse it. -/
  refusal : Option String := none
  deriving DecidableEq, Repr

/-! ## The two roles -/

def cancelled : String := "the other device cancelled"
def gone : String := "the other device went away"
def outOfOrder : String := "that device did not speak pairing"
def malformedNonce : String := "that device sent a malformed nonce"
def alreadyPairing : String := "this device is already pairing"

/-- What a task does until its next await. -/
inductive Turn where
  | goOn (events : List Event) (pc : Pc)
  /-- With a new phase. -/
  | say (events : List Event) (phase : Phase) (pc : Pc)
  | finish (outcome : Except String Unit)

/-- What woke a side that waits for its own user and for the wire. -/
inductive Wake where
  | confirmed
  | frame (frame : Option Frame)

/-- Six digits of a digest. -/
def sixDigits (digest : Bytes) : String :=
  let digits := toString (BigEndian.ofBytes (digest.take 4) % 1000000)
  String.ofList (List.replicate (6 - digits.length) '0') ++ digits

section Roles

variable (blake3 : Bytes → Bytes)

/-- The six digits both users compare. -/
def sas (token joinerKey adderKey nonceJ nonceA : Bytes) : String :=
  sixDigits (blake3 (1 :: token ++ joinerKey ++ adderKey ++ nonceJ ++ nonceA))

namespace Task

/-- What follows an await that may fail. -/
def onCall (answer : Answer) (next : Turn) : Option Turn :=
  match answer with
  | .ok => some next
  | .err why => some (.finish (.error why))
  | _ => none

/-- What follows the wait for a frame. -/
def onFrame (answer : Answer) (next : Option Frame → Turn) : Option Turn :=
  match answer with
  | .frame frame => some (next frame)
  | _ => none

/-- A frame that is not the one to come ends the ceremony. -/
def refuseFrame : Option Frame → Turn
  | some .cancel => .finish (.error cancelled)
  | some _ => .finish (.error outOfOrder)
  | none => .finish (.error gone)

/-- `wait`. The confirmation comes first, and the end of its sender is the end of the session. -/
def onWake (t : Task) (answer : Answer) (next : Wake → Turn) : Option Turn :=
  if t.fired then some (next .confirmed)
  else if t.severed then some (next (.frame none))
  else onFrame answer fun frame => next (.frame frame)

/-- The adder reads what the joiner accepts with. -/
def readAccept (t : Task) (nonceA : Bytes) : Option Frame → Turn
  | some (.accept nonce key petname card) =>
    if key ≠ t.key then .finish (.error "that device answered for a different key")
    else if nonce.length ≠ 32 then .finish (.error malformedNonce)
    else .goOn [] (.revealing nonceA nonce petname card)
  | some .refused =>
    .finish (.error "that code is spent or expired; ask that device for a new one")
  | frame => refuseFrame frame

/-- The adder waits for both confirmations, in either order. -/
def confirmBoth (t : Task) (here there : Bool) (petname : String) (card : Bytes) : Wake → Turn
  | .confirmed =>
    if there then .goOn [] (.preparing petname card)
    else .say [] .awaitingPeer (.confirming true false petname card)
  | .frame (some .confirmJoin) =>
    .goOn [.received t.ceremony .confirmJoin]
      (if here then .preparing petname card else .confirming false true petname card)
  | .frame frame => refuseFrame frame

/-- The joiner checks the nonce of the adder against the commitment. -/
def readReveal (me : Bytes) (t : Task) (nonceJ : Bytes) : Option Frame → Turn
  | some (.reveal nonce) =>
    if nonce.length ≠ 32 then .finish (.error malformedNonce)
    else if blake3 nonce ≠ t.commit then
      .finish (.error "that device's nonce did not match what it committed to")
    else
      let digits := sas blake3 t.token me t.key nonceJ nonce
      .say [.shown t.ceremony digits, .received t.ceremony (.reveal nonce)]
        (.awaitingConfirm digits) .comparing
  | frame => refuseFrame frame

def readEnroll (seams : Seams) : Option Frame → Turn
  | some (.enroll nameKey) =>
    if nameKey.length ≠ 32 then .finish (.error "that device sent a malformed store key")
    else
      match seams.refusal with
      | some why => .finish (.error why)
      | none => .goOn [] .locking
  | frame => refuseFrame frame

/-- What a task that has its session does when its await answers, if that is what it waits for. -/
def turn (me : Bytes) (t : Task) (answer : Answer) (seams : Seams) : Option Turn :=
  match t.pc with
  -- the adder
  | .claiming nonceA => onCall answer (.goOn [] (.awaitingAccept nonceA))
  | .awaitingAccept nonceA => onFrame answer (t.readAccept nonceA)
  | .revealing nonceA nonceJ petname card =>
    let digits := sas blake3 t.token t.key me nonceJ nonceA
    onCall answer (.say [.shown t.ceremony digits] (.awaitingConfirm digits)
      (.confirming false false petname card))
  -- only waits for the confirmation until it has come
  | .confirming true there petname card =>
    onFrame answer fun frame => t.confirmBoth true there petname card (.frame frame)
  | .confirming false there petname card =>
    t.onWake answer (t.confirmBoth false there petname card)
  | .preparing petname card =>
    onCall answer (.goOn [.added t.ceremony t.key petname] (.adding card))
  | .adding card => onCall answer (.goOn [.enrolled t.ceremony card t.key] .enrolling)
  | .enrolling => onCall answer (.goOn [] .saving)
  | .saving => onCall answer (.goOn [] .sendingEnroll)
  | .sendingEnroll => onCall answer (.goOn [] .awaitingReceipt)
  -- any answer ends the wait for the receipt
  | .awaitingReceipt => onFrame answer fun _ => .goOn [] .checkpointing
  | .checkpointing => onCall answer (.finish (.ok ()))
  -- the joiner
  | .carding => onCall answer (.goOn [] (.accepting seams.random))
  | .accepting nonceJ => onCall answer (.goOn [] (.awaitingReveal nonceJ))
  | .awaitingReveal nonceJ => onFrame answer (t.readReveal blake3 me nonceJ)
  | .comparing =>
    t.onWake answer fun
      | .confirmed => .goOn [] .confirmingJoin
      | .frame frame => refuseFrame frame
  | .confirmingJoin => onCall answer (.say [] .awaitingPeer .awaitingEnroll)
  | .awaitingEnroll => onFrame answer (readEnroll seams)
  | .locking => onCall answer (.goOn [.adopted t.ceremony] .adopting)
  | .adopting => onCall answer (.goOn [] .acking)
  | .acking =>
    -- a receipt that cannot be sent is no failed ceremony
    match answer with
    | .ok => some (.finish (.ok ()))
    | .err _ => some (.finish (.ok ()))
    | _ => none
  | _ => none

section Rules

variable {P : Turn → Prop} {t : Task} {answer : Answer} {turn : Turn}

theorem of_onCall {next : Turn} (h : onCall answer next = some turn) (hnext : P next)
    (hfail : ∀ why, P (.finish (.error why))) : P turn := by
  unfold onCall at h
  split at h
  · exact Option.some.inj h ▸ hnext
  · exact Option.some.inj h ▸ hfail _
  · cases h

theorem of_onFrame {next : Option Frame → Turn} (h : onFrame answer next = some turn)
    (hnext : ∀ frame, P (next frame)) : P turn := by
  unfold onFrame at h
  split at h
  · exact Option.some.inj h ▸ hnext _
  · cases h

theorem of_onWake {next : Wake → Turn} (h : t.onWake answer next = some turn)
    (hconfirmed : t.fired → P (next .confirmed)) (hframe : ∀ frame, P (next (.frame frame))) :
    P turn := by
  unfold onWake at h
  split at h
  · next hfired => exact Option.some.inj h ▸ hconfirmed hfired
  · split at h
    · exact Option.some.inj h ▸ hframe none
    · exact of_onFrame h hframe

end Rules

end Task

end Roles

/-- Whether a task runs the joiner's side. -/
def Pc.isJoiner : Pc → Bool
  | .carding => true
  | .accepting _ => true
  | .awaitingReveal _ => true
  | .comparing => true
  | .confirmingJoin => true
  | .awaitingEnroll => true
  | .locking => true
  | .adopting => true
  | .acking => true
  | _ => false

/-! ## The device -/

/-- `Pairing`, and what is under way. -/
structure Kernel where
  /-- This device's own endpoint key. -/
  me : Bytes
  phase : Phase := .idle
  offer : Option Offer := none
  session : Option Session := none
  tasks : List Task := []
  /-- How many ceremonies have begun. -/
  begun : ℕ := 0
  /-- The ceremony that set the phase. -/
  speaker : ℕ := 0
  /-- What has happened, the latest first. -/
  log : List Event := []
  deriving DecidableEq, Repr

/-- What a claim that arrived turns out to be. -/
inductive Verdict where
  | ignore
  | refuse
  | burn (ceremony : ℕ)
  | claim (ceremony : ℕ)
  deriving DecidableEq, Repr

namespace Kernel

variable (k : Kernel) (id : ℕ)

def note (events : List Event) : Kernel :=
  { k with log := events ++ k.log }

/-- A task goes on to its next await. -/
def goto (pc : Pc) : Kernel :=
  { k with tasks := k.tasks.modify id fun t => { t with pc } }

/-- `set_phase`, by a ceremony. -/
def setPhase (ceremony : ℕ) (phase : Phase) : Kernel :=
  { k with phase, speaker := ceremony }.note [.touched ceremony k.speaker false]

/-- A ceremony takes the offer away. -/
def clearOffer (ceremony : ℕ) : Kernel :=
  match k.offer with
  | none => k
  | some offer => { k with offer := none }.note [.touched ceremony offer.ceremony false]

/-- The sender of a task's confirmation is dropped. -/
def sever (task : ℕ) : Kernel :=
  { k with tasks := k.tasks.modify task fun t => { t with severed := true } }

/-- `finish`, of a ceremony that may have been refused a session. -/
def finish (ceremony : ℕ) (refused : Bool) (outcome : Except String Unit) : Kernel :=
  match k.session with
  | none => k
  | some session =>
    let k := ({ k with session := none }.note
      [.touched ceremony session.ceremony refused]).sever session.task
    if session.cancelled then k
    else
      k.setPhase ceremony
        (match outcome with
        | .ok _ => .done
        | .error why => .failed why)

/-- The end of a role. A joiner that got as far as its claim takes the offer with it. -/
def close (t : Task) (joiner refused : Bool) (outcome : Except String Unit) : Kernel :=
  let k := k.goto id .done
  let k := if joiner then k.clearOffer t.ceremony else k
  k.finish t.ceremony refused outcome

/-- `bind_session`. -/
def bindSession (ceremony : ℕ) : Kernel :=
  { k with
    session := some { confirm := true, cancelled := false, task := id, ceremony } }.note
      [.bound ceremony]

/-- What follows `tear_down_session` in its caller. -/
def afterTear (seams : Seams) : Caller → Kernel
  | .offer =>
    let k := (k.clearOffer (k.begun + 1)).goto id .done
    { k with
      begun := k.begun + 1
      offer := some
        { token := seams.random
          expires := min (seams.now + offerTtlMs) (2 ^ 64 - 1)
          claimed := false
          ceremony := k.begun + 1 } }.setPhase (k.begun + 1) (.offering ⟨k.me, seams.random⟩)
  | .claim code =>
    let k := (k.clearOffer (k.begun + 1)).goto id .done
    let t : Task :=
      { pc := .dialing, ceremony := k.begun + 1, key := code.key, token := code.token }
    let k := k.note [.named (k.begun + 1) code]
    { k with begun := k.begun + 1, tasks := k.tasks ++ [t] }.setPhase (k.begun + 1) .claiming
  | .cancel begun => ((k.goto id .done).clearOffer begun).setPhase begun .idle
  | .burn ceremony =>
    ((k.goto id .done).clearOffer ceremony).setPhase ceremony
      (.failed "someone already tried this code; make a new one")

/-- The ceremony on whose behalf a session is torn down: the latest one, where it is the user. -/
def onBehalf : Caller → ℕ
  | .offer => k.begun
  | .claim _ => k.begun
  | .cancel begun => begun
  | .burn ceremony => ceremony

/-- `tear_down_session`, up to its first await. -/
def tearDown (caller : Caller) (seams : Seams) : Kernel :=
  match k.session with
  | none => k.afterTear id seams caller
  | some session =>
    ({ k with session := none }.note
      [.touched (k.onBehalf caller) session.ceremony false]).goto id
        (.tearing caller session.task false)

/-- What the claim of a token is. `claimed` is tested before `expires`. -/
def verdict (token : Bytes) (now : ℕ) : Verdict :=
  match k.offer with
  | none => .ignore
  | some offer =>
    if token ≠ offer.token then .ignore
    else if offer.claimed then .burn offer.ceremony
    else if offer.expires ≤ now then .refuse
    else .claim offer.ceremony

/-- The offer is spent, and the connection that claims it belongs to its ceremony. -/
def claimOffer (t : Task) : Kernel :=
  { k.note [.received t.ceremony (.claim t.token t.commit)] with
    offer := k.offer.map fun offer => { offer with claimed := true }
    tasks := k.tasks.set id t }

/-- `claimed_ceremony`, up to its first await. -/
def runClaimed (t : Task) : Kernel :=
  match k.session with
  | some _ => k.close id t true true (.error alreadyPairing)
  | none =>
    let k := (k.bindSession id t.ceremony).note [.joined id t.ceremony]
    if t.token.length ≠ 16 then k.close id t true false (.error "that code's token is malformed")
    else k.goto id .carding

/-- `run_joiner`, from the first frame. -/
def runJoiner (t : Task) (frame : Option Frame) (seams : Seams) : Kernel :=
  match frame with
  | some (.claim token commit) =>
    match k.verdict token seams.now with
    | .ignore => k.goto id .done
    -- the refusal is sent and nothing is done after it
    | .refuse => k.goto id .done
    | .burn ceremony => k.goto id (.burning ceremony false)
    | .claim ceremony =>
      let t := { t with ceremony, token, commit }
      (k.claimOffer id t).runClaimed id t
  | _ => k.goto id .done

/-- `run_adder`, up to its first await. -/
def runAdder (t : Task) (seams : Seams) : Kernel :=
  match k.session with
  | some _ => k.close id t false true (.error alreadyPairing)
  | none => (k.bindSession id t.ceremony).goto id (.claiming seams.random)

/-- A turn of a role. -/
def perform (t : Task) : Turn → Kernel
  | .goOn events pc => (k.note events).goto id pc
  | .say events phase pc => ((k.note events).setPhase t.ceremony phase).goto id pc
  | .finish outcome => k.close id t t.pc.isJoiner false outcome

/-- A task of a role gets an answer, which may be none that it waits for. -/
def respond (t : Task) : Option Turn → Kernel
  | none => k
  | some turn => k.perform id t turn

/-- The await of a task answers. -/
def wake (blake3 : Bytes → Bytes) (answer : Answer) (seams : Seams) : Kernel :=
  match k.tasks[id]? with
  | none => k
  | some t =>
    match t.pc, answer with
    -- sending and closing are over, whatever they answer
    | .tearing caller task false, .ok => k.goto id (.tearing caller task true)
    | .tearing caller task false, .err _ => k.goto id (.tearing caller task true)
    | .tearing caller task true, .ok => (k.sever task).afterTear id seams caller
    | .burning ceremony false, .ok => k.goto id (.burning ceremony true)
    | .burning ceremony false, .err _ => k.goto id (.burning ceremony true)
    | .burning ceremony true, .ok => k.tearDown id (.burn ceremony) seams
    | .dialing, .dialed key =>
      if key = t.key then (k.note [.dialed t.ceremony key]).runAdder id t seams
      else k.close id t false false (.error "that device answered with a different key")
    | .dialing, .err why => k.close id t false false (.error why)
    | .reading, .frame frame => k.runJoiner id t frame seams
    | _, _ => k.respond id t (t.turn blake3 k.me answer seams)

/-- `pairing_confirm`. -/
def confirm : Kernel :=
  match k.phase, k.session with
  | .awaitingConfirm _, some session =>
    if session.confirm then
      { k with
        session := some { session with confirm := false }
        tasks := k.tasks.modify session.task fun t => { t with fired := true } }.note
          [.confirmed k.speaker]
    else k
  | _, _ => k

/-- `pairing_status`, as far as it changes anything. -/
def status (now : ℕ) : Kernel :=
  match k.phase, k.offer with
  | .offering _, some offer =>
    if offer.expires ≤ now then
      k.setPhase offer.ceremony (.failed "this code expired; make a new one")
    else k
  | _, _ => k

/-- A call that tears down what there is, and then goes on. -/
def call (caller : Caller) (seams : Seams) : Kernel :=
  let t : Task := { pc := .done }
  { k with tasks := k.tasks ++ [t] }.tearDown k.tasks.length caller seams

end Kernel

/-- What can happen next. -/
inductive Label where
  | offer (seams : Seams)
  | claim (code : Code) (seams : Seams)
  | confirm
  | cancel
  | status (now : ℕ)
  /-- A connection comes in, from an authenticated key. -/
  | inbound (key : Bytes)
  | wake (task : ℕ) (answer : Answer) (seams : Seams)
  deriving DecidableEq, Repr

/-- One step of the device. -/
def Kernel.step (blake3 : Bytes → Bytes) (k : Kernel) : Label → Kernel
  | .offer seams => k.call .offer seams
  | .claim code seams => if code.key = k.me then k else k.call (.claim code) seams
  | .confirm => k.confirm
  | .cancel => (k.note [.cancelled k.begun]).call (.cancel k.begun) {}
  | .status now => k.status now
  | .inbound key =>
    let t : Task := { pc := .reading, key }
    if k.offer.isSome then { k with tasks := k.tasks ++ [t] } else k
  | .wake task answer seams => k.wake task blake3 answer seams

/-! ## What the slots hold -/

namespace Kernel

variable {k : Kernel} {id ceremony : ℕ}

/-- A claim is of the offer that stands, which no connection has claimed. -/
theorem verdict_eq_claim {token : Bytes} {now : ℕ} (h : k.verdict token now = .claim ceremony) :
    ∃ offer, k.offer = some offer ∧ offer.ceremony = ceremony ∧ offer.claimed = false := by
  unfold verdict at h
  split at h
  · cases h
  · next offer hoffer =>
    split at h
    · cases h
    · split at h
      · cases h
      · split at h
        · cases h
        · next hclaimed _ => exact ⟨offer, hoffer, Verdict.claim.inj h, by simpa using hclaimed⟩

/-- What is burned is the ceremony of the offer that stands. -/
theorem verdict_eq_burn {token : Bytes} {now : ℕ} (h : k.verdict token now = .burn ceremony) :
    ∃ offer, k.offer = some offer ∧ offer.ceremony = ceremony := by
  unfold verdict at h
  split at h
  · cases h
  · next offer hoffer =>
    split at h
    · cases h
    · split at h
      · exact ⟨offer, hoffer, Verdict.burn.inj h⟩
      · split at h <;> cases h

@[simp]
theorem clearOffer_offer : (k.clearOffer ceremony).offer = none := by
  unfold clearOffer
  split
  · assumption
  · rfl

@[simp]
theorem clearOffer_session : (k.clearOffer ceremony).session = k.session := by
  unfold clearOffer
  split <;> rfl

@[simp]
theorem clearOffer_phase : (k.clearOffer ceremony).phase = k.phase := by
  unfold clearOffer
  split <;> rfl

@[simp]
theorem clearOffer_tasks : (k.clearOffer ceremony).tasks = k.tasks := by
  unfold clearOffer
  split <;> rfl

@[simp]
theorem clearOffer_begun : (k.clearOffer ceremony).begun = k.begun := by
  unfold clearOffer
  split <;> rfl

@[simp]
theorem clearOffer_speaker : (k.clearOffer ceremony).speaker = k.speaker := by
  unfold clearOffer
  split <;> rfl

end Kernel

end Polyvisor.Pairing
