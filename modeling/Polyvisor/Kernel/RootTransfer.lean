import Mathlib.Logic.Function.Basic
import Polyvisor.Kernel.Seal
import Polyvisor.Lib.Fields
import Polyvisor.Lib.Transition

/-!
# The transfer of the root

`root_transfer.rs`: one device of a user hands the seed of the user's root to another one, over a
connection that tells each end the key of the other. A step is what a call does between two awaits.
What a device does besides (adoptions, syncs, imports, erasure) is a step as well, and leaves any
device behind: the protocol relies on none of it. Devices that run other code dial whom they like,
and say what they like on the connections they are an end of.

How a recipient's checkpoint and its rollback fare beside the other persists is elsewhere.

## Main results

* `receive_eq_some`: a frame is received from the bytes that it is sent as, and from no others.
* `sends_send` and `accepts_accept`: what a step of either end can be.
-/

namespace Polyvisor.RootTransfer

open Fields Transition

abbrev Key := Block 32

/-! ## Frames -/

/-- `TRANSFER_LEN`, which is `MAX_FRAME` as well. -/
def transferLen : ℕ := 1 + 32 + 32 + 32

/-- `IdentityStatus`, but for whether there is custody. -/
structure Identity where
  root : Key
  group : Key
  deriving DecidableEq

/-- `Frame`. -/
inductive Frame where
  | transfer (identity : Identity) (seed : Key)
  | persisted
  | received
  | refused
  deriving DecidableEq

/-- `encode`. -/
def encode : Frame → List UInt8
  | .transfer identity seed =>
    1 :: (identity.root.toList ++ (identity.group.toList ++ seed.toList))
  | .persisted => [2]
  | .received => [3]
  | .refused => [4]

/-- `decode`. -/
def decode : List UInt8 → Option Frame
  | [2] => some .persisted
  | [3] => some .received
  | [4] => some .refused
  | 1 :: body =>
    if body.length = transferLen - 1 then do
      let root ← asBlock 32 (body.take 32)
      let group ← asBlock 32 (slice body 32 64)
      let seed ← asBlock 32 (body.drop 64)
      return .transfer ⟨root, group⟩ seed
    else none
  | _ => none

/-- `receive`, of what came. -/
def receive (bytes : List UInt8) : Option Frame :=
  if bytes.length ≤ transferLen then decode bytes else none

theorem decode_encode (frame : Frame) : decode (encode frame) = some frame := by
  cases frame with
  | transfer identity seed =>
    have hroot := identity.root.toList_length
    have hgroup := identity.group.toList_length
    have hseed := seed.toList_length
    have hslice : slice (identity.root.toList ++ (identity.group.toList ++ seed.toList)) 32 64 =
        identity.group.toList := by
      rw [slice, List.drop_left' hroot, List.take_left' hgroup]
    have hdrop : (identity.root.toList ++ (identity.group.toList ++ seed.toList)).drop 64 =
        seed.toList := by
      rw [← List.append_assoc]
      exact List.drop_left' (by rw [List.length_append, hroot, hgroup])
    have hlength : (identity.root.toList ++ (identity.group.toList ++ seed.toList)).length =
        transferLen - 1 := by
      rw [List.length_append, List.length_append, hroot, hgroup, hseed]
      rfl
    have hblock (key : Key) : asBlock 32 key.toList = some key := asBlock_eq_some.2 rfl
    rw [encode, decode, if_pos hlength, hslice, hdrop, List.take_left' hroot, hblock, hblock,
      hblock]
    rfl
  | persisted => rfl
  | received => rfl
  | refused => rfl

/-- There is one way to write a frame. -/
theorem eq_encode_of_decode {bytes : List UInt8} {frame : Frame} (h : decode bytes = some frame) :
    bytes = encode frame := by
  unfold decode at h
  split at h
  · obtain rfl := Option.some.inj h
    rfl
  · obtain rfl := Option.some.inj h
    rfl
  · obtain rfl := Option.some.inj h
    rfl
  · next body =>
    split_ifs at h with hlength
    obtain ⟨root, hroot, h⟩ := Option.bind_eq_some_iff.1 h
    obtain ⟨group, hgroup, h⟩ := Option.bind_eq_some_iff.1 h
    obtain ⟨seed, hseed, h⟩ := Option.bind_eq_some_iff.1 h
    obtain rfl := Option.some.inj h
    rw [encode, asBlock_eq_some.1 hroot, asBlock_eq_some.1 hgroup, asBlock_eq_some.1 hseed, slice,
      ← List.drop_drop (i := 32) (j := 32), List.take_append_drop, List.take_append_drop]
  · cases h

theorem encode_injective {frame frame' : Frame} (h : encode frame = encode frame') :
    frame = frame' := by
  have hdecode := decode_encode frame
  rw [h, decode_encode] at hdecode
  exact (Option.some.inj hdecode).symm

/-- A frame is received from the bytes that it is sent as, and from no others. -/
theorem receive_eq_some {bytes : List UInt8} {frame : Frame} :
    receive bytes = some frame ↔ bytes = encode frame := by
  rw [receive]
  constructor
  · intro h
    split_ifs at h
    exact eq_encode_of_decode h
  · rintro rfl
    rw [if_pos, decode_encode]
    cases frame <;> simp [encode, transferLen]

/-! ## Devices -/

/-- `IdentityContext`. -/
structure Context where
  generation : ℕ := 0
  adopting : Bool := false
  deriving DecidableEq

/-- Whether a device can be worked with. -/
inductive Stage where
  | sealed
  | opened
  | erased
  deriving DecidableEq

/-- What a call reads of its device. -/
structure Device where
  stage : Stage := .opened
  context : Context := {}
  /-- `root_seed`. -/
  custody : Option Key := none
  /-- What the contacts document says of the user: the root, and the group of its binding. -/
  profile : Option Identity := none
  /-- `authority_group`. -/
  group : Key
  /-- `authority_members`. -/
  members : List Key := []
  /-- Whether the endpoint is bound. -/
  bound : Bool := true

/-- What a change of the identity is refused with. -/
def changed : Error := ⟨.refused, "the user identity changed during transfer"⟩

def timedOut : Error := ⟨.failed, "root transfer timed out"⟩

/-- `require_current_member`, of a key that is none. -/
def notMember : Error := ⟨.refused, "that device is not a current member"⟩

/-- Where `identity_status` awaits the engine. -/
inductive Query where
  | profile (context : Context)
  | group (context : Context) (profile : Identity)
  deriving DecidableEq

namespace Device

variable (publicKey : Key → Key) (d : Device)

/-- `open`. -/
def checkOpen : Except Error Unit :=
  match d.stage with
  | .opened => .ok ()
  | .sealed => .error ⟨.unavailable, "this device is sealed; unseal it first"⟩
  | .erased => .error ⟨.unavailable, "this device has been erased"⟩

/-- `identity_open`. -/
def identityOpen : Except Error Unit := do
  d.checkOpen
  if d.context.adopting then .error ⟨.unavailable, "the user identity is being adopted"⟩
  else .ok ()

/-- `identity_status`, up to its first await. -/
def ask : Except Error Query := do
  d.identityOpen
  return .profile d.context

/-- What `identity_status` does when a read answers: it reads on, or it is over. -/
def answer : Query → Except Error (Query ⊕ Identity)
  | .profile context =>
    match d.profile with
    | none => .error ⟨.unavailable, "the user identity is not ready"⟩
    | some profile => .ok (.inl (.group context profile))
  | .group context profile =>
    if d.context ≠ context then
      .error ⟨.unavailable, "the user identity changed during this operation"⟩
    else if profile.group ≠ d.group then
      .error ⟨.unavailable, "the public identity does not match this device's Keyhive group"⟩
    else if ∃ seed ∈ d.custody, publicKey seed ≠ profile.root then
      .error ⟨.unavailable, "local root custody does not match the public identity"⟩
    else .ok (.inr profile)

/-- The first read is of the profile. -/
theorem ask_eq_ok {d : Device} {query : Query} (h : d.ask = .ok query) :
    query = .profile d.context := by
  rw [ask] at h
  cases hopen : d.identityOpen with
  | error error =>
    rw [hopen] at h
    cases h
  | ok _ =>
    rw [hopen] at h
    cases h
    rfl

/-- The profile that is held against the group was read. -/
theorem answer_eq_group {publicKey : Key → Key} {d : Device} {query : Query} {context : Context}
    {profile : Identity} (h : d.answer publicKey query = .ok (.inl (.group context profile))) :
    d.profile = some profile := by
  cases query with
  | profile context' =>
    rw [answer] at h
    split at h
    · cases h
    next hprofile =>
      cases h
      exact hprofile
  | group context' profile' =>
    simp only [answer] at h
    split_ifs at h
    all_goals cases h

/-- An identity that is answered is of the group of the device, and of its custody. -/
theorem answer_eq_ok {publicKey : Key → Key} {d : Device} {query : Query} {identity : Identity}
    (h : d.answer publicKey query = .ok (.inr identity)) :
    query = .group d.context identity ∧ d.group = identity.group ∧
      ∀ seed ∈ d.custody, publicKey seed = identity.root := by
  cases query with
  | profile context =>
    rw [answer] at h
    split at h <;> cases h
  | group context profile =>
    simp only [answer] at h
    split_ifs at h with hcontext hgroup hcustody
    cases h
    rw [not_not] at hcontext hgroup
    refine ⟨by rw [hcontext], hgroup.symm, fun seed hseed => ?_⟩
    by_contra hne
    exact hcustody ⟨seed, hseed, hne⟩

end Device

/-! ## Both ends of a connection -/

/-- What an await is answered with. -/
inductive Answer where
  | done
  /-- The call then returns this. -/
  | failed (error : Error)
  | timeout
  /-- The connection is gone. -/
  | closed
  /-- The endpoint dialed, and this device is at the other end. -/
  | connected (peer : Key)

/-- What `root_transfer` holds on to when it dials. -/
structure Attempt where
  endpoint : String
  target : Key
  before : Identity
  context : Context

/-- `root_transfer`, once it is connected. -/
inductive Sending where
  | admitting
  | identifying (query : Query)
  | sending
  | waiting
  | confirming (query : Query)
  | readmitting
  | receipting
  | ended (result : Except Error Unit)

/-- What a recipient was given, and held when its checkpoint call answered `Ok`. -/
structure Saved where
  identity : Identity
  seed : Key
  deriving DecidableEq

/-- `root_transfer_accept`. -/
inductive Receiving where
  /-- The connection was not accepted yet. -/
  | idle
  | admitting
  | identifying (query : Query)
  | receiving (before : Identity) (context : Context)
  | readmitting (before : Identity) (context : Context) (sent : Saved)
  | reidentifying (before : Identity) (context : Context) (sent : Saved) (query : Query)
  /-- The seed is in custody, and its checkpoint is under way. -/
  | saving (context : Context) (sent : Saved) (previous : Option Key)
  /-- It failed, and the checkpoint of the rollback is under way. -/
  | rolling
  | replying (outcome : Option Saved)
  /-- `RECEIVED` is waited for. -/
  | receipt (saved : Saved)
  | ended (outcome : Option Saved)

/-- A connection. Each end reads in order what the other one said, as far as it gets. -/
structure Conn where
  dialer : Key
  acceptor : Key
  attempt : Attempt
  out : Sending
  inc : Receiving := .idle
  fromDialer : List (List UInt8) := []
  fromAcceptor : List (List UInt8) := []
  readByDialer : ℕ := 0
  readByAcceptor : ℕ := 0

namespace Conn

variable (publicKey : Key → Key) (d : Device) (c : Conn)

/-- `root_transfer` returns an error, and closes the connection. -/
def fail (error : Error) : Conn :=
  { c with out := .ended (.error error) }

/-- The dialer asks for its identity. -/
def query (next : Query → Sending) : Conn :=
  match d.ask with
  | .error error => c.fail error
  | .ok query => { c with out := next query }

/-- The identity of the dialer is known, and its custody goes out. -/
def transfer (identity : Identity) : Conn :=
  -- the same identity in another context is another one
  if d.context ≠ c.attempt.context ∨ identity ≠ c.attempt.before then c.fail changed
  else
    match d.custody with
    | none =>
      c.fail ⟨.refused,
        "this device does not hold the user root; transfer or unlock it first"⟩
    | some seed =>
      { c with
        out := .sending
        fromDialer := c.fromDialer ++ [encode (.transfer identity seed)] }

/-- What `root_transfer` does with the answer to its seed. -/
def acknowledged (bytes : List UInt8) : Conn :=
  match receive bytes with
  -- the recipient checkpoints before it says so
  | some .persisted =>
    if d.context ≠ c.attempt.context then c.fail changed
    else { c with readByDialer := c.readByDialer + 1 }.query d .confirming
  | some .refused => c.fail ⟨.refused, "the recipient refused root custody"⟩
  | _ => c.fail ⟨.failed, "the recipient did not acknowledge persisted root custody"⟩

/-- What `root_transfer` does when an await is answered. -/
def send (a : Answer) : Conn :=
  match c.out, a with
  | .admitting, .done =>
    if c.acceptor ∈ d.members then c.query d .identifying else c.fail notMember
  | .identifying query, .done =>
    match d.answer publicKey query with
    | .error error => c.fail error
    | .ok (.inl query) => { c with out := .identifying query }
    | .ok (.inr identity) => c.transfer d identity
  | .sending, .done => { c with out := .waiting }
  | .waiting, .done =>
    match c.fromAcceptor[c.readByDialer]? with
    | none => c
    | some bytes => c.acknowledged d bytes
  | .waiting, .closed =>
    c.fail ⟨.failed, "the recipient did not acknowledge persisted root custody"⟩
  | .confirming query, .done =>
    match d.answer publicKey query with
    | .error error => c.fail error
    | .ok (.inl query) => { c with out := .confirming query }
    | .ok (.inr identity) =>
      if identity ≠ c.attempt.before then c.fail changed else { c with out := .readmitting }
  | .readmitting, .done =>
    -- a device that was removed in the meantime gets no receipt
    if c.acceptor ∈ d.members then
      { c with out := .receipting, fromDialer := c.fromDialer ++ [encode .received] }
    else c.fail notMember
  | .receipting, .done => { c with out := .ended (.ok ()) }
  -- a wait for the network is bounded, a read of the engine is not
  | .sending, .timeout | .waiting, .timeout | .receipting, .timeout => c.fail timedOut
  | .admitting, .failed error | .identifying _, .failed error | .sending, .failed error
  | .confirming _, .failed error | .readmitting, .failed error | .receipting, .failed error =>
    c.fail error
  | _, _ => c

/-- `receive_root_transfer` returns an error. -/
def refuse : Conn :=
  { c with inc := .replying none, fromAcceptor := c.fromAcceptor ++ [encode .refused] }

/-- The acceptor asks for its identity. -/
def requery (next : Query → Receiving) : Conn :=
  match d.ask with
  | .error _ => c.refuse
  | .ok query => { c with inc := next query }

/-- `accept_loop` hands the connection over. -/
def arrive : Conn :=
  match c.inc with
  | .idle =>
    match d.identityOpen with
    | .error _ => c.refuse
    | .ok _ => { c with inc := .admitting }
  | _ => c

/-- The acceptor's identity is known, and what was sent is for it. -/
def install (before : Identity) (context : Context) (sent : Saved) (identity : Identity) :
    Device × Conn :=
  if d.context ≠ context ∨ before ≠ identity then (d, c.refuse)
  else if sent.identity ≠ identity ∨ publicKey sent.seed ≠ sent.identity.root then (d, c.refuse)
  -- `with_device` panics where there is no record
  else if d.stage ≠ .opened then (d, { c with inc := .ended none })
  else
    -- custody changes before the checkpoint that writes it
    ({ d with custody := some sent.seed }, { c with inc := .saving context sent d.custody })

/-- What `root_transfer_accept` does when an await is answered. -/
def accept (a : Answer) : Device × Conn :=
  match c.inc, a with
  | .admitting, .done =>
    (d, if c.dialer ∈ d.members then c.requery d .identifying else c.refuse)
  | .identifying query, .done =>
    (d, match d.answer publicKey query with
      | .error _ => c.refuse
      | .ok (.inl query) => { c with inc := .identifying query }
      | .ok (.inr identity) => { c with inc := .receiving identity d.context })
  | .receiving before context, .done =>
    (d, match c.fromDialer[c.readByAcceptor]? with
      | none => c
      | some bytes =>
        match receive bytes with
        | some (.transfer identity seed) =>
          { c with
            inc := .readmitting before context ⟨identity, seed⟩
            readByAcceptor := c.readByAcceptor + 1 }
        | _ => c.refuse)
  | .readmitting before context sent, .done =>
    (d, if c.dialer ∈ d.members then c.requery d (.reidentifying before context sent)
      else c.refuse)
  | .reidentifying before context sent query, .done =>
    match d.answer publicKey query with
    | .error _ => (d, c.refuse)
    | .ok (.inl query) => (d, { c with inc := .reidentifying before context sent query })
    | .ok (.inr identity) => c.install publicKey d before context sent identity
  | .saving context sent _, .done =>
    (d, if d.context ≠ context then c.refuse
      else
        { c with
          inc := .replying (some sent)
          fromAcceptor := c.fromAcceptor ++ [encode .persisted] })
  -- custody goes back, and a checkpoint follows that writes the rollback
  | .saving context _ previous, .failed _ =>
    if d.context ≠ context then (d, c.refuse)
    else if d.stage ≠ .opened then (d, { c with inc := .ended none })
    else ({ d with custody := previous }, { c with inc := .rolling })
  | .rolling, .done | .rolling, .failed _ => (d, c.refuse)
  | .replying outcome, .done =>
    (d, { c with inc := outcome.elim (.ended none) .receipt })
  | .replying outcome, .failed _ | .replying outcome, .timeout =>
    (d, { c with inc := .ended outcome })
  -- whatever comes, or nothing
  | .receipt saved, _ => (d, { c with inc := .ended (some saved) })
  | .receiving _ _, .closed | .receiving _ _, .timeout => (d, c.refuse)
  | .admitting, .failed _ | .identifying _, .failed _ | .readmitting _ _ _, .failed _
  | .reidentifying _ _ _ _, .failed _ => (d, c.refuse)
  | _, _ => (d, c)

end Conn

/-! ## The network -/

/-- `root_transfer`, up to its connection. -/
inductive Outgoing where
  | naming (endpoint : String)
  | before (endpoint : String) (target : Key) (query : Query)
  | dialing (attempt : Attempt)
  | ended (result : Except Error Unit)
  /-- Its connection has it. -/
  | connected

/-- What is elsewhere: ed25519, and how the endpoint spells keys; and the devices that run this
code. -/
structure World where
  publicKey : Key → Key
  endpointId : Key → String
  honest : Key → Bool

structure Net where
  devices : Key → Device
  calls : List (Key × Outgoing) := []
  conns : List Conn := []

inductive Label where
  /-- `root_transfer` is called. -/
  | transfer (key : Key) (endpoint : String)
  /-- An await of a call that is not connected yet is answered. -/
  | call (i : ℕ) (a : Answer)
  | dialer (n : ℕ) (a : Answer)
  | arrive (n : ℕ)
  | acceptor (n : ℕ) (a : Answer)
  /-- What other code does: it dials, with whatever in mind, and it speaks at either end. -/
  | dial (dialer acceptor : Key) (attempt : Attempt)
  | sayDialer (n : ℕ) (bytes : List UInt8)
  | sayAcceptor (n : ℕ) (bytes : List UInt8)
  /-- What a device does besides. -/
  | elsewhere (key : Key) (device : Device)

namespace Outgoing

variable (w : World) (key : Key) (d : Device)

/-- `root_transfer` is called. -/
def start (endpoint : String) : Outgoing :=
  match d.identityOpen with
  | .error error => .ended (.error error)
  | .ok _ => .naming endpoint

/-- What `root_transfer` does when an await is answered, before it is connected. -/
def answer (call : Outgoing) (a : Answer) : Outgoing :=
  match call, a with
  | .naming endpoint, .done =>
    match d.members.find? fun member => w.endpointId member = endpoint with
    | none => .ended (.error ⟨.refused, "that endpoint is not a current member"⟩)
    -- an endpoint is found among the members, so that its key is one of theirs
    | some target =>
      if target = key then .ended (.error ⟨.refused, "root custody is already on this device"⟩)
      else
        match d.ask with
        | .error error => .ended (.error error)
        | .ok query => .before endpoint target query
  | .before endpoint target query, .done =>
    match d.answer w.publicKey query with
    | .error error => .ended (.error error)
    | .ok (.inl query) => .before endpoint target query
    | .ok (.inr identity) =>
      if d.bound then .dialing ⟨endpoint, target, identity, d.context⟩
      else .ended (.error ⟨.unavailable, "this device endpoint is not ready"⟩)
  | .dialing _, .timeout => .ended (.error timedOut)
  | .naming _, .failed error | .before _ _ _, .failed error | .dialing _, .failed error =>
    .ended (.error error)
  | call, _ => call

end Outgoing

/-- `root_transfer` has its connection, and goes on if it reached the device that was named. -/
def connect (key peer : Key) (attempt : Attempt) : Conn where
  dialer := key
  acceptor := peer
  attempt := attempt
  out :=
    if peer = attempt.target then .admitting
    else .ended (.error ⟨.refused, "a different device answered the selected endpoint"⟩)

namespace Net

variable (w : World) (k : Net)

def put (n : ℕ) (c : Conn) : Net :=
  { k with conns := k.conns.set n c }

def step (k : Net) : Label → Net
  | .transfer key endpoint =>
    if w.honest key then
      { k with calls := k.calls ++ [(key, .start (k.devices key) endpoint)] }
    else k
  | .call i a =>
    match k.calls[i]?, a with
    | some (key, .dialing attempt), .connected peer =>
      { k with
        calls := k.calls.set i (key, .connected)
        conns := k.conns ++ [connect key peer attempt] }
    | some (key, call), _ =>
      { k with calls := k.calls.set i (key, call.answer w key (k.devices key) a) }
    | none, _ => k
  | .dialer n a =>
    match k.conns[n]? with
    | some c =>
      if w.honest c.dialer then k.put n (c.send w.publicKey (k.devices c.dialer) a) else k
    | none => k
  | .arrive n =>
    match k.conns[n]? with
    | some c => if w.honest c.acceptor then k.put n (c.arrive (k.devices c.acceptor)) else k
    | none => k
  | .acceptor n a =>
    match k.conns[n]? with
    | some c =>
      if w.honest c.acceptor then
        { k.put n (c.accept w.publicKey (k.devices c.acceptor) a).2 with
          devices := Function.update k.devices c.acceptor
            (c.accept w.publicKey (k.devices c.acceptor) a).1 }
      else k
    | none => k
  | .dial dialer acceptor attempt =>
    -- a kernel dials by a call only
    if w.honest dialer then k else { k with conns := k.conns ++ [connect dialer acceptor attempt] }
  | .sayDialer n bytes =>
    match k.conns[n]? with
    | some c =>
      if w.honest c.dialer then k else k.put n { c with fromDialer := c.fromDialer ++ [bytes] }
    | none => k
  | .sayAcceptor n bytes =>
    match k.conns[n]? with
    | some c =>
      if w.honest c.acceptor then k
      else k.put n { c with fromAcceptor := c.fromAcceptor ++ [bytes] }
    | none => k
  | .elsewhere key device => { k with devices := Function.update k.devices key device }

end Net

/-! ## What a step of either end is -/

namespace Conn

/-- What an answer makes of a dialing end. -/
inductive Sends (publicKey : Key → Key) (d : Device) (c : Conn) : Conn → Prop where
  | stay : Sends publicKey d c c
  | fail (error : Error) (read : ℕ) :
    Sends publicKey d c { c with out := .ended (.error error), readByDialer := read }
  | admitted (query : Query) (hout : c.out = .admitting) (hmember : c.acceptor ∈ d.members) :
    Sends publicKey d c { c with out := .identifying query }
  | read (query query' : Query) (hout : c.out = .identifying query) :
    Sends publicKey d c { c with out := .identifying query' }
  /-- The seed goes out. -/
  | transferred (query : Query) (seed : Key) (hout : c.out = .identifying query)
    (hcontext : d.context = c.attempt.context) (hcustody : d.custody = some seed)
    (hgroup : d.group = c.attempt.before.group)
    (hkey : publicKey seed = c.attempt.before.root) :
    Sends publicKey d c
      { c with
        out := .sending
        fromDialer := c.fromDialer ++ [encode (.transfer c.attempt.before seed)] }
  | sent (hout : c.out = .sending) : Sends publicKey d c { c with out := .waiting }
  | acknowledged (query : Query) (read : ℕ) (hout : c.out = .waiting)
    (hframe : encode .persisted ∈ c.fromAcceptor) :
    Sends publicKey d c { c with out := .confirming query, readByDialer := read }
  | reread (query query' : Query) (hout : c.out = .confirming query) :
    Sends publicKey d c { c with out := .confirming query' }
  | confirmed (query : Query) (hout : c.out = .confirming query) :
    Sends publicKey d c { c with out := .readmitting }
  | readmitted (hout : c.out = .readmitting) (hmember : c.acceptor ∈ d.members) :
    Sends publicKey d c
      { c with out := .receipting, fromDialer := c.fromDialer ++ [encode .received] }
  | returned (hout : c.out = .receipting) : Sends publicKey d c { c with out := .ended (.ok ()) }

section Send

variable {publicKey : Key → Key} {d : Device} {c : Conn}

theorem Sends.ofFail (error : Error) : Sends publicKey d c (c.fail error) :=
  .fail error c.readByDialer

theorem sends_transfer {query : Query} {identity : Identity} (hout : c.out = .identifying query)
    (h : d.answer publicKey query = .ok (.inr identity)) :
    Sends publicKey d c (c.transfer d identity) := by
  obtain ⟨-, hgroup, hkey⟩ := Device.answer_eq_ok h
  rw [transfer]
  split_ifs with hchanged
  · exact .ofFail _
  -- past both checks the identity is the one that the call began with
  · obtain ⟨hcontext, rfl⟩ := not_or.1 hchanged |>.imp not_not.1 not_not.1
    split
    · exact .ofFail _
    · next seed hcustody =>
      exact .transferred query seed hout hcontext hcustody hgroup (hkey seed hcustody)

theorem sends_acknowledged {bytes : List UInt8} (hout : c.out = .waiting)
    (hbytes : bytes ∈ c.fromAcceptor) : Sends publicKey d c (c.acknowledged d bytes) := by
  rw [acknowledged]
  split
  · next hreceive =>
    -- no other bytes read as this frame
    rw [receive_eq_some.1 hreceive] at hbytes
    split_ifs
    · exact .ofFail _
    · rw [query]
      split
      · exact .fail _ _
      · exact .acknowledged _ _ hout hbytes
  · exact .ofFail _
  · exact .ofFail _

/-- A step of the dialing end is one of these. -/
theorem sends_send (a : Answer) : Sends publicKey d c (c.send publicKey d a) := by
  unfold send
  split
  · next hout =>
    split_ifs with hmember
    · rw [query]
      split
      · exact .ofFail _
      · exact .admitted _ hout hmember
    · exact .ofFail _
  · next query hout =>
    split
    · exact .ofFail _
    · exact .read _ _ hout
    · next hanswer => exact sends_transfer hout hanswer
  · next hout => exact .sent hout
  · next hout =>
    split
    · exact .stay
    · next hbytes => exact sends_acknowledged hout (List.mem_of_getElem? hbytes)
  · exact .ofFail _
  · next hout =>
    split
    · exact .ofFail _
    · exact .reread _ _ hout
    · split_ifs
      · exact .ofFail _
      · exact .confirmed _ hout
  · next hout =>
    split_ifs with hmember
    · exact .readmitted hout hmember
    · exact .ofFail _
  · next hout => exact .returned hout
  all_goals first | exact .ofFail _ | exact .stay

end Send

/-- What an acceptor has put on the connection yet is nothing. -/
def Receiving.Silent : Receiving → Prop
  | .replying _ | .receipt _ | .ended _ => False
  | _ => True

/-- What an answer makes of an accepting end, and of its device. -/
inductive Accepts (publicKey : Key → Key) (d : Device) (c : Conn) : Device → Conn → Prop where
  | stay : Accepts publicKey d c d c
  | refuse (hsilent : Receiving.Silent c.inc) : Accepts publicKey d c d c.refuse
  /-- The kernel is gone. -/
  | crash (hsilent : Receiving.Silent c.inc) :
    Accepts publicKey d c d { c with inc := .ended none }
  | arrived (hinc : c.inc = .idle) : Accepts publicKey d c d { c with inc := .admitting }
  | admitted (query : Query) (hinc : c.inc = .admitting) (hmember : c.dialer ∈ d.members) :
    Accepts publicKey d c d { c with inc := .identifying query }
  | read (query query' : Query) (hinc : c.inc = .identifying query) :
    Accepts publicKey d c d { c with inc := .identifying query' }
  | identified (query : Query) (before : Identity) (context : Context)
    (hinc : c.inc = .identifying query) :
    Accepts publicKey d c d { c with inc := .receiving before context }
  | received (before : Identity) (context : Context) (sent : Saved) (read : ℕ)
    (hinc : c.inc = .receiving before context)
    (hframe : encode (.transfer sent.identity sent.seed) ∈ c.fromDialer) :
    Accepts publicKey d c d
      { c with inc := .readmitting before context sent, readByAcceptor := read }
  | readmitted (before : Identity) (context asked : Context) (sent : Saved)
    (hinc : c.inc = .readmitting before context sent) (hmember : c.dialer ∈ d.members) :
    Accepts publicKey d c d { c with inc := .reidentifying before context sent (.profile asked) }
  | reread (before : Identity) (context : Context) (sent : Saved) (query query' : Query)
    (hinc : c.inc = .reidentifying before context sent query)
    (hprofile : ∀ asked profile, query' = .group asked profile → d.profile = some profile) :
    Accepts publicKey d c d { c with inc := .reidentifying before context sent query' }
  /-- The seed is in custody. -/
  | installed (context : Context) (sent : Saved)
    (hinc : c.inc = .reidentifying sent.identity context sent (.group context sent.identity))
    (hcontext : d.context = context) (hgroup : d.group = sent.identity.group)
    (hkey : publicKey sent.seed = sent.identity.root) :
    Accepts publicKey d c { d with custody := some sent.seed }
      { c with inc := .saving context sent d.custody }
  | rolledBack (context : Context) (sent : Saved) (previous : Option Key)
    (hinc : c.inc = .saving context sent previous) :
    Accepts publicKey d c { d with custody := previous } { c with inc := .rolling }
  | persisted (context : Context) (sent : Saved) (previous : Option Key)
    (hinc : c.inc = .saving context sent previous) (hcontext : d.context = context) :
    Accepts publicKey d c d
      { c with
        inc := .replying (some sent)
        fromAcceptor := c.fromAcceptor ++ [encode .persisted] }
  | replied (outcome : Option Saved) (hinc : c.inc = .replying outcome) :
    Accepts publicKey d c d { c with inc := outcome.elim (.ended none) .receipt }
  | gaveUp (outcome : Option Saved) (hinc : c.inc = .replying outcome) :
    Accepts publicKey d c d { c with inc := .ended outcome }
  | receipted (saved : Saved) (hinc : c.inc = .receipt saved) :
    Accepts publicKey d c d { c with inc := .ended (some saved) }

section Accept

variable {publicKey : Key → Key} {d : Device} {c : Conn}

theorem accepts_requery {next : Query → Receiving} (hsilent : Receiving.Silent c.inc)
    (h : ∀ asked, Accepts publicKey d c d { c with inc := next (.profile asked) }) :
    Accepts publicKey d c d (c.requery d next) := by
  rw [requery]
  split
  · exact .refuse hsilent
  · next hask =>
    rw [Device.ask_eq_ok hask]
    exact h _

theorem accepts_arrive : Accepts publicKey d c d (c.arrive d) := by
  rw [arrive]
  split
  · next hinc =>
    split
    · exact .refuse (by simp [hinc, Receiving.Silent])
    · exact .arrived hinc
  · exact .stay

theorem accepts_install {before identity : Identity} {context : Context} {sent : Saved}
    {query : Query} (hinc : c.inc = .reidentifying before context sent query)
    (h : d.answer publicKey query = .ok (.inr identity)) :
    Accepts publicKey d c (c.install publicKey d before context sent identity).1
      (c.install publicKey d before context sent identity).2 := by
  have hsilent : Receiving.Silent c.inc := by simp [hinc, Receiving.Silent]
  obtain ⟨rfl, hgroup, -⟩ := Device.answer_eq_ok h
  rw [install]
  split_ifs with hchanged hother hstage
  · exact .refuse hsilent
  · exact .refuse hsilent
  · exact .crash hsilent
  · obtain ⟨hcontext, rfl⟩ := not_or.1 hchanged |>.imp not_not.1 not_not.1
    obtain ⟨rfl, hkey⟩ := not_or.1 hother |>.imp not_not.1 not_not.1
    exact .installed context sent (hcontext ▸ hinc) hcontext hgroup hkey

/-- A step of the accepting end is one of these. -/
theorem accepts_accept (a : Answer) :
    Accepts publicKey d c (c.accept publicKey d a).1 (c.accept publicKey d a).2 := by
  have hsilent {inc : Receiving} (hinc : c.inc = inc) (h : Receiving.Silent inc) :
      Receiving.Silent c.inc := hinc ▸ h
  unfold accept
  split
  · next hinc =>
    split_ifs with hmember
    · exact accepts_requery (hsilent hinc trivial) fun asked => .admitted _ hinc hmember
    · exact .refuse (hsilent hinc trivial)
  · next hinc =>
    split
    · exact .refuse (hsilent hinc trivial)
    · exact .read _ _ hinc
    · exact .identified _ _ _ hinc
  · next hinc =>
    split
    · exact .stay
    · next bytes hbytes =>
      split
      · next identity seed hreceive =>
        refine .received _ _ ⟨identity, seed⟩ _ hinc ?_
        rw [← receive_eq_some.1 hreceive]
        exact List.mem_of_getElem? hbytes
      · exact .refuse (hsilent hinc trivial)
  · next hinc =>
    split_ifs with hmember
    · exact accepts_requery (hsilent hinc trivial) fun asked =>
        .readmitted _ _ asked _ hinc hmember
    · exact .refuse (hsilent hinc trivial)
  · next hinc =>
    split
    · exact .refuse (hsilent hinc trivial)
    · next hanswer =>
      refine .reread _ _ _ _ _ hinc ?_
      rintro asked profile rfl
      exact Device.answer_eq_group hanswer
    · next hanswer => exact accepts_install hinc hanswer
  · next hinc =>
    split_ifs with hcontext
    · exact .refuse (hsilent hinc trivial)
    · exact .persisted _ _ _ hinc (not_not.1 hcontext)
  · next hinc =>
    split_ifs
    · exact .refuse (hsilent hinc trivial)
    · exact .crash (hsilent hinc trivial)
    · exact .rolledBack _ _ _ hinc
  · next hinc => exact .refuse (hsilent hinc trivial)
  · next hinc => exact .refuse (hsilent hinc trivial)
  · next hinc => exact .replied _ hinc
  · next hinc => exact .gaveUp _ hinc
  · next hinc => exact .gaveUp _ hinc
  · next hinc => exact .receipted _ hinc
  -- what is left is an error, or an answer that nobody waits for
  all_goals first
    | exact .stay
    | rename_i hinc
      exact .refuse (hsilent hinc trivial)

end Accept

end Conn

end Polyvisor.RootTransfer
