import Polyvisor.Kernel.Meeting
import Polyvisor.Lib.Course

/-!
# Six digits

What the short authentication string of a pairing and of a meeting stands for. The four roles are
`run_adder` and `run_joiner` of `kernel/src/pairing.rs` and `meeting_run_guest` and
`meeting_run_host` of `kernel/src/meeting.rs`, from the first frame to the digits; what their awaits
answer is arbitrary, and so is the peer. `Pairing` and `Meeting` have the same roles inside a device
and without what they send.

A key, a token and a nonce are arrays in the source. An introduction is bounded where it is signed
and where it is verified, far below what its length prefix can say.

## Main results

* `Pairing.Transcript.bytes_injective`, `Meeting.Transcript.bytes_injective`: what is hashed says
  what went into it.
* `Adder.spec`, `Joiner.spec`, `Guest.spec`, `Host.spec`: what each role sends and when, and which
  digits it shows.
* `sas_binds`: all of it, and that two honest ends show the same.
-/

namespace Polyvisor.Sas

open Pairing (sixDigits)

abbrev Bytes := List UInt8

/-- `[u8; n]`. -/
abbrev Fixed (n : ℕ) : Type :=
  { bytes : Bytes // bytes.length = n }

/-- The bytes of a signed introduction, as far as their length has a prefix. -/
abbrev Introduction : Type :=
  { bytes : Bytes // bytes.length < 2 ^ 32 }

/-- `MAX_SIGNED_BYTES`. -/
def maxSignedBytes : ℕ := 256 * 1024

/-! ## What is hashed -/

/-- What the digits of a pairing are made of. -/
structure Pairing.Transcript where
  token : Fixed 16
  joinerKey : Fixed 32
  adderKey : Fixed 32
  nonceJ : Fixed 32
  nonceA : Fixed 32

/-- What the digits of a meeting are made of. -/
structure Meeting.Transcript where
  token : Fixed 16
  guestKey : Fixed 32
  hostKey : Fixed 32
  guest : Introduction
  host : Introduction
  guestNonce : Fixed 32
  hostNonce : Fixed 32

namespace Pairing.Transcript

/-- The bytes that are hashed. -/
def bytes (t : Transcript) : Bytes :=
  1 :: t.token.val ++ t.joinerKey.val ++ t.adderKey.val ++ t.nonceJ.val ++ t.nonceA.val

/-- `sas`. -/
def digits (blake3 : Bytes → Bytes) (t : Transcript) : String :=
  Polyvisor.Pairing.sas blake3 t.token t.joinerKey t.adderKey t.nonceJ t.nonceA

theorem digits_eq (blake3 : Bytes → Bytes) (t : Transcript) :
    t.digits blake3 = sixDigits (blake3 t.bytes) := rfl

end Pairing.Transcript

namespace Meeting.Transcript

def fields (t : Transcript) : List Bytes :=
  [t.token, t.guestKey, t.hostKey, t.guest, t.host, t.guestNonce, t.hostNonce]

/-- The bytes that are hashed. -/
def bytes (t : Transcript) : Bytes :=
  "polyvisor:meeting:sas:v0\x00".toUTF8.toList ++ (t.fields.map Polyvisor.Meeting.field).flatten

/-- `sas`. -/
def digits (blake3 : Bytes → Bytes) (t : Transcript) : String :=
  Polyvisor.Meeting.sas blake3 t.token t.guestKey t.hostKey t.guest t.host t.guestNonce t.hostNonce

theorem digits_eq (blake3 : Bytes → Bytes) (t : Transcript) :
    t.digits blake3 = sixDigits (blake3 t.bytes) := rfl

end Meeting.Transcript

/-! ### It says what went into it -/

theorem fixed_append_inj {n : ℕ} {a b : Fixed n} {x y : Bytes} (h : a.val ++ x = b.val ++ y) :
    a = b ∧ x = y := by
  obtain ⟨hval, hrest⟩ := List.append_inj h (a.2.trans b.2.symm)
  exact ⟨Subtype.ext hval, hrest⟩

/-- A length in front of the bytes tells where they end. -/
theorem field_append_inj {a b x y : Bytes} (ha : a.length < 2 ^ 32) (hb : b.length < 2 ^ 32)
    (h : Polyvisor.Meeting.field a ++ x = Polyvisor.Meeting.field b ++ y) : a = b ∧ x = y := by
  rw [Polyvisor.Meeting.field, Polyvisor.Meeting.field, List.append_assoc, List.append_assoc] at h
  obtain ⟨hframe, hrest⟩ := List.append_inj h
    ((BigEndian.length_toBytes _ _).trans (BigEndian.length_toBytes _ _).symm)
  have hlength : a.length = b.length := BigEndian.toBytes_inj ha hb hframe
  exact List.append_inj hrest hlength

/-- A list of fields, each with its length in front, is read back field by field. -/
theorem fields_inj {as bs : List Bytes} (hlength : as.length = bs.length)
    (ha : ∀ a ∈ as, a.length < 2 ^ 32) (hb : ∀ b ∈ bs, b.length < 2 ^ 32)
    (h : (as.map Polyvisor.Meeting.field).flatten = (bs.map Polyvisor.Meeting.field).flatten) :
    as = bs := by
  induction as generalizing bs with
  | nil => exact (List.length_eq_zero_iff.1 hlength.symm).symm
  | cons a as ih =>
    rcases bs with _ | ⟨b, bs⟩
    · exact absurd hlength (Nat.succ_ne_zero _)
    rw [List.map_cons, List.map_cons, List.flatten_cons, List.flatten_cons] at h
    obtain ⟨ha, has⟩ := List.forall_mem_cons.1 ha
    obtain ⟨hb, hbs⟩ := List.forall_mem_cons.1 hb
    obtain ⟨rfl, hrest⟩ := field_append_inj ha hb h
    rw [ih (Nat.succ.inj hlength) has hbs hrest]

theorem Pairing.Transcript.bytes_injective : Function.Injective Transcript.bytes := by
  rintro ⟨token, joinerKey, adderKey, nonceJ, nonceA⟩ ⟨token', joinerKey', adderKey', nonceJ',
    nonceA'⟩ h
  simp only [bytes, List.cons_append, List.append_assoc, List.cons.injEq, true_and] at h
  obtain ⟨rfl, hkeys⟩ := fixed_append_inj h
  obtain ⟨rfl, hadder⟩ := fixed_append_inj hkeys
  obtain ⟨rfl, hnonces⟩ := fixed_append_inj hadder
  obtain ⟨rfl, hlast⟩ := fixed_append_inj hnonces
  obtain rfl := Subtype.ext hlast
  rfl

theorem Meeting.Transcript.length_lt_of_mem (t : Transcript) {bytes : Bytes}
    (h : bytes ∈ t.fields) : bytes.length < 2 ^ 32 := by
  have hfixed {n : ℕ} (hn : n < 2 ^ 32) (bytes : Fixed n) : bytes.val.length < 2 ^ 32 := by
    rw [bytes.2]
    exact hn
  simp only [fields, List.mem_cons, List.not_mem_nil, or_false] at h
  rcases h with rfl | rfl | rfl | rfl | rfl | rfl | rfl
  · exact hfixed (by decide) _
  · exact hfixed (by decide) _
  · exact hfixed (by decide) _
  · exact t.guest.2
  · exact t.host.2
  · exact hfixed (by decide) _
  · exact hfixed (by decide) _

theorem Meeting.Transcript.bytes_injective : Function.Injective Transcript.bytes := by
  intro t t' h
  have hfields : t.fields = t'.fields :=
    fields_inj rfl (fun _ => t.length_lt_of_mem) (fun _ => t'.length_lt_of_mem)
      (List.append_cancel_left h)
  obtain ⟨token, guestKey, hostKey, guest, host, guestNonce, hostNonce⟩ := t
  obtain ⟨token', guestKey', hostKey', guest', host', guestNonce', hostNonce'⟩ := t'
  simp only [fields, List.cons.injEq, and_true] at hfields
  obtain ⟨htoken, hguestKey, hhostKey, hguest, hhost, hguestNonce, hhostNonce⟩ := hfields
  simp only [mk.injEq, Subtype.ext_iff]
  exact ⟨htoken, hguestKey, hhostKey, hguest, hhost, hguestNonce, hhostNonce⟩

/-- A pairing and a meeting hash different bytes: the first one tells them apart. -/
theorem pairing_ne_meeting (t : Pairing.Transcript) (t' : Meeting.Transcript) :
    t.bytes ≠ t'.bytes := by
  intro h
  have hpairing : t.bytes.head? = some 1 := rfl
  have hdomain : "polyvisor:meeting:sas:v0\x00".toUTF8.toList.head? = some 112 := by decide +kernel
  have hmeeting : t'.bytes.head? = some 112 := by
    rw [Meeting.Transcript.bytes, List.head?_append, hdomain, Option.some_or]
  rw [h, hmeeting] at hpairing
  exact absurd hpairing (by decide)


/-! ## The four roles -/

/-- What a role does that the other side or its user can see. -/
inductive Event (F : Type) where
  /-- A frame is handed to the transport, which may fail to carry it. -/
  | sent (frame : F)
  | got (frame : F)
  | shown (digits : String)

abbrev Ceremony (F α : Type) : Type := Course (Event F) String α

section Wire

variable {F : Type}

/-- `send_frame`. -/
def sendFrame (frame : F) (answer : Except String Unit) : Ceremony F Unit := do
  Course.emit (.sent frame)
  Course.lift answer

/-- `frames.next()`: the end of the connection leaves nothing. -/
def next (frame : Option F) : Ceremony F (Option F) := do
  if let some frame := frame then Course.emit (.got frame)
  return frame

end Wire

/-- `try_into`. -/
def tryInto (n : ℕ) (bytes : Bytes) (malformed : String) : Except String (Fixed n) :=
  if h : bytes.length = n then .ok ⟨bytes, h⟩ else .error malformed

/-- What a claim that arrived turns out to be. -/
inductive Verdict where
  | ignore
  | refuse
  | burn
  | claim

namespace Pairing

open Polyvisor.Pairing (Frame cancelled gone outOfOrder malformedNonce)

/-- A frame that is not the one to come. -/
def refuseFrame {α : Type} : Option Frame → Ceremony Frame α
  | some .cancel => Course.fail cancelled
  | some _ => Course.fail outOfOrder
  | none => Course.fail gone

/-- What `run_adder` has, and what its awaits answer. -/
structure Adder where
  adderKey : Fixed 32
  joinerKey : Fixed 32
  token : Fixed 16
  nonceA : Fixed 32
  bindSession : Except String Unit
  sendClaim : Except String Unit
  /-- The frame that answers the claim. -/
  accept : Option Frame
  sendReveal : Except String Unit
  /-- Whether the device's own key is there. -/
  selfKey : Except String Unit

/-- What the joiner accepts with. -/
def Adder.readAccept (a : Adder) : Ceremony Frame (Fixed 32) := do
  match ← next a.accept with
  | some (.accept nonce key _petname _card) =>
    if key ≠ a.joinerKey then Course.fail "that device answered for a different key"
    else Course.lift (tryInto 32 nonce malformedNonce)
  | some .refused => Course.fail "that code is spent or expired; ask that device for a new one"
  | frame => refuseFrame frame

/-- `run_adder`, up to the digits. -/
def Adder.run (blake3 : Bytes → Bytes) (a : Adder) : Ceremony Frame Unit := do
  Course.lift a.bindSession
  sendFrame (.claim a.token (blake3 a.nonceA)) a.sendClaim
  let nonceJ ← a.readAccept
  sendFrame (.reveal a.nonceA) a.sendReveal
  Course.lift a.selfKey
  Course.emit
    (.shown (Transcript.digits blake3 ⟨a.token, a.joinerKey, a.adderKey, nonceJ, a.nonceA⟩))

/-- What `run_joiner` has, and what its awaits answer. -/
structure Joiner where
  joinerKey : Fixed 32
  /-- The key the transport authenticated. -/
  adderKey : Fixed 32
  nonceJ : Fixed 32
  petname : String
  card : Bytes
  claim : Option Frame
  /-- What the open offer makes of a token. -/
  verdict : Bytes → Verdict
  bindSession : Except String Unit
  selfKey : Except String Unit
  keyhiveCard : Except String Unit
  sendAccept : Except String Unit
  /-- The frame that answers the acceptance. -/
  reveal : Option Frame

/-- The nonce the adder reveals. -/
def Joiner.readReveal (j : Joiner) : Ceremony Frame (Fixed 32) := do
  match ← next j.reveal with
  | some (.reveal nonce) => Course.lift (tryInto 32 nonce malformedNonce)
  | frame => refuseFrame frame

/-- `run_claimed`, up to the digits. -/
def Joiner.runClaimed (blake3 : Bytes → Bytes) (j : Joiner) (token commit : Bytes) :
    Ceremony Frame Unit := do
  Course.lift j.bindSession
  let token ← Course.lift (tryInto 16 token "that code's token is malformed")
  Course.lift j.selfKey
  Course.lift j.keyhiveCard
  sendFrame (.accept j.nonceJ j.joinerKey j.petname j.card) j.sendAccept
  let nonceA ← j.readReveal
  if blake3 nonceA ≠ commit then
    Course.fail "that device's nonce did not match what it committed to"
  else
    Course.emit
      (.shown (Transcript.digits blake3 ⟨token, j.joinerKey, j.adderKey, j.nonceJ, nonceA⟩))

/-- `run_joiner`, up to the digits. Another connection than the claim's comes to nothing. -/
def Joiner.run (blake3 : Bytes → Bytes) (j : Joiner) : Ceremony Frame Unit := do
  match ← next j.claim with
  | some (.claim token commit) =>
    match j.verdict token with
    | .ignore => return
    | .refuse => Course.emit (.sent .refused)
    | .burn => Course.emit (.sent .refused)
    | .claim => j.runClaimed blake3 token commit
  | _ => return

end Pairing

namespace Meeting

open Polyvisor.Meeting (Frame cancelled gone outOfOrder mismatched)

def refuseFrame {α : Type} : Option Frame → Ceremony Frame α
  | some .cancel => Course.fail cancelled
  | some _ => Course.fail outOfOrder
  | none => Course.fail gone

/-- `next_reveal`. -/
def nextReveal (frame : Option Frame) : Ceremony Frame (Fixed 32) := do
  match ← next frame with
  | some (.reveal nonce) => Course.lift (tryInto 32 nonce "that device sent a malformed nonce")
  | frame => refuseFrame frame

/-- `contacts_validate_meeting_introduction`, of which the bound comes before all that is read. -/
def validateIntroduction (validate : Bytes → Except String Unit) (bytes : Bytes) :
    Except String Introduction :=
  if h : bytes.length ≤ maxSignedBytes then
    (validate bytes).map fun _ => ⟨bytes, Nat.lt_of_le_of_lt h (by decide)⟩
  else .error "signed value is too large"

/-- What `meeting_run_guest` has, and what its awaits answer. -/
structure Guest where
  guestKey : Fixed 32
  hostKey : Fixed 32
  token : Fixed 16
  guest : Introduction
  guestNonce : Fixed 32
  bindSession : Except String Unit
  engine : Except String Unit
  sendClaim : Except String Unit
  /-- The frame that answers the claim. -/
  accept : Option Frame
  validate : Bytes → Except String Unit
  sendReveal : Except String Unit
  /-- The frame that answers the reveal. -/
  reveal : Option Frame
  /-- Whether the meeting is still the one that is shown. -/
  setPhase : Except String Unit

/-- The introduction and the commitment the host accepts with. -/
def Guest.readAccept (g : Guest) : Ceremony Frame (Bytes × Fixed 32) := do
  match ← next g.accept with
  | some (.accept endpointKey introduction commit) =>
    if endpointKey = g.hostKey then
      Course.lift ((tryInto 32 commit "that device sent a malformed commitment").map
        fun commit => (introduction, commit))
    else Course.fail outOfOrder
  | some .refused => Course.fail "that meeting link is spent or expired"
  | frame => refuseFrame frame

/-- `meeting_run_guest`, up to the digits. -/
def Guest.run (blake3 : Bytes → Bytes) (g : Guest) : Ceremony Frame Unit := do
  Course.lift g.bindSession
  Course.lift g.engine
  sendFrame (.claim g.token g.guestKey g.guest (blake3 g.guestNonce)) g.sendClaim
  let (hostBytes, hostCommit) ← g.readAccept
  let host ← Course.lift (validateIntroduction g.validate hostBytes)
  sendFrame (.reveal g.guestNonce) g.sendReveal
  let hostNonce ← nextReveal g.reveal
  if blake3 hostNonce ≠ hostCommit then Course.fail mismatched
  else
    Course.lift g.setPhase
    Course.emit (.shown (Transcript.digits blake3
      ⟨g.token, g.guestKey, g.hostKey, g.guest, host, g.guestNonce, hostNonce⟩))

/-- What `meeting_run_host` has, and what its awaits answer. -/
structure Host where
  hostKey : Fixed 32
  /-- The key the transport authenticated. -/
  guestKey : Fixed 32
  /-- The introduction of the offer. -/
  host : Introduction
  hostNonce : Fixed 32
  claim : Option Frame
  verdict : Bytes → Verdict
  validate : Bytes → Except String Unit
  engine : Except String Unit
  bindSession : Except String Unit
  sendAccept : Except String Unit
  /-- The frame that answers the acceptance. -/
  reveal : Option Frame
  sendReveal : Except String Unit
  setPhase : Except String Unit

/-- `meeting_run_claimed`, up to the digits. -/
def Host.runClaimed (blake3 : Bytes → Bytes) (h : Host) (token guestBytes guestCommit : Bytes) :
    Ceremony Frame Unit := do
  let token ← Course.lift (tryInto 16 token "that meeting token is malformed")
  let guestCommit ← Course.lift (tryInto 32 guestCommit "that device sent a malformed commitment")
  let guest ← Course.lift (validateIntroduction h.validate guestBytes)
  Course.lift h.engine
  Course.lift h.bindSession
  sendFrame (.accept h.hostKey h.host (blake3 h.hostNonce)) h.sendAccept
  let guestNonce ← nextReveal h.reveal
  if blake3 guestNonce ≠ guestCommit then Course.fail mismatched
  else
    sendFrame (.reveal h.hostNonce) h.sendReveal
    Course.lift h.setPhase
    Course.emit (.shown (Transcript.digits blake3
      ⟨token, h.guestKey, h.hostKey, guest, h.host, guestNonce, h.hostNonce⟩))

/-- `meeting_run_host`, up to the digits. -/
def Host.run (blake3 : Bytes → Bytes) (h : Host) : Ceremony Frame Unit := do
  match ← next h.claim with
  | some (.claim token wireKey guestBytes guestCommit) =>
    if wireKey ≠ h.guestKey then return
    else
      match h.verdict token with
      | .ignore => return
      | .refuse => Course.emit (.sent .refused)
      | .burn => Course.emit (.sent .refused)
      | .claim => h.runClaimed blake3 token guestBytes guestCommit
  | _ => return

end Meeting

/-! ## What each role leaves on the wire -/

section Traces

variable {F α : Type}

@[simp]
theorem trace_sendFrame_bind (frame : F) (answer : Except String Unit)
    (f : Unit → Ceremony F α) : (sendFrame frame answer >>= f).trace =
      .sent frame :: (Course.lift answer >>= f).trace := by
  rcases answer with e | ⟨⟨⟩⟩ <;> rfl

@[simp]
theorem trace_next_none_bind (f : Option F → Ceremony F α) :
    (next none >>= f).trace = (f none).trace := rfl

@[simp]
theorem trace_next_some_bind (frame : F) (f : Option F → Ceremony F α) :
    (next (some frame) >>= f).trace = .got frame :: (f (some frame)).trace := rfl

/-- A step that waits for a frame and makes `a` of the right one. -/
inductive Reads (right : α → F → Prop) : Ceremony F α → Prop
  /-- The connection is over. -/
  | gone (error : String) : Reads right ⟨[], .error error⟩
  | refused (frame : F) (error : String) : Reads right ⟨[.got frame], .error error⟩
  | ok (frame : F) (a : α) (h : right a frame) : Reads right ⟨[.got frame], .ok a⟩

theorem Reads.of_next {right : α → F → Prop} {k : Option F → Ceremony F α}
    (hgone : ∃ e, k none = Course.fail e)
    (hframe : ∀ frame, (∃ e, k (some frame) = Course.fail e) ∨
      ∃ a, k (some frame) = Course.lift (.ok a) ∧ right a frame) (frame : Option F) :
    Reads right (next frame >>= k) := by
  rcases frame with _ | frame
  · obtain ⟨e, he⟩ := hgone
    show Reads right ⟨[] ++ (k none).trace, (k none).outcome⟩
    rw [he]
    exact .gone e
  show Reads right ⟨[.got frame] ++ (k (some frame)).trace, (k (some frame)).outcome⟩
  rcases hframe frame with ⟨e, he⟩ | ⟨a, ha, h⟩
  · rw [he]
    exact .refused frame e
  · rw [ha]
    exact .ok frame a h

theorem next_bind_eq {k : Option F → Ceremony F α} {frame : F} {a : α}
    (h : k (some frame) = Course.lift (.ok a)) :
    next (some frame) >>= k = ⟨[.got frame], .ok a⟩ := by
  show (⟨[.got frame] ++ (k (some frame)).trace, (k (some frame)).outcome⟩ : Ceremony F α) = _
  rw [h]
  rfl

end Traces

theorem tryInto_val {n : ℕ} (a : Fixed n) (malformed : String) :
    tryInto n a.val malformed = .ok a :=
  dif_pos a.2

theorem tryInto_eq_ok {n : ℕ} {bytes : Bytes} {malformed : String} {a : Fixed n}
    (h : tryInto n bytes malformed = .ok a) : bytes = a.val := by
  rw [tryInto] at h
  split_ifs at h
  exact congrArg Subtype.val (Except.ok.inj h)

namespace Pairing

open Polyvisor.Pairing (Frame)

variable {blake3 : Bytes → Bytes}

theorem refuseFrame_eq {α : Type} (frame : Option Frame) :
    ∃ e, (refuseFrame frame : Ceremony Frame α) = Course.fail e := by
  unfold refuseFrame
  split
  all_goals exact ⟨_, rfl⟩

theorem Adder.reads_readAccept (a : Adder) :
    Reads (fun nonceJ frame => ∃ petname card, frame = .accept nonceJ.val a.joinerKey petname card)
      a.readAccept := by
  refine .of_next ⟨_, rfl⟩ (fun frame => ?_) a.accept
  split
  next nonce key petname card heq =>
    obtain rfl := Option.some.inj heq
    split_ifs with hkey
    · exact .inl ⟨_, rfl⟩
    rw [not_ne_iff] at hkey
    rcases hnonce : tryInto 32 nonce Polyvisor.Pairing.malformedNonce with e | nonceJ
    · exact .inl ⟨e, rfl⟩
    · exact .inr ⟨nonceJ, rfl, petname, card, by rw [tryInto_eq_ok hnonce, hkey]⟩
  · exact .inl ⟨_, rfl⟩
  · exact .inl (refuseFrame_eq _)

theorem Joiner.reads_readReveal (j : Joiner) :
    Reads (fun nonceA frame => frame = .reveal nonceA.val) j.readReveal := by
  refine .of_next ⟨_, rfl⟩ (fun frame => ?_) j.reveal
  split
  next nonce heq =>
    obtain rfl := Option.some.inj heq
    rcases hnonce : tryInto 32 nonce Polyvisor.Pairing.malformedNonce with e | nonceA
    · exact .inl ⟨e, rfl⟩
    · exact .inr ⟨nonceA, rfl, by rw [tryInto_eq_ok hnonce]⟩
  · exact .inl (refuseFrame_eq _)

/-- What an adder does on the wire, and what it shows. -/
structure Adder.Spec (blake3 : Bytes → Bytes) (a : Adder) (trace : List (Event Frame)) : Prop where
  /-- It sends its commitment and its nonce only. -/
  sent : ∀ frame, .sent frame ∈ trace →
    frame = .claim a.token (blake3 a.nonceA) ∨ frame = .reveal a.nonceA
  /-- It holds the nonce of the joiner before it reveals its own. -/
  held : ∀ nonceA, Guards
    (fun e => ∃ nonceJ : Fixed 32, ∃ petname card,
      e = .got (.accept nonceJ.val a.joinerKey petname card))
    (fun e => e = .sent (.reveal nonceA)) trace
  /-- The digits stand for what it sent and what it got. -/
  shown : ∀ digits, .shown digits ∈ trace → ∃ nonceJ : Fixed 32,
    (∃ petname card, .got (.accept nonceJ.val a.joinerKey petname card) ∈ trace) ∧
      digits = Transcript.digits blake3 ⟨a.token, a.joinerKey, a.adderKey, nonceJ, a.nonceA⟩

theorem Adder.spec (blake3 : Bytes → Bytes) (a : Adder) : a.Spec blake3 (a.run blake3).trace := by
  rw [run]
  rcases a.bindSession with e | ⟨⟨⟩⟩
  · exact ⟨by simp, by simp, by simp⟩
  rw [Course.lift_ok_bind, trace_sendFrame_bind]
  rcases a.sendClaim with e | ⟨⟨⟩⟩
  · exact ⟨by simp, by simp, by simp⟩
  rw [Course.lift_ok_bind]
  have haccept := a.reads_readAccept
  generalize a.readAccept = accept at haccept ⊢
  rcases haccept with e | ⟨frame, e⟩ | ⟨frame, nonceJ, petname, card, rfl⟩
  · exact ⟨by simp, by simp, by simp⟩
  · exact ⟨by simp, by simp, by simp⟩
  -- from here on the nonce of the joiner is held
  have hnonce := nonceJ.2
  rw [Course.trace_mk_ok_bind, trace_sendFrame_bind]
  rcases a.sendReveal with e | ⟨⟨⟩⟩
  · exact ⟨by simp, by simp [hnonce], by simp⟩
  rw [Course.lift_ok_bind]
  rcases a.selfKey with e | ⟨⟨⟩⟩
  · exact ⟨by simp, by simp [hnonce], by simp⟩
  · refine ⟨by simp, by simp [hnonce],
      fun digits hdigits => ⟨nonceJ, ⟨petname, card, ?_⟩, ?_⟩⟩
    · simp
    · simpa using hdigits

/-- What a joiner does on the wire, and what it shows. -/
structure Joiner.Spec (blake3 : Bytes → Bytes) (j : Joiner) (trace : List (Event Frame)) :
    Prop where
  sent : ∀ frame, .sent frame ∈ trace →
    frame = .accept j.nonceJ j.joinerKey j.petname j.card ∨ frame = .refused
  /-- It holds a commitment of the adder before it sends its nonce. -/
  held : ∀ nonce key petname card, Guards (fun e => ∃ token commit, e = .got (.claim token commit))
    (fun e => e = .sent (.accept nonce key petname card)) trace
  /-- The nonce it gets is what the adder committed to. -/
  matched : ∀ digits, .shown digits ∈ trace → ∀ token commit nonceA,
    .got (.claim token commit) ∈ trace → .got (.reveal nonceA) ∈ trace → blake3 nonceA = commit
  shown : ∀ digits, .shown digits ∈ trace → ∃ (token : Fixed 16) (nonceA : Fixed 32),
    (∃ commit, .got (.claim token.val commit) ∈ trace) ∧ .got (.reveal nonceA.val) ∈ trace ∧
      digits = Transcript.digits blake3 ⟨token, j.joinerKey, j.adderKey, j.nonceJ, nonceA⟩

theorem Joiner.spec (blake3 : Bytes → Bytes) (j : Joiner) :
    j.Spec blake3 (j.run blake3).trace := by
  rw [run]
  rcases j.claim with _ | frame
  · rw [trace_next_none_bind]
    exact ⟨by simp, by simp, by simp, by simp⟩
  rw [trace_next_some_bind]
  split
  · next token commit heq =>
    obtain rfl := Option.some.inj heq
    split
    · exact ⟨by simp, by simp, by simp, by simp⟩
    · exact ⟨by simp, by simp, by simp, by simp⟩
    · exact ⟨by simp, by simp, by simp, by simp⟩
    rw [runClaimed]
    rcases j.bindSession with e | ⟨⟨⟩⟩
    · exact ⟨by simp, by simp, by simp, by simp⟩
    rw [Course.lift_ok_bind]
    rcases htoken : tryInto 16 token "that code's token is malformed" with e | token'
    · exact ⟨by simp, by simp, by simp, by simp⟩
    obtain rfl := tryInto_eq_ok htoken
    rw [Course.lift_ok_bind]
    rcases j.selfKey with e | ⟨⟨⟩⟩
    · exact ⟨by simp, by simp, by simp, by simp⟩
    rw [Course.lift_ok_bind]
    rcases j.keyhiveCard with e | ⟨⟨⟩⟩
    · exact ⟨by simp, by simp, by simp, by simp⟩
    rw [Course.lift_ok_bind, trace_sendFrame_bind]
    rcases j.sendAccept with e | ⟨⟨⟩⟩
    · exact ⟨by simp, by simp, by simp, by simp⟩
    rw [Course.lift_ok_bind]
    have hreveal := j.reads_readReveal
    generalize j.readReveal = reveal at hreveal ⊢
    rcases hreveal with e | ⟨frame, e⟩ | ⟨frame, nonceA, rfl⟩
    · exact ⟨by simp, by simp, by simp, by simp⟩
    · exact ⟨by simp, by simp, by simp, by simp⟩
    rw [Course.trace_mk_ok_bind]
    split_ifs with hcommit
    · exact ⟨by simp, by simp, by simp, by simp⟩
    rw [not_ne_iff] at hcommit
    refine ⟨by simp, by simp, ?_, ?_⟩
    · intro _ _ token commit' nonce htoken hnonce
      obtain ⟨-, rfl⟩ : token = token'.val ∧ commit' = commit := by simpa using htoken
      obtain rfl : nonce = nonceA.val := by simpa using hnonce
      exact hcommit
    · intro digits hdigits
      exact ⟨token', nonceA, ⟨commit, by simp⟩, by simp, by simpa using hdigits⟩
  · exact ⟨by simp, by simp, by simp, by simp⟩

end Pairing

namespace Meeting

open Polyvisor.Meeting (Frame)

variable {blake3 : Bytes → Bytes}

theorem refuseFrame_eq {α : Type} (frame : Option Frame) :
    ∃ e, (refuseFrame frame : Ceremony Frame α) = Course.fail e := by
  unfold refuseFrame
  split
  all_goals exact ⟨_, rfl⟩

theorem reads_nextReveal (frame : Option Frame) :
    Reads (fun nonce frame => frame = .reveal nonce.val) (nextReveal frame) := by
  refine .of_next ⟨_, rfl⟩ (fun frame => ?_) frame
  split
  next bytes heq =>
    obtain rfl := Option.some.inj heq
    rcases hnonce : tryInto 32 bytes "that device sent a malformed nonce" with e | nonce
    · exact .inl ⟨e, rfl⟩
    · exact .inr ⟨nonce, rfl, by rw [tryInto_eq_ok hnonce]⟩
  · exact .inl (refuseFrame_eq _)

theorem Guest.reads_readAccept (g : Guest) :
    Reads (fun a frame => frame = .accept g.hostKey a.1 a.2.val) g.readAccept := by
  refine .of_next ⟨_, rfl⟩ (fun frame => ?_) g.accept
  split
  next key introduction bytes heq =>
    obtain rfl := Option.some.inj heq
    split_ifs with hkey
    · rcases hcommit : tryInto 32 bytes "that device sent a malformed commitment" with e | commit
      · exact .inl ⟨e, rfl⟩
      · exact .inr ⟨(introduction, commit), rfl, by rw [hkey, tryInto_eq_ok hcommit]⟩
    · exact .inl ⟨_, rfl⟩
  · exact .inl ⟨_, rfl⟩
  · exact .inl (refuseFrame_eq _)

theorem validateIntroduction_eq_ok {validate : Bytes → Except String Unit} {bytes : Bytes}
    {introduction : Introduction} (h : validateIntroduction validate bytes = .ok introduction) :
    bytes = introduction.val := by
  rw [validateIntroduction] at h
  split_ifs at h
  rcases hvalid : validate bytes with e | ⟨⟨⟩⟩
  · rw [hvalid] at h
    exact (nomatch h)
  · rw [hvalid] at h
    exact congrArg Subtype.val (Except.ok.inj h)

/-- What a guest does on the wire, and what it shows. -/
structure Guest.Spec (blake3 : Bytes → Bytes) (g : Guest) (trace : List (Event Frame)) :
    Prop where
  sent : ∀ frame, .sent frame ∈ trace →
    frame = .claim g.token g.guestKey g.guest (blake3 g.guestNonce) ∨ frame = .reveal g.guestNonce
  /-- It holds a commitment of the host before it reveals its nonce. -/
  held : ∀ nonce, Guards
    (fun e => ∃ introduction, ∃ commit : Fixed 32,
      e = .got (.accept g.hostKey introduction commit.val))
    (fun e => e = .sent (.reveal nonce)) trace
  /-- The nonce it gets is what the host committed to. -/
  matched : ∀ digits, .shown digits ∈ trace → ∀ key introduction commit hostNonce,
    .got (.accept key introduction commit) ∈ trace → .got (.reveal hostNonce) ∈ trace →
      blake3 hostNonce = commit
  shown : ∀ digits, .shown digits ∈ trace → ∃ (host : Introduction) (hostNonce : Fixed 32),
    (∃ commit, .got (.accept g.hostKey host.val commit) ∈ trace) ∧
      .got (.reveal hostNonce.val) ∈ trace ∧
      digits = Transcript.digits blake3
        ⟨g.token, g.guestKey, g.hostKey, g.guest, host, g.guestNonce, hostNonce⟩

theorem Guest.spec (blake3 : Bytes → Bytes) (g : Guest) : g.Spec blake3 (g.run blake3).trace := by
  rw [run]
  rcases g.bindSession with e | ⟨⟨⟩⟩
  · exact ⟨by simp, by simp, by simp, by simp⟩
  rw [Course.lift_ok_bind]
  rcases g.engine with e | ⟨⟨⟩⟩
  · exact ⟨by simp, by simp, by simp, by simp⟩
  rw [Course.lift_ok_bind, trace_sendFrame_bind]
  rcases g.sendClaim with e | ⟨⟨⟩⟩
  · exact ⟨by simp, by simp, by simp, by simp⟩
  rw [Course.lift_ok_bind]
  have haccept := g.reads_readAccept
  generalize g.readAccept = accept at haccept ⊢
  rcases haccept with e | ⟨frame, e⟩ | ⟨frame, ⟨introduction, commit⟩, rfl⟩
  · exact ⟨by simp, by simp, by simp, by simp⟩
  · exact ⟨by simp, by simp, by simp, by simp⟩
  -- from here on the commitment of the host is held
  have hlength := commit.2
  rw [Course.trace_mk_ok_bind]
  dsimp only
  rcases hhost : validateIntroduction g.validate introduction with e | host
  · exact ⟨by simp, by simp, by simp, by simp⟩
  obtain rfl := validateIntroduction_eq_ok hhost
  rw [Course.lift_ok_bind, trace_sendFrame_bind]
  rcases g.sendReveal with e | ⟨⟨⟩⟩
  · exact ⟨by simp, by simp [hlength], by simp, by simp⟩
  rw [Course.lift_ok_bind]
  have hreveal := reads_nextReveal g.reveal
  generalize nextReveal g.reveal = reveal at hreveal ⊢
  rcases hreveal with e | ⟨frame, e⟩ | ⟨frame, hostNonce, rfl⟩
  · exact ⟨by simp, by simp [hlength], by simp, by simp⟩
  · exact ⟨by simp, by simp [hlength], by simp, by simp⟩
  rw [Course.trace_mk_ok_bind]
  split_ifs with hcommit
  · exact ⟨by simp, by simp [hlength], by simp, by simp⟩
  rw [not_ne_iff] at hcommit
  rcases g.setPhase with e | ⟨⟨⟩⟩
  · exact ⟨by simp, by simp [hlength], by simp, by simp⟩
  refine ⟨by simp, by simp [hlength], ?_, ?_⟩
  · intro _ _ key introduction commit' nonce haccept hnonce
    obtain ⟨-, -, rfl⟩ : key = g.hostKey.val ∧ introduction = host.val ∧ commit' = commit.val := by
      simpa using haccept
    obtain rfl : nonce = hostNonce.val := by simpa using hnonce
    exact hcommit
  · intro digits hdigits
    exact ⟨host, hostNonce, ⟨commit.val, by simp⟩, by simp, by simpa using hdigits⟩

/-- What a host does on the wire, and what it shows. -/
structure Host.Spec (blake3 : Bytes → Bytes) (h : Host) (trace : List (Event Frame)) : Prop where
  sent : ∀ frame, .sent frame ∈ trace →
    frame = .accept h.hostKey h.host (blake3 h.hostNonce) ∨ frame = .reveal h.hostNonce ∨
      frame = .refused
  /-- It holds a commitment of the guest before it accepts. -/
  committed : ∀ key introduction commit, Guards
    (fun e => ∃ token introduction, ∃ commit : Fixed 32,
      e = .got (.claim token h.guestKey introduction commit.val))
    (fun e => e = .sent (.accept key introduction commit)) trace
  /-- It holds the nonce of the guest before it reveals its own. -/
  held : ∀ nonce, Guards (fun e => ∃ guestNonce : Fixed 32, e = .got (.reveal guestNonce.val))
    (fun e => e = .sent (.reveal nonce)) trace
  /-- The nonce it gets is what the guest committed to, for its own nonce as for the digits. -/
  matched : (∃ nonce, .sent (.reveal nonce) ∈ trace) ∨ (∃ digits, .shown digits ∈ trace) →
    ∀ token key introduction commit guestNonce,
      .got (.claim token key introduction commit) ∈ trace → .got (.reveal guestNonce) ∈ trace →
      blake3 guestNonce = commit
  shown : ∀ digits, .shown digits ∈ trace →
    ∃ (token : Fixed 16) (guest : Introduction) (guestNonce : Fixed 32),
      (∃ commit, .got (.claim token.val h.guestKey guest.val commit) ∈ trace) ∧
      .got (.reveal guestNonce.val) ∈ trace ∧
      digits = Transcript.digits blake3
        ⟨token, h.guestKey, h.hostKey, guest, h.host, guestNonce, h.hostNonce⟩

theorem Host.spec_runClaimed (blake3 : Bytes → Bytes) (h : Host)
    (token guestBytes guestCommit : Bytes) :
    h.Spec blake3 (.got (.claim token h.guestKey guestBytes guestCommit) ::
      (h.runClaimed blake3 token guestBytes guestCommit).trace) := by
  rw [runClaimed]
  rcases htoken : tryInto 16 token "that meeting token is malformed" with e | token'
  · exact ⟨by simp, by simp, by simp, by simp, by simp⟩
  obtain rfl := tryInto_eq_ok htoken
  rw [Course.lift_ok_bind]
  rcases hcommit : tryInto 32 guestCommit "that device sent a malformed commitment" with e | commit
  · exact ⟨by simp, by simp, by simp, by simp, by simp⟩
  obtain rfl := tryInto_eq_ok hcommit
  have hcommitted := commit.2
  rw [Course.lift_ok_bind]
  rcases hguest : validateIntroduction h.validate guestBytes with e | guest
  · exact ⟨by simp, by simp, by simp, by simp, by simp⟩
  obtain rfl := validateIntroduction_eq_ok hguest
  rw [Course.lift_ok_bind]
  rcases h.engine with e | ⟨⟨⟩⟩
  · exact ⟨by simp, by simp, by simp, by simp, by simp⟩
  rw [Course.lift_ok_bind]
  rcases h.bindSession with e | ⟨⟨⟩⟩
  · exact ⟨by simp, by simp, by simp, by simp, by simp⟩
  rw [Course.lift_ok_bind, trace_sendFrame_bind]
  rcases h.sendAccept with e | ⟨⟨⟩⟩
  · exact ⟨by simp, by simp [hcommitted], by simp, by simp, by simp⟩
  rw [Course.lift_ok_bind]
  have hreveal := reads_nextReveal h.reveal
  generalize nextReveal h.reveal = reveal at hreveal ⊢
  rcases hreveal with e | ⟨frame, e⟩ | ⟨frame, guestNonce, rfl⟩
  · exact ⟨by simp, by simp [hcommitted], by simp, by simp, by simp⟩
  · exact ⟨by simp, by simp [hcommitted], by simp, by simp, by simp⟩
  -- from here on the nonce of the guest is held
  have hnonce := guestNonce.2
  rw [Course.trace_mk_ok_bind]
  split_ifs with hmatch
  · exact ⟨by simp, by simp [hcommitted], by simp, by simp, by simp⟩
  rw [not_ne_iff] at hmatch
  rw [trace_sendFrame_bind]
  have hmatched (trace : List (Event Frame))
      (htrace : ∀ frame, .got frame ∈ trace → frame = .claim token' h.guestKey guest commit ∨
        frame = .reveal guestNonce) (token key introduction commit' nonce : Bytes)
      (hclaim : .got (.claim token key introduction commit') ∈ trace)
      (hreveal : .got (.reveal nonce) ∈ trace) : blake3 nonce = commit' := by
    obtain ⟨-, -, -, rfl⟩ : token = token'.val ∧ key = h.guestKey.val ∧ introduction = guest.val ∧
        commit' = commit.val := by simpa using htrace _ hclaim
    obtain rfl : nonce = guestNonce.val := by simpa using htrace _ hreveal
    exact hmatch
  rcases h.sendReveal with e | ⟨⟨⟩⟩
  · exact ⟨by simp, by simp [hcommitted], by simp [hnonce],
      fun _ => hmatched _ (by simp), by simp⟩
  rw [Course.lift_ok_bind]
  rcases h.setPhase with e | ⟨⟨⟩⟩
  · exact ⟨by simp, by simp [hcommitted], by simp [hnonce],
      fun _ => hmatched _ (by simp), by simp⟩
  refine ⟨by simp, by simp [hcommitted], by simp [hnonce],
    fun _ => hmatched _ (by simp), fun digits hdigits => ?_⟩
  exact ⟨token', guest, guestNonce, ⟨commit.val, by simp⟩, by simp, by simpa using hdigits⟩

theorem Host.spec (blake3 : Bytes → Bytes) (h : Host) : h.Spec blake3 (h.run blake3).trace := by
  rw [run]
  rcases h.claim with _ | frame
  · rw [trace_next_none_bind]
    exact ⟨by simp, by simp, by simp, by simp, by simp⟩
  rw [trace_next_some_bind]
  split
  next token wireKey guestBytes guestCommit heq =>
    obtain rfl := Option.some.inj heq
    split_ifs with hkey
    · exact ⟨by simp, by simp, by simp, by simp, by simp⟩
    rw [not_ne_iff] at hkey
    rw [hkey]
    split
    · exact ⟨by simp, by simp, by simp, by simp, by simp⟩
    · exact ⟨by simp, by simp, by simp, by simp, by simp⟩
    · exact ⟨by simp, by simp, by simp, by simp, by simp⟩
    · exact h.spec_runClaimed blake3 token guestBytes guestCommit
  · exact ⟨by simp, by simp, by simp, by simp, by simp⟩

end Meeting

/-! ## Two honest ends -/

/-- What the one end got, the other sent. -/
def Carried {F : Type} (sender receiver : List (Event F)) : Prop :=
  ∀ frame, .got frame ∈ receiver → .sent frame ∈ sender

/-- The ends of one pairing connection: each knows the key of the other, and nothing is put on the
wire between them. -/
structure Pairing.Exchange (blake3 : Bytes → Bytes) (a : Adder) (j : Joiner) : Prop where
  joinerKey : a.joinerKey = j.joinerKey
  adderKey : a.adderKey = j.adderKey
  toJoiner : Carried (a.run blake3).trace (j.run blake3).trace
  toAdder : Carried (j.run blake3).trace (a.run blake3).trace

theorem Pairing.Exchange.digits_eq {blake3 : Bytes → Bytes} {a : Adder} {j : Joiner}
    (h : Exchange blake3 a j) {digits digits' : String}
    (hadder : .shown digits ∈ (a.run blake3).trace)
    (hjoiner : .shown digits' ∈ (j.run blake3).trace) : digits = digits' := by
  obtain ⟨nonceJ, ⟨petname, card, haccept⟩, rfl⟩ := (a.spec blake3).shown digits hadder
  obtain ⟨token, nonceA, ⟨commit, hclaim⟩, hreveal, rfl⟩ := (j.spec blake3).shown digits' hjoiner
  have htoken : token = a.token := by
    rcases (a.spec blake3).sent _ (h.toJoiner _ hclaim) with heq | heq
    · injection heq with htoken
      exact Subtype.ext htoken
    · exact (nomatch heq)
  have hnonceA : nonceA = a.nonceA := by
    rcases (a.spec blake3).sent _ (h.toJoiner _ hreveal) with heq | heq
    · exact (nomatch heq)
    · injection heq with hnonce
      exact Subtype.ext hnonce
  have hnonceJ : nonceJ = j.nonceJ := by
    rcases (j.spec blake3).sent _ (h.toAdder _ haccept) with heq | heq
    · injection heq with hnonce
      exact Subtype.ext hnonce
    · exact (nomatch heq)
  rw [htoken, hnonceA, hnonceJ, h.joinerKey, h.adderKey]

/-- A pairing in which every frame arrives and nothing fails. -/
structure Pairing.Delivered (blake3 : Bytes → Bytes) (a : Adder) (j : Joiner) : Prop where
  joinerKey : a.joinerKey = j.joinerKey
  adderKey : a.adderKey = j.adderKey
  adder : a.bindSession = .ok () ∧ a.sendClaim = .ok () ∧ a.sendReveal = .ok () ∧ a.selfKey = .ok ()
  joiner : j.bindSession = .ok () ∧ j.selfKey = .ok () ∧ j.keyhiveCard = .ok () ∧
    j.sendAccept = .ok ()
  claim : j.claim = some (.claim a.token (blake3 a.nonceA)) ∧ j.verdict a.token = .claim
  accept : a.accept = some (.accept j.nonceJ j.joinerKey j.petname j.card)
  reveal : j.reveal = some (.reveal a.nonceA)

/-- What both ends of such a pairing do. -/
theorem Pairing.Delivered.traces {blake3 : Bytes → Bytes} {a : Adder} {j : Joiner}
    (h : Delivered blake3 a j) : ∃ digits,
      (a.run blake3).trace = [.sent (.claim a.token (blake3 a.nonceA)),
        .got (.accept j.nonceJ j.joinerKey j.petname j.card), .sent (.reveal a.nonceA),
        .shown digits] ∧
      (j.run blake3).trace = [.got (.claim a.token (blake3 a.nonceA)),
        .sent (.accept j.nonceJ j.joinerKey j.petname j.card), .got (.reveal a.nonceA),
        .shown digits] := by
  refine ⟨Transcript.digits blake3 ⟨a.token, a.joinerKey, a.adderKey, j.nonceJ, a.nonceA⟩, ?_, ?_⟩
  · have haccept : a.readAccept = ⟨[.got (.accept j.nonceJ j.joinerKey j.petname j.card)],
        .ok j.nonceJ⟩ := by
      rw [Adder.readAccept, h.accept, h.joinerKey]
      apply next_bind_eq
      simp [tryInto_val]
    obtain ⟨hbind, hclaim, hreveal, hself⟩ := h.adder
    simp [Adder.run, hbind, hclaim, haccept, hreveal, hself]
  · have hreveal : j.readReveal = ⟨[.got (.reveal a.nonceA)], .ok a.nonceA⟩ := by
      rw [Joiner.readReveal, h.reveal]
      apply next_bind_eq
      simp [tryInto_val]
    obtain ⟨hbind, hself, hcard, hsend⟩ := h.joiner
    obtain ⟨hclaim, hverdict⟩ := h.claim
    simp [Joiner.run, Joiner.runClaimed, hbind, hself, hcard, hsend, hclaim, hverdict, hreveal,
      h.joinerKey, h.adderKey, tryInto_val]

theorem Pairing.Delivered.shown {blake3 : Bytes → Bytes} {a : Adder} {j : Joiner}
    (h : Delivered blake3 a j) : ∃ digits,
      .shown digits ∈ (a.run blake3).trace ∧ .shown digits ∈ (j.run blake3).trace := by
  obtain ⟨digits, hadder, hjoiner⟩ := h.traces
  exact ⟨digits, by simp [hadder], by simp [hjoiner]⟩

/-- Where everything arrives, nothing was put on the wire between the ends. -/
theorem Pairing.Delivered.exchange {blake3 : Bytes → Bytes} {a : Adder} {j : Joiner}
    (h : Delivered blake3 a j) : Exchange blake3 a j := by
  obtain ⟨digits, hadder, hjoiner⟩ := h.traces
  refine ⟨h.joinerKey, h.adderKey, fun frame hgot => ?_, fun frame hgot => ?_⟩
  · rw [hjoiner] at hgot
    rw [hadder]
    simpa using hgot
  · rw [hadder] at hgot
    rw [hjoiner]
    simpa using hgot

/-- The ends of one meeting connection. -/
structure Meeting.Exchange (blake3 : Bytes → Bytes) (g : Guest) (h : Host) : Prop where
  guestKey : g.guestKey = h.guestKey
  hostKey : g.hostKey = h.hostKey
  toHost : Carried (g.run blake3).trace (h.run blake3).trace
  toGuest : Carried (h.run blake3).trace (g.run blake3).trace

theorem Meeting.Exchange.digits_eq {blake3 : Bytes → Bytes} {g : Guest} {h : Host}
    (hex : Exchange blake3 g h) {digits digits' : String}
    (hguest : .shown digits ∈ (g.run blake3).trace)
    (hhost : .shown digits' ∈ (h.run blake3).trace) : digits = digits' := by
  obtain ⟨host, hostNonce, ⟨commit, haccept⟩, hreveal, rfl⟩ := (g.spec blake3).shown digits hguest
  obtain ⟨token, guest, guestNonce, ⟨commit', hclaim⟩, hreveal', rfl⟩ :=
    (h.spec blake3).shown digits' hhost
  have hhost : host = h.host := by
    rcases (h.spec blake3).sent _ (hex.toGuest _ haccept) with heq | heq | heq
    · injection heq with _ hhost
      exact Subtype.ext hhost
    · exact (nomatch heq)
    · exact (nomatch heq)
  have hhostNonce : hostNonce = h.hostNonce := by
    rcases (h.spec blake3).sent _ (hex.toGuest _ hreveal) with heq | heq | heq
    · exact (nomatch heq)
    · injection heq with hnonce
      exact Subtype.ext hnonce
    · exact (nomatch heq)
  have hclaimed : token = g.token ∧ guest = g.guest := by
    rcases (g.spec blake3).sent _ (hex.toHost _ hclaim) with heq | heq
    · injection heq with htoken _ hguest
      exact ⟨Subtype.ext htoken, Subtype.ext hguest⟩
    · exact (nomatch heq)
  have hguestNonce : guestNonce = g.guestNonce := by
    rcases (g.spec blake3).sent _ (hex.toHost _ hreveal') with heq | heq
    · exact (nomatch heq)
    · injection heq with hnonce
      exact Subtype.ext hnonce
  rw [hhost, hhostNonce, hclaimed.1, hclaimed.2, hguestNonce, hex.guestKey, hex.hostKey]

/-- A meeting in which every frame arrives and nothing fails. -/
structure Meeting.Delivered (blake3 : Bytes → Bytes) (g : Guest) (h : Host) : Prop where
  guestKey : g.guestKey = h.guestKey
  hostKey : g.hostKey = h.hostKey
  guest : g.bindSession = .ok () ∧ g.engine = .ok () ∧ g.sendClaim = .ok () ∧
    validateIntroduction g.validate h.host = .ok h.host ∧ g.sendReveal = .ok () ∧
    g.setPhase = .ok ()
  host : validateIntroduction h.validate g.guest = .ok g.guest ∧ h.engine = .ok () ∧
    h.bindSession = .ok () ∧ h.sendAccept = .ok () ∧ h.sendReveal = .ok () ∧ h.setPhase = .ok ()
  claim : h.claim = some (.claim g.token g.guestKey g.guest (blake3 g.guestNonce)) ∧
    h.verdict g.token = .claim
  accept : g.accept = some (.accept h.hostKey h.host (blake3 h.hostNonce))
  hostReveal : h.reveal = some (.reveal g.guestNonce)
  guestReveal : g.reveal = some (.reveal h.hostNonce)

theorem Meeting.nextReveal_reveal (nonce : Fixed 32) :
    Meeting.nextReveal (some (.reveal nonce)) = ⟨[.got (.reveal nonce)], .ok nonce⟩ := by
  apply next_bind_eq
  simp [tryInto_val]

/-- What both ends of such a meeting do. -/
theorem Meeting.Delivered.traces {blake3 : Bytes → Bytes}
    (hblake3 : ∀ bytes, (blake3 bytes).length = 32) {g : Guest} {h : Host}
    (hd : Delivered blake3 g h) : ∃ digits,
      (g.run blake3).trace = [.sent (.claim g.token g.guestKey g.guest (blake3 g.guestNonce)),
        .got (.accept h.hostKey h.host (blake3 h.hostNonce)), .sent (.reveal g.guestNonce),
        .got (.reveal h.hostNonce), .shown digits] ∧
      (h.run blake3).trace = [.got (.claim g.token g.guestKey g.guest (blake3 g.guestNonce)),
        .sent (.accept h.hostKey h.host (blake3 h.hostNonce)), .got (.reveal g.guestNonce),
        .sent (.reveal h.hostNonce), .shown digits] := by
  refine ⟨Transcript.digits blake3
    ⟨g.token, g.guestKey, g.hostKey, g.guest, h.host, g.guestNonce, h.hostNonce⟩, ?_, ?_⟩
  · have haccept : g.readAccept = ⟨[.got (.accept h.hostKey h.host (blake3 h.hostNonce))],
        .ok (h.host.val, ⟨blake3 h.hostNonce, hblake3 _⟩)⟩ := by
      rw [Guest.readAccept, hd.accept, hd.hostKey]
      apply next_bind_eq
      simp [tryInto, hblake3, Except.map]
    obtain ⟨hbind, hengine, hclaim, hvalid, hreveal, hphase⟩ := hd.guest
    simp [Guest.run, hbind, hengine, hclaim, haccept, hvalid, hreveal, hphase, hd.guestReveal,
      nextReveal_reveal]
  · obtain ⟨hvalid, hengine, hbind, haccept, hreveal, hphase⟩ := hd.host
    obtain ⟨hclaim, hverdict⟩ := hd.claim
    have hcommit : tryInto 32 (blake3 g.guestNonce) "that device sent a malformed commitment" =
        .ok ⟨blake3 g.guestNonce, hblake3 _⟩ := dif_pos (hblake3 _)
    simp [Host.run, Host.runClaimed, hbind, hengine, haccept, hvalid, hreveal, hphase, hclaim,
      hverdict, hd.hostReveal, nextReveal_reveal, hd.guestKey, hd.hostKey, hcommit, tryInto_val]

theorem Meeting.Delivered.shown {blake3 : Bytes → Bytes}
    (hblake3 : ∀ bytes, (blake3 bytes).length = 32) {g : Guest} {h : Host}
    (hd : Delivered blake3 g h) : ∃ digits,
      .shown digits ∈ (g.run blake3).trace ∧ .shown digits ∈ (h.run blake3).trace := by
  obtain ⟨digits, hguest, hhost⟩ := hd.traces hblake3
  exact ⟨digits, by simp [hguest], by simp [hhost]⟩

theorem Meeting.Delivered.exchange {blake3 : Bytes → Bytes}
    (hblake3 : ∀ bytes, (blake3 bytes).length = 32) {g : Guest} {h : Host}
    (hd : Delivered blake3 g h) : Exchange blake3 g h := by
  obtain ⟨digits, hguest, hhost⟩ := hd.traces hblake3
  refine ⟨hd.guestKey, hd.hostKey, fun frame hgot => ?_, fun frame hgot => ?_⟩
  · rw [hhost] at hgot
    rw [hguest]
    simpa using hgot
  · rw [hguest] at hgot
    rw [hhost]
    simpa using hgot

/-- The digits of a pairing and of a meeting bind the whole ceremony: what is hashed determines
every input of it, every role commits, holds and checks before it reveals and shows, and two honest
ends show the same. -/
theorem sas_binds (blake3 : Bytes → Bytes) :
    (Function.Injective Pairing.Transcript.bytes ∧ Function.Injective Meeting.Transcript.bytes ∧
      (∀ (t : Pairing.Transcript) (t' : Meeting.Transcript), t.bytes ≠ t'.bytes) ∧
      (∀ t : Pairing.Transcript, t.digits blake3 = sixDigits (blake3 t.bytes)) ∧
      ∀ t : Meeting.Transcript, t.digits blake3 = sixDigits (blake3 t.bytes)) ∧
    (∀ a : Pairing.Adder, a.Spec blake3 (a.run blake3).trace) ∧
    (∀ j : Pairing.Joiner, j.Spec blake3 (j.run blake3).trace) ∧
    (∀ g : Meeting.Guest, g.Spec blake3 (g.run blake3).trace) ∧
    (∀ h : Meeting.Host, h.Spec blake3 (h.run blake3).trace) ∧
    (∀ a j, Pairing.Exchange blake3 a j → ∀ digits digits',
      .shown digits ∈ (a.run blake3).trace → .shown digits' ∈ (j.run blake3).trace →
        digits = digits') ∧
    (∀ g h, Meeting.Exchange blake3 g h → ∀ digits digits',
      .shown digits ∈ (g.run blake3).trace → .shown digits' ∈ (h.run blake3).trace →
        digits = digits') ∧
    (∀ a j, Pairing.Delivered blake3 a j → ∃ digits,
      .shown digits ∈ (a.run blake3).trace ∧ .shown digits ∈ (j.run blake3).trace) ∧
    ((∀ bytes, (blake3 bytes).length = 32) → ∀ g h, Meeting.Delivered blake3 g h → ∃ digits,
      .shown digits ∈ (g.run blake3).trace ∧ .shown digits ∈ (h.run blake3).trace) :=
  ⟨⟨Pairing.Transcript.bytes_injective, Meeting.Transcript.bytes_injective, pairing_ne_meeting,
      Pairing.Transcript.digits_eq blake3, Meeting.Transcript.digits_eq blake3⟩,
    Pairing.Adder.spec blake3, Pairing.Joiner.spec blake3, Meeting.Guest.spec blake3,
    Meeting.Host.spec blake3, fun _ _ h _ _ => h.digits_eq, fun _ _ h _ _ => h.digits_eq,
    fun _ _ h => h.shown, fun hblake3 _ _ h => h.shown hblake3⟩

/-! ### Two ceremonies -/

/-- A hash of one byte in every place. -/
def sampleHash (bytes : Bytes) : Bytes := List.replicate 32 (UInt8.ofNat bytes.length)

def sampleFixed (n : ℕ) (byte : UInt8) : Fixed n :=
  ⟨List.replicate n byte, List.length_replicate⟩

def sampleIntroduction (byte : UInt8) : Introduction := ⟨[byte], Nat.one_lt_two_pow (by decide)⟩

def sampleAdder : Pairing.Adder where
  adderKey := sampleFixed 32 1
  joinerKey := sampleFixed 32 2
  token := sampleFixed 16 3
  nonceA := sampleFixed 32 4
  bindSession := .ok ()
  sendClaim := .ok ()
  accept := some (.accept (sampleFixed 32 5) (sampleFixed 32 2) "laptop" [6])
  sendReveal := .ok ()
  selfKey := .ok ()

def sampleJoiner : Pairing.Joiner where
  joinerKey := sampleFixed 32 2
  adderKey := sampleFixed 32 1
  nonceJ := sampleFixed 32 5
  petname := "laptop"
  card := [6]
  claim := some (.claim (sampleFixed 16 3) (sampleHash (sampleFixed 32 4)))
  verdict _ := .claim
  bindSession := .ok ()
  selfKey := .ok ()
  keyhiveCard := .ok ()
  sendAccept := .ok ()
  reveal := some (.reveal (sampleFixed 32 4))

def sampleGuest : Meeting.Guest where
  guestKey := sampleFixed 32 1
  hostKey := sampleFixed 32 2
  token := sampleFixed 16 3
  guest := sampleIntroduction 7
  guestNonce := sampleFixed 32 4
  bindSession := .ok ()
  engine := .ok ()
  sendClaim := .ok ()
  accept := some (.accept (sampleFixed 32 2) (sampleIntroduction 8) (sampleHash (sampleFixed 32 5)))
  validate _ := .ok ()
  sendReveal := .ok ()
  reveal := some (.reveal (sampleFixed 32 5))
  setPhase := .ok ()

def sampleHost : Meeting.Host where
  hostKey := sampleFixed 32 2
  guestKey := sampleFixed 32 1
  host := sampleIntroduction 8
  hostNonce := sampleFixed 32 5
  claim := some (.claim (sampleFixed 16 3) (sampleFixed 32 1) (sampleIntroduction 7)
    (sampleHash (sampleFixed 32 4)))
  verdict _ := .claim
  validate _ := .ok ()
  engine := .ok ()
  bindSession := .ok ()
  sendAccept := .ok ()
  reveal := some (.reveal (sampleFixed 32 4))
  sendReveal := .ok ()
  setPhase := .ok ()

theorem delivered_samplePairing : Pairing.Delivered sampleHash sampleAdder sampleJoiner :=
  ⟨rfl, rfl, ⟨rfl, rfl, rfl, rfl⟩, ⟨rfl, rfl, rfl, rfl⟩, ⟨rfl, rfl⟩, rfl, rfl⟩

theorem delivered_sampleMeeting : Meeting.Delivered sampleHash sampleGuest sampleHost :=
  ⟨rfl, rfl, ⟨rfl, rfl, rfl, rfl, rfl, rfl⟩, ⟨rfl, rfl, rfl, rfl, rfl, rfl⟩, ⟨rfl, rfl⟩, rfl, rfl,
    rfl⟩

/-- The two ends of a pairing and the two ends of a meeting show digits, and no others than the
other end. -/
theorem sas_binds_sample :
    ((∃ digits, .shown digits ∈ (sampleAdder.run sampleHash).trace ∧
        .shown digits ∈ (sampleJoiner.run sampleHash).trace) ∧
      ∀ digits digits', .shown digits ∈ (sampleAdder.run sampleHash).trace →
        .shown digits' ∈ (sampleJoiner.run sampleHash).trace → digits = digits') ∧
    (∃ digits, .shown digits ∈ (sampleGuest.run sampleHash).trace ∧
        .shown digits ∈ (sampleHost.run sampleHash).trace) ∧
      ∀ digits digits', .shown digits ∈ (sampleGuest.run sampleHash).trace →
        .shown digits' ∈ (sampleHost.run sampleHash).trace → digits = digits' := by
  have hhash (bytes : Bytes) : (sampleHash bytes).length = 32 := List.length_replicate
  obtain ⟨-, -, -, -, -, hpairing, hmeeting, hpaired, hmet⟩ := sas_binds sampleHash
  exact ⟨⟨hpaired _ _ delivered_samplePairing, hpairing _ _ delivered_samplePairing.exchange⟩,
    hmet hhash _ _ delivered_sampleMeeting,
    hmeeting _ _ (delivered_sampleMeeting.exchange hhash)⟩

end Polyvisor.Sas
