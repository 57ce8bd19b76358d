import Polyvisor.Lib.Framing

/-!
# The frames of a connection

`IrohTransport` of `net.rs`: a message is written as its length and its bytes, and read back out of
a stream that arrives in pieces cut anywhere. `usize` is 32 bits wide here, so a connection's limit
is a `UInt32`.

What is still to be read of a stream is a list of chunks. Behind the last one a read answers with
the end of the stream, cleanly or not, every time it is asked.

## Main results

* `results_eq`: the calls answer with the frames of the stream, then with nothing for ever.
* `stops_at_prefix`: a length above the limit is the end of reading.
* `framing`: what a connection sends arrives as it was sent, however it is cut.
-/

namespace Polyvisor.Net

open Framing

abbrev Bytes := List UInt8

/-- The part of `IrohTransport` that a reader has, with what the stream still holds for it. -/
structure Transport where
  maxFrame : UInt32
  /-- bytes read past the end of the last frame returned -/
  pending : Bytes
  ended : Bool
  incoming : List Bytes
  deriving DecidableEq

/-- `IrohTransport::new`. -/
def Transport.new (maxFrame : UInt32) (incoming : List Bytes) : Transport :=
  { maxFrame, pending := [], ended := false, incoming }

/-! ## Sending -/

/-- `MAX_FRAME`. -/
def maxFrame : ℕ := 50 * 1024 * 1024

/-- What `send_frame` hands to `write`, and its answer. -/
structure Sent where
  written : List Bytes
  answer : Except String Unit

/-- `send_frame`, over a stream that takes a buffer or says why not. -/
def sendFrame (limit : UInt32) (write : Bytes → Except String Unit) (bytes : Bytes) : Sent :=
  if limit.toNat < bytes.length then
    -- The text names the constant, also on a wire with a limit of its own.
    ⟨[], .error s!"a {bytes.length} byte message is past this wire's {maxFrame} byte limit"⟩
  else
    let frame := BigEndian.toBytes 4 bytes.length ++ bytes
    match write frame with
    | .ok () => ⟨[frame], .ok ()⟩
    | .error e => ⟨[frame], .error s!"the connection would not carry a message: {e}"⟩

/-! ## Receiving -/

/-- `take_frame`. -/
def takeFrame (s : Transport) : Option (Option Bytes) × Transport :=
  if s.pending.length < 4 then (some none, s)
  else
    let len := BigEndian.ofBytes (s.pending.take 4)
    if s.maxFrame.toNat < len then (none, { s with ended := true, pending := [] })
    else if s.pending.length < 4 + len then (some none, s)
    else
      (some (some ((s.pending.drop 4).take len)), { s with pending := s.pending.drop (4 + len) })

/-- `next_frame`. -/
def nextFrame (s : Transport) : Option Bytes × Transport :=
  match takeFrame s with
  | (none, s') => (none, s')
  | (some (some frame), s') => (some frame, s')
  -- There is no whole frame yet, and `take_frame` has left everything as it was.
  | (some none, _) =>
    if s.ended then (none, s)
    else
      match _h : s.incoming with
      | [] => nextFrame { s with ended := true }
      | chunk :: rest => nextFrame { s with pending := s.pending ++ chunk, incoming := rest }
termination_by (s.incoming.length, (!s.ended).toNat)
decreasing_by
  · rename_i hended
    rw [_h, Bool.eq_false_iff.2 hended]
    exact Prod.Lex.right _ Nat.zero_lt_one
  · rw [_h]
    exact Prod.Lex.left _ _ (Nat.lt_succ_self _)

/-- The answers of `n` calls and what they leave. -/
def calls : ℕ → Transport → List (Option Bytes) × Transport
  | 0, s => ([], s)
  | n + 1, s =>
    let (answer, s) := nextFrame s
    let (answers, s) := calls n s
    (answer :: answers, s)

/-! ## One call -/

variable {s s' : Transport} {limit : UInt32}

theorem limit_lt (limit : UInt32) : limit.toNat < 2 ^ 32 := limit.toNat_lt

/-- `take_frame` looks at what is pending. -/
theorem takeFrame_eq (s : Transport) :
    takeFrame s =
      match front s.maxFrame.toNat s.pending with
      | .short => (some none, s)
      | .refused => (none, { s with ended := true, pending := [] })
      | .frame body rest => (some (some body), { s with pending := rest }) := by
  rw [takeFrame, front]
  dsimp only
  split_ifs <;> rfl

/-- The bytes that calls can still be answered from: none once the end has been seen. -/
def Transport.stream (s : Transport) : Bytes :=
  if s.ended then [] else s.pending ++ s.incoming.flatten

/-- Nothing whole is left behind when the end is seen. -/
def Transport.Latched (s : Transport) : Prop :=
  s.ended → front s.maxFrame.toNat s.pending = .short

theorem latched_new (limit : UInt32) (incoming : List Bytes) :
    (Transport.new limit incoming).Latched := fun h => nomatch h

theorem nextFrame_of_ended (hlatched : s.Latched) (h : s.ended) : nextFrame s = (none, s) := by
  rw [nextFrame, takeFrame_eq, hlatched h]
  exact if_pos h

theorem nextFrame_of_frame {body rest : Bytes}
    (h : front s.maxFrame.toNat s.pending = .frame body rest) :
    nextFrame s = (some body, { s with pending := rest }) := by
  rw [nextFrame, takeFrame_eq, h]

theorem nextFrame_of_refused (h : front s.maxFrame.toNat s.pending = .refused) :
    nextFrame s = (none, { s with ended := true, pending := [] }) := by
  rw [nextFrame, takeFrame_eq, h]

theorem nextFrame_of_short_nil (h : front s.maxFrame.toNat s.pending = .short)
    (hended : ¬ s.ended) (hincoming : s.incoming = []) :
    nextFrame s = (none, { s with ended := true }) := by
  obtain ⟨limit, pending, ended, incoming⟩ := s
  obtain rfl : incoming = [] := hincoming
  rw [nextFrame, takeFrame_eq, h]
  show (if ended then _ else _) = _
  rw [if_neg hended]
  -- The loop goes round once more, over the same bytes.
  exact nextFrame_of_ended (fun _ => h) rfl

theorem nextFrame_of_short_cons (h : front s.maxFrame.toNat s.pending = .short)
    (hended : ¬ s.ended) {chunk : Bytes} {rest : List Bytes}
    (hincoming : s.incoming = chunk :: rest) :
    nextFrame s = nextFrame { s with pending := s.pending ++ chunk, incoming := rest } := by
  obtain ⟨limit, pending, ended, incoming⟩ := s
  obtain rfl : incoming = chunk :: rest := hincoming
  conv_lhs => rw [nextFrame, takeFrame_eq, h]
  exact if_neg hended

/-- What a call that has not seen the end does: it reads while what it holds is less than a frame,
and answers by what the whole stream begins with. -/
structure Call (s : Transport) (r : Option Bytes) (s' : Transport) : Prop where
  maxFrame : s'.maxFrame = s.maxFrame
  latched : s'.Latched
  answer : r = (frames s.maxFrame.toNat s.stream).head?
  stream : frames s.maxFrame.toNat s'.stream = (frames s.maxFrame.toNat s.stream).tail
  /-- a chunk is read only behind less than a frame -/
  read : ∃ read, s.incoming = read ++ s'.incoming ∧
    ∀ first, first <+: read → first ≠ read →
      front s.maxFrame.toNat (s.pending ++ first.flatten) = .short
  frame : ∀ body, r = some body → ¬ s'.ended ∧
    s.pending ++ s.incoming.flatten = frame body ++ (s'.pending ++ s'.incoming.flatten)
  refused : front s.maxFrame.toNat (s.pending ++ s.incoming.flatten) = .refused →
    s'.ended ∧ s'.pending = []

/-- Nothing is read by a call that is answered from what is pending. -/
theorem read_nothing (pending : Bytes) (incoming : List Bytes) :
    ∃ read, incoming = read ++ incoming ∧ ∀ first, first <+: read → first ≠ read →
      front limit.toNat (pending ++ first.flatten) = .short :=
  ⟨[], rfl, fun _ hfirst hne => absurd (List.prefix_nil.1 hfirst) hne⟩

theorem call_of_frame {body rest : Bytes} (h : front s.maxFrame.toNat s.pending = .frame body rest)
    (hended : s.ended = false) : Call s (some body) { s with pending := rest } := by
  have hstream : s.stream = s.pending ++ s.incoming.flatten := by
    rw [Transport.stream, if_neg (by rw [hended]; exact Bool.false_ne_true)]
  have hall := front_append_of_frame (limit_lt _) h s.incoming.flatten
  have hframes : frames s.maxFrame.toNat s.stream =
      body :: frames s.maxFrame.toNat (rest ++ s.incoming.flatten) := by
    rw [hstream, frames_of_frame hall]
  constructor
  · rfl
  · intro hlater
    exact absurd (hended.symm.trans hlater) Bool.false_ne_true
  · rw [hframes, List.head?_cons]
  · rw [hframes, List.tail_cons, Transport.stream]
    exact congrArg _ (if_neg (by rw [hended]; exact Bool.false_ne_true))
  · exact read_nothing _ _
  · intro body' hbody
    obtain rfl := Option.some.inj hbody
    refine ⟨by rw [hended]; exact Bool.false_ne_true, ?_⟩
    rw [(front_eq_frame h).1, List.append_assoc]
  · rw [hall]
    exact fun h => nomatch h

theorem call_of_refused (h : front s.maxFrame.toNat s.pending = .refused)
    (hended : s.ended = false) : Call s none { s with ended := true, pending := [] } := by
  have hall := front_append_of_refused h s.incoming.flatten
  have hstream : s.stream = s.pending ++ s.incoming.flatten := by
    rw [Transport.stream, if_neg (by rw [hended]; exact Bool.false_ne_true)]
  have hframes : frames s.maxFrame.toNat s.stream = [] := by
    rw [hstream]
    exact frames_eq_nil fun _ _ h' => nomatch hall.symm.trans h'
  constructor
  · rfl
  · exact fun _ => rfl
  · rw [hframes, List.head?_nil]
  · rw [hframes, List.tail_nil]
    exact frames_eq_nil fun _ _ h' => nomatch h'
  · exact read_nothing _ _
  · exact fun _ h' => nomatch h'
  · exact fun _ => ⟨rfl, rfl⟩

theorem call_of_end (h : front s.maxFrame.toNat s.pending = .short) (hended : s.ended = false)
    (hincoming : s.incoming = []) : Call s none { s with ended := true } := by
  have hstream : s.stream = s.pending := by
    rw [Transport.stream, if_neg (by rw [hended]; exact Bool.false_ne_true), hincoming,
      List.flatten_nil, List.append_nil]
  have hframes : frames s.maxFrame.toNat s.stream = [] := by
    rw [hstream]
    exact frames_eq_nil fun _ _ h' => nomatch h.symm.trans h'
  constructor
  · rfl
  · exact fun _ => h
  · rw [hframes, List.head?_nil]
  · rw [hframes, List.tail_nil]
    exact frames_eq_nil fun _ _ h' => nomatch h'
  · exact read_nothing _ _
  · exact fun _ h' => nomatch h'
  · rw [hincoming, List.flatten_nil, List.append_nil, h]
    exact fun h' => nomatch h'

/-- Reading one more chunk, behind less than a frame. -/
theorem Call.of_chunk {r : Option Bytes} {chunk : Bytes} {rest : List Bytes}
    (h : front s.maxFrame.toNat s.pending = .short) (hincoming : s.incoming = chunk :: rest)
    (hcall : Call { s with pending := s.pending ++ chunk, incoming := rest } r s') :
    Call s r s' := by
  have hstream : Transport.stream { s with pending := s.pending ++ chunk, incoming := rest } =
      s.stream := by
    rw [Transport.stream, Transport.stream, hincoming, List.flatten_cons, List.append_assoc]
  have hflat : s.pending ++ s.incoming.flatten = s.pending ++ chunk ++ rest.flatten := by
    rw [hincoming, List.flatten_cons, List.append_assoc]
  constructor
  · exact hcall.maxFrame
  · exact hcall.latched
  · rw [hcall.answer, hstream]
  · rw [hcall.stream, hstream]
  · obtain ⟨read, hread, hshort⟩ := hcall.read
    refine ⟨chunk :: read, by rw [hincoming, List.cons_append, ← hread], fun first hfirst hne => ?_⟩
    rcases first with _ | ⟨c, first⟩
    · rwa [List.flatten_nil, List.append_nil]
    obtain ⟨rfl, hbehind⟩ := List.cons_prefix_cons.1 hfirst
    rw [List.flatten_cons, ← List.append_assoc]
    exact hshort first hbehind fun heq => hne (by rw [heq])
  · rw [hflat]
    exact hcall.frame
  · rw [hflat]
    exact hcall.refused

theorem nextFrame_call (hended : s.ended = false) : Call s (nextFrame s).1 (nextFrame s).2 := by
  obtain ⟨limit, pending, ended, incoming⟩ := s
  -- By induction on the chunks that have not been read.
  induction incoming generalizing pending with
  | nil =>
    rcases hfront : front limit.toNat pending with _ | _ | ⟨body, rest⟩
    · rw [nextFrame_of_short_nil hfront (by rw [hended]; exact Bool.false_ne_true) rfl]
      exact call_of_end hfront hended rfl
    · rw [nextFrame_of_refused hfront]
      exact call_of_refused hfront hended
    · rw [nextFrame_of_frame hfront]
      exact call_of_frame hfront hended
  | cons chunk incoming ih =>
    rcases hfront : front limit.toNat pending with _ | _ | ⟨body, rest⟩
    · rw [nextFrame_of_short_cons hfront (by rw [hended]; exact Bool.false_ne_true) rfl]
      exact (ih (pending ++ chunk) hended).of_chunk hfront rfl
    · rw [nextFrame_of_refused hfront]
      exact call_of_refused hfront hended
    · rw [nextFrame_of_frame hfront]
      exact call_of_frame hfront hended

/-! ## Successive calls -/

/-- The calls answer with the frames of the stream one by one, then with nothing for ever. -/
theorem results_eq (hlatched : s.Latched) (n : ℕ) :
    (calls n s).1 = (List.range n).map fun i => (frames s.maxFrame.toNat s.stream)[i]? := by
  induction n generalizing s with
  | zero => rfl
  | succ n ih =>
    show (nextFrame s).1 :: (calls n (nextFrame s).2).1 = _
    rw [List.range_succ_eq_map, List.map_cons, List.map_map]
    by_cases hended : s.ended
    · -- The end has been seen: nothing is left of the stream.
      have hnil : frames s.maxFrame.toNat s.stream = [] := by
        rw [Transport.stream, if_pos hended]
        exact frames_eq_nil fun _ _ h => nomatch h
      rw [nextFrame_of_ended hlatched hended, ih hlatched, hnil]
      rfl
    · have hcall := nextFrame_call (Bool.eq_false_iff.2 hended)
      rw [ih hcall.latched, hcall.maxFrame, hcall.stream, hcall.answer, ← List.head?_eq_getElem?]
      congr 1
      apply List.map_congr_left
      intro i _
      rw [List.getElem?_tail, Function.comp_apply]

/-- A stream whose frames are followed by a length above the limit: the call that sees the length
drops what it holds, and the last chunk read is the one that completes the length. -/
theorem stops_at_prefix {bodies : List Bytes} {tail : Bytes} (hended : s.ended = false)
    (htail : front s.maxFrame.toNat tail = .refused)
    (hbodies : ∀ body ∈ bodies, body.length ≤ s.maxFrame.toNat)
    (hstream : s.pending ++ s.incoming.flatten = bodies.flatMap frame ++ tail) :
    let after := (calls (bodies.length + 1) s).2
    after.ended ∧ after.pending = [] ∧
      ∃ read, s.incoming = read ++ after.incoming ∧ ∀ first, first <+: read → first ≠ read →
        (s.pending ++ first.flatten).length < (bodies.flatMap frame).length + 4 := by
  induction bodies generalizing s with
  | nil =>
    have hcall := nextFrame_call hended
    rw [List.flatMap_nil, List.nil_append] at hstream
    obtain ⟨hlast, hpending⟩ := hcall.refused (by rw [hstream, htail])
    obtain ⟨read, hread, hshort⟩ := hcall.read
    refine ⟨hlast, hpending, read, hread, fun first hfirst hne => ?_⟩
    -- Four bytes would have been enough to refuse the length.
    by_contra hfour
    rw [List.flatMap_nil, List.length_nil, Nat.zero_add, Nat.not_lt] at hfour
    obtain ⟨rest, hrest⟩ := hfirst
    have htake : (s.pending ++ s.incoming.flatten).take 4 =
        (s.pending ++ first.flatten).take 4 := by
      rw [hread, ← hrest, List.flatten_append, List.flatten_append, ← List.append_assoc,
        ← List.append_assoc, List.append_assoc, List.take_append_of_le_length hfour]
    have hrefused : front s.maxFrame.toNat (s.pending ++ first.flatten) = .refused := by
      refine front_eq_refused.2 ⟨hfour, ?_⟩
      rw [← htake, hstream]
      exact (front_eq_refused.1 htail).2
    exact nomatch (hshort first ⟨rest, hrest⟩ hne).symm.trans hrefused
  | cons body bodies ih =>
    obtain ⟨hbody, hbodies⟩ := List.forall_mem_cons.1 hbodies
    have hcall := nextFrame_call hended
    rw [List.flatMap_cons, List.append_assoc] at hstream
    have hfirst := front_frame_append (limit_lt s.maxFrame) hbody (bodies.flatMap frame ++ tail)
    have hanswer : (nextFrame s).1 = some body := by
      rw [hcall.answer, Transport.stream, if_neg (by rw [hended]; exact Bool.false_ne_true),
        hstream, frames_of_frame hfirst, List.head?_cons]
    obtain ⟨hgoing, hrest⟩ := hcall.frame body hanswer
    obtain ⟨read, hread, hshort⟩ := hcall.read
    have hnext := ih (Bool.eq_false_iff.2 hgoing) (by rw [hcall.maxFrame]; exact htail)
      (by rw [hcall.maxFrame]; exact hbodies) (List.append_cancel_left (hrest.symm.trans hstream))
    show (calls (bodies.length + 1) (nextFrame s).2).2.ended ∧ _
    obtain ⟨hlast, hpending, read', hread', hbound⟩ := hnext
    refine ⟨hlast, hpending, read ++ read', ?_, fun first hpart' hne => ?_⟩
    · rw [hread, hread', List.append_assoc]
      rfl
    have htotal : ((body :: bodies).flatMap frame).length =
        4 + body.length + (bodies.flatMap frame).length := by
      rw [List.flatMap_cons, List.length_append, length_frame]
    rw [htotal]
    rcases Nat.lt_or_ge first.length read.length with hlt | hge
    · -- The chunks of the first call: up to the last one there is less than its frame.
      have hfirst' : first <+: read :=
        List.prefix_of_prefix_length_le hpart' (List.prefix_append _ _) (by omega)
      have hpart : s.pending ++ first.flatten <+: frame body ++ (bodies.flatMap frame ++ tail) := by
        obtain ⟨last, rfl⟩ := hfirst'
        rw [← hstream, hread, List.flatten_append, List.flatten_append, List.append_assoc,
          List.prefix_append_right_inj]
        exact List.prefix_append _ _
      have hsmall := length_lt_of_short (limit_lt _) hbody
        (hshort first hfirst' fun heq => absurd hlt (by rw [heq]; omega)) hpart
      omega
    · -- The chunks of the calls after it.
      obtain ⟨first', rfl⟩ := List.prefix_of_prefix_length_le (List.prefix_append read read')
        hpart' hge
      have hkept : s.pending ++ read.flatten = frame body ++ (nextFrame s).2.pending := by
        rw [hread, List.flatten_append, ← List.append_assoc, ← List.append_assoc] at hrest
        exact List.append_cancel_right hrest
      have hlater := hbound first' ((List.prefix_append_right_inj read).1 hpart')
        fun heq => hne (by rw [heq])
      have hlength : (s.pending ++ (read ++ first').flatten).length =
          4 + body.length + ((nextFrame s).2.pending ++ first'.flatten).length := by
        rw [List.flatten_append, ← List.append_assoc, hkept, List.append_assoc, List.length_append,
          length_frame]
      omega

theorem calls_of_ended (hlatched : s.Latched) (h : s.ended) (n : ℕ) : (calls n s).2 = s := by
  induction n with
  | zero => rfl
  | succ n ih =>
    show (calls n (nextFrame s).2).2 = s
    rw [nextFrame_of_ended hlatched h]
    exact ih

theorem latched_calls (hlatched : s.Latched) (n : ℕ) : (calls n s).2.Latched := by
  induction n generalizing s with
  | zero => exact hlatched
  | succ n ih =>
    show (calls n (nextFrame s).2).2.Latched
    by_cases hended : s.ended
    · rw [nextFrame_of_ended hlatched hended]
      exact ih hlatched
    · exact ih (nextFrame_call (Bool.eq_false_iff.2 hended)).latched

/-! ## From one end to the other -/

variable {write : Bytes → Except String Unit}

/-- Every message within the limit is written as a frame, and no other. -/
theorem written_sendFrame (limit : UInt32) (write : Bytes → Except String Unit) (body : Bytes) :
    (sendFrame limit write body).written =
      if body.length ≤ limit.toNat then [frame body] else [] := by
  rw [sendFrame]
  by_cases h : body.length ≤ limit.toNat
  · rw [if_neg (by omega), if_pos h]
    dsimp only
    split <;> rfl
  · rw [if_pos (by omega), if_neg h]

theorem written_flatten (limit : UInt32) (write : Bytes → Except String Unit) {bodies : List Bytes}
    (h : ∀ body ∈ bodies, body.length ≤ limit.toNat) :
    (bodies.flatMap fun body => (sendFrame limit write body).written).flatten =
      bodies.flatMap frame := by
  induction bodies with
  | nil => rfl
  | cons body bodies ih =>
    obtain ⟨hbody, hbodies⟩ := List.forall_mem_cons.1 h
    rw [List.flatMap_cons, List.flatten_append, ih hbodies, written_sendFrame, if_pos hbody,
      List.flatten_singleton, List.flatMap_cons]

/-- What calls answer with when the frames of a stream are followed by no other frame. -/
theorem results_new {bodies chunks : List Bytes} {tail : Bytes}
    (hbodies : ∀ body ∈ bodies, body.length ≤ limit.toNat)
    (hstream : chunks.flatten = bodies.flatMap frame ++ tail)
    (htail : ∀ body rest, front limit.toNat tail ≠ .frame body rest) (n : ℕ) :
    (calls n (.new limit chunks)).1 = (List.range n).map fun i => bodies[i]? := by
  have hframes : frames limit.toNat (Transport.new limit chunks).stream = bodies := by
    show frames limit.toNat ([] ++ chunks.flatten) = _
    rw [List.nil_append, hstream, frames_flatMap_append (limit_lt limit) hbodies,
      frames_eq_nil htail, List.append_nil]
  rw [results_eq (latched_new limit chunks)]
  exact congrArg (fun bodies => (List.range n).map fun i => bodies[i]?) hframes

/-- Framing does not depend on how the stream is cut.

The messages of a connection arrive as they were sent, in order and each once, and behind them calls
answer with nothing for ever: when the stream ends, be it inside a length or a message, and when a
length above the limit follows. Such a length ends the reading: no chunk is read behind the one that
completes it, and nothing of it is kept. What is sent at all, the other side takes. -/
theorem framing (limit : UInt32) (write : Bytes → Except String Unit) (bodies chunks : List Bytes)
    (tail : Bytes) (hbodies : ∀ body ∈ bodies, body.length ≤ limit.toNat)
    (hcut : chunks.flatten =
      (bodies.flatMap fun body => (sendFrame limit write body).written).flatten ++ tail) :
    ((tail.length < 4 ∨ ∃ body, body.length ≤ limit.toNat ∧ tail <+: frame body ∧
        tail ≠ frame body) →
      ∀ n, (calls n (.new limit chunks)).1 = (List.range n).map fun i => bodies[i]?) ∧
    (4 ≤ tail.length ∧ limit.toNat < BigEndian.ofBytes (tail.take 4) →
      (∀ n, (calls n (.new limit chunks)).1 = (List.range n).map fun i => bodies[i]?) ∧
      let after := (calls (bodies.length + 1) (.new limit chunks)).2
      (∀ n, (calls n after).2 = after) ∧ after.pending = [] ∧
        ∃ read, chunks = read ++ after.incoming ∧ ∀ first, first <+: read → first ≠ read →
          first.flatten.length < (bodies.flatMap frame).length + 4) ∧
    ∀ body, ∀ sent ∈ (sendFrame limit write body).written, ∀ rest,
      (nextFrame (.new limit [sent ++ rest])).1 = some body := by
  rw [written_flatten limit write hbodies] at hcut
  refine ⟨fun htail => ?_, fun hlength => ?_, fun body sent hsent rest => ?_⟩
  · have hshort : front limit.toNat tail = .short := by
      rcases htail with hsmall | ⟨body, hbody, hpart, hne⟩
      · exact front_eq_short.2 (.inl hsmall)
      · exact front_of_part (limit_lt limit) hbody hpart hne
    exact results_new hbodies hcut fun _ _ h => nomatch hshort.symm.trans h
  · have hrefused : front limit.toNat tail = .refused := front_eq_refused.2 hlength
    refine ⟨results_new hbodies hcut fun _ _ h => (nomatch hrefused.symm.trans h), ?_⟩
    obtain ⟨hended, hpending, hread⟩ :=
      stops_at_prefix (s := .new limit chunks) rfl hrefused hbodies hcut
    exact ⟨fun n => calls_of_ended (latched_calls (latched_new limit chunks) _) hended n, hpending,
      hread⟩
  · rw [written_sendFrame] at hsent
    split_ifs at hsent with hbody
    · obtain rfl := List.mem_singleton.1 hsent
      have hanswer := (nextFrame_call (s := .new limit [frame body ++ rest]) rfl).answer
      rw [hanswer]
      show (frames limit.toNat ([] ++ [frame body ++ rest].flatten)).head? = _
      rw [List.nil_append, List.flatten_singleton,
        frames_of_frame (front_frame_append (limit_lt limit) hbody rest), List.head?_cons]
    · exact absurd hsent List.not_mem_nil

/-- Two messages, one of them empty, cut inside their lengths, and a stream that ends inside the
next one. -/
theorem framing_cut :
    let chunks : List Bytes := [[0, 0], [0, 2, 1, 2, 0, 0], [0, 0, 0], [0]]
    (calls 4 (.new 8 chunks)).1 = [some [1, 2], some [], none, none] :=
  (framing 8 (fun _ => .ok ()) [[1, 2], []] _ [0, 0] (by decide) (by decide)).1
    (.inl (by decide)) 4

end Polyvisor.Net
