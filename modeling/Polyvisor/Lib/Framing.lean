import Mathlib.Data.List.TakeDrop
import Polyvisor.Lib.BigEndian

/-!
# Length-prefixed frames

A stream of bodies, each behind its length as four big-endian bytes, for a reader that takes bodies
of at most `limit` bytes. What a stream holds is a function of its bytes alone, however they arrive.

* `front`: what a stream begins with. `frames`: the bodies it holds, up to where it ends or is
  refused.
* `front_append_of_frame`, `front_append_of_refused`: more bytes do not change what is there.
* `frames_flatMap_append`: a stream of frames holds their bodies.
-/

namespace Framing

/-- The frame of a body. -/
def frame (body : List UInt8) : List UInt8 :=
  BigEndian.toBytes 4 body.length ++ body

/-- What a stream begins with. -/
inductive Front where
  /-- less than a frame -/
  | short
  /-- a length above the limit -/
  | refused
  | frame (body rest : List UInt8)
  deriving DecidableEq

/-- What a stream begins with. -/
def front (limit : ℕ) (bytes : List UInt8) : Front :=
  if bytes.length < 4 then .short
  else
    let length := BigEndian.ofBytes (bytes.take 4)
    if limit < length then .refused
    else if bytes.length < 4 + length then .short
    else .frame ((bytes.drop 4).take length) (bytes.drop (4 + length))

variable {limit : ℕ} {bytes body rest : List UInt8}

theorem length_frame (body : List UInt8) : (frame body).length = 4 + body.length := by
  rw [frame, List.length_append, BigEndian.length_toBytes]

/-- What there is to know about a frame at the front. -/
theorem front_eq_frame (h : front limit bytes = .frame body rest) :
    bytes = frame body ++ rest ∧ body.length ≤ limit := by
  rw [front] at h
  dsimp only at h
  split_ifs at h with hfour' hlimit hbody
  obtain ⟨rfl, rfl⟩ := Front.frame.inj h
  have hfour : (bytes.take 4).length = 4 := by rw [List.length_take]; omega
  have hlength : ((bytes.drop 4).take (BigEndian.ofBytes (bytes.take 4))).length =
      BigEndian.ofBytes (bytes.take 4) := by
    rw [List.length_take, List.length_drop]
    omega
  have hdigits := BigEndian.toBytes_ofBytes (bytes.take 4)
  rw [hfour] at hdigits
  refine ⟨?_, by omega⟩
  rw [frame, hlength, hdigits, List.append_assoc, ← List.drop_drop, List.take_append_drop,
    List.take_append_drop]

theorem front_frame_append (hlimit : limit < 2 ^ 32) (h : body.length ≤ limit)
    (rest : List UInt8) : front limit (frame body ++ rest) = .frame body rest := by
  have hfour : (BigEndian.toBytes 4 body.length).length = 4 := BigEndian.length_toBytes 4 _
  have hfour' : (frame body ++ rest).take 4 = BigEndian.toBytes 4 body.length := by
    rw [frame, List.append_assoc, List.take_left' hfour]
  have hlength : BigEndian.ofBytes ((frame body ++ rest).take 4) = body.length := by
    rw [hfour', BigEndian.ofBytes_toBytes_of_lt (by omega)]
  have hbehind : (frame body ++ rest).drop 4 = body ++ rest := by
    rw [frame, List.append_assoc, List.drop_left' hfour]
  have htotal : (frame body ++ rest).length = 4 + body.length + rest.length := by
    rw [List.length_append, length_frame]
  rw [front, if_neg (by omega)]
  dsimp only
  rw [hlength, if_neg (by omega), if_neg (by omega), ← List.drop_drop, hbehind, List.take_left,
    List.drop_left]

/-- More bytes do not change a frame that is there. -/
theorem front_append_of_frame (hlimit : limit < 2 ^ 32) (h : front limit bytes = .frame body rest)
    (more : List UInt8) : front limit (bytes ++ more) = .frame body (rest ++ more) := by
  obtain ⟨rfl, hbody⟩ := front_eq_frame h
  rw [List.append_assoc, front_frame_append hlimit hbody]

theorem front_eq_refused :
    front limit bytes = .refused ↔ 4 ≤ bytes.length ∧ limit < BigEndian.ofBytes (bytes.take 4) := by
  rw [front]
  dsimp only
  split_ifs with hfour' hlimit hbody
  · exact iff_of_false (fun h => nomatch h) fun h => absurd h.1 (by omega)
  · exact iff_of_true rfl ⟨by omega, hlimit⟩
  · exact iff_of_false (fun h => nomatch h) fun h => hlimit h.2
  · exact iff_of_false (fun h => nomatch h) fun h => hlimit h.2

/-- More bytes do not change a length that is refused. -/
theorem front_append_of_refused (h : front limit bytes = .refused) (more : List UInt8) :
    front limit (bytes ++ more) = .refused := by
  obtain ⟨hlength, hlimit⟩ := front_eq_refused.1 h
  refine front_eq_refused.2 ⟨by rw [List.length_append]; omega, ?_⟩
  rwa [List.take_append_of_le_length hlength]

theorem front_eq_short : front limit bytes = .short ↔
    bytes.length < 4 ∨ (BigEndian.ofBytes (bytes.take 4) ≤ limit ∧
      bytes.length < 4 + BigEndian.ofBytes (bytes.take 4)) := by
  rw [front]
  dsimp only
  split_ifs with hfour' hlimit hbody
  · exact iff_of_true rfl (.inl hfour')
  · exact iff_of_false (fun h => nomatch h) (by omega)
  · exact iff_of_true rfl (.inr ⟨by omega, hbody⟩)
  · exact iff_of_false (fun h => nomatch h) (by omega)

/-- Part of a frame and the bytes behind it that is still short is short of the frame. -/
theorem length_lt_of_short (hlimit : limit < 2 ^ 32) (hbody : body.length ≤ limit)
    (h : front limit bytes = .short) (hpart : bytes <+: frame body ++ rest) :
    bytes.length < 4 + body.length := by
  rw [← length_frame]
  by_contra hlong
  obtain ⟨behind, rfl⟩ :=
    List.prefix_of_prefix_length_le (List.prefix_append (frame body) rest) hpart (by omega)
  rw [front_frame_append hlimit hbody] at h
  exact nomatch h

/-- A part of a frame is short: whatever else it began with, so would the whole frame. -/
theorem front_of_part (hlimit : limit < 2 ^ 32) (hbody : body.length ≤ limit)
    (hpart : bytes <+: frame body) (hne : bytes ≠ frame body) : front limit bytes = .short := by
  obtain ⟨rest, hrest⟩ := hpart
  have hwhole := front_frame_append hlimit hbody []
  rw [List.append_nil, ← hrest] at hwhole
  rcases hfront : front limit bytes with _ | _ | ⟨body', rest'⟩
  · rfl
  · rw [front_append_of_refused hfront] at hwhole
    exact nomatch hwhole
  · rw [front_append_of_frame hlimit hfront] at hwhole
    obtain ⟨rfl, hnil⟩ := Front.frame.inj hwhole
    obtain ⟨rfl, rfl⟩ := List.append_eq_nil_iff.1 hnil
    exact absurd (by rw [(front_eq_frame hfront).1, List.append_nil]) hne

/-- The bodies that a stream holds, up to where it ends or is refused. -/
def frames (limit : ℕ) (bytes : List UInt8) : List (List UInt8) :=
  match _h : front limit bytes with
  | .frame body rest => body :: frames limit rest
  | _ => []
termination_by bytes.length
decreasing_by
  rw [(front_eq_frame _h).1, List.length_append, length_frame]
  omega

theorem frames_of_frame (h : front limit bytes = .frame body rest) :
    frames limit bytes = body :: frames limit rest := by
  rw [frames]
  split
  · rename_i h'
    obtain ⟨rfl, rfl⟩ := Front.frame.inj (h.symm.trans h')
    rfl
  · rename_i hnone
    exact absurd h (hnone _ _)

theorem frames_eq_nil (h : ∀ body rest, front limit bytes ≠ .frame body rest) :
    frames limit bytes = [] := by
  rw [frames]
  split
  · rename_i h'
    exact absurd h' (h _ _)
  · rfl

theorem frames_flatMap_append (hlimit : limit < 2 ^ 32) {bodies : List (List UInt8)}
    (h : ∀ body ∈ bodies, body.length ≤ limit) (rest : List UInt8) :
    frames limit (bodies.flatMap frame ++ rest) = bodies ++ frames limit rest := by
  induction bodies with
  | nil => rfl
  | cons body bodies ih =>
    obtain ⟨hbody, hbodies⟩ := List.forall_mem_cons.1 h
    rw [List.flatMap_cons, List.append_assoc, frames_of_frame (front_frame_append hlimit hbody _),
      ih hbodies, List.cons_append]

end Framing
