import Polyvisor.Lib.BitGroups
import Polyvisor.Lib.Course
import Polyvisor.Lib.Text

/-!
# z-base-32

`z32.rs`: the text a person copies for an endpoint id. Both directions run on a 32-bit accumulator
that shifts without masking, so its high bits are whatever has been shifted out of reach. Its low
bits are those still to be given out (`BitGroups.Holds`), which is what the loops keep.

## Main results

* `encode_eq`: the text of a byte string is its groups of five bits, symbol by symbol.
* `decode_eq`: a text is read as the bytes its groups spell.
* `canonical`: the two are inverse to each other, and no other text is accepted.
-/

namespace Polyvisor.Z32

open BitGroups

abbrev Bytes := List UInt8

/-- `ALPHABET`. -/
def alphabet : Bytes :=
  "ybndrfg8ejkmcpqxot1uwisza345h769".toList.map fun c => UInt8.ofNat c.toNat

/-- `ALPHABET[value] as char`. -/
def digit (value : ℕ) : Char :=
  Char.ofNat (alphabet.getD value 0).toNat

/-- `ALPHABET[(value & 0x1f) as usize] as char`. -/
def symbol (value : BitVec 32) : Char :=
  digit (value &&& 0x1f).toNat

/-! ## Writing -/

/-- The inner loop of `encode`: a symbol for every five bits held. -/
def drain (acc : BitVec 32) : ℕ → List Char → ℕ × List Char
  | bits + 5, out => drain acc bits (out ++ [symbol (acc >>> bits)])
  | bits, out => (bits, out)

/-- `encode`, in front of the next byte. -/
structure Encoder where
  acc : BitVec 32
  bits : ℕ
  out : List Char
  deriving DecidableEq

/-- One byte of `encode`. -/
def Encoder.take (s : Encoder) (byte : UInt8) : Encoder :=
  let acc := s.acc <<< 8 ||| BitVec.ofNat 32 byte.toNat
  let (bits, out) := drain acc (s.bits + 8) s.out
  ⟨acc, bits, out⟩

/-- `encode`. -/
def encode (bytes : Bytes) : String :=
  let s := bytes.foldl Encoder.take ⟨0, 0, []⟩
  -- The leftover bits sit in the high positions of the last symbol.
  String.ofList (if 0 < s.bits then s.out ++ [symbol (s.acc <<< (5 - s.bits))] else s.out)

/-! ## Reading -/

/-- Why `decode` refuses a text. -/
inductive Refusal where
  /-- "… is not part of an endpoint id" -/
  | foreign (symbol : UInt8)
  /-- "this endpoint id is not a whole number of bytes" -/
  | ragged
  deriving DecidableEq

/-- `ALPHABET.iter().position(|&c| c == symbol)`. -/
def position (symbol : UInt8) : Option ℕ :=
  alphabet.findIdx? (· = symbol)

/-- `decode`, in front of the next symbol. -/
structure Decoder where
  acc : BitVec 32
  bits : ℕ
  out : Bytes
  deriving DecidableEq

/-- One value of `decode`. -/
def Decoder.take (s : Decoder) (value : ℕ) : Decoder :=
  let acc := s.acc <<< 5 ||| BitVec.ofNat 32 value
  if 8 ≤ s.bits + 5 then
    ⟨acc, s.bits + 5 - 8, s.out ++ [UInt8.ofNat ((acc >>> (s.bits + 5 - 8)) &&& 0xff).toNat]⟩
  else ⟨acc, s.bits + 5, s.out⟩

/-- The loop of `decode`. -/
def decodeLoop : Decoder → Bytes → Except Refusal Decoder
  | s, [] => .ok s
  | s, symbol :: rest =>
    match position symbol with
    | none => .error (.foreign symbol)
    | some value => decodeLoop (s.take value) rest

/-- The end of `decode`: whatever is left has to be the zeros that `encode` wrote. -/
def Decoder.finish (s : Decoder) : Except Refusal Bytes :=
  if 5 ≤ s.bits ∨ s.acc &&& ((1 : BitVec 32) <<< s.bits - 1) ≠ 0 then .error .ragged
  else .ok s.out

/-- `decode`. -/
def decode (text : String) : Except Refusal Bytes := do
  let s ← decodeLoop ⟨0, 0, []⟩ (utf8 text)
  s.finish

/-- The tests of the source for the bit order. -/
example : encode [0xff] = "9h" ∧ encode [0, 0xff] = "yd9o" := by decide +kernel

/-! ## The alphabet -/

theorem digit_ascii : ∀ v < 32, (digit v).toNat < 128 := by decide +kernel

theorem position_digit : ∀ v < 32, position (UInt8.ofNat (digit v).toNat) = some v := by
  decide +kernel

theorem position_eq_some {c : UInt8} {v : ℕ} (h : position c = some v) :
    v < 32 ∧ c = UInt8.ofNat (digit v).toNat := by
  obtain ⟨hv, hc, -⟩ := List.findIdx?_eq_some_iff_getElem.1 h
  have hsymbols : ∀ v < 32, alphabet.getD v 0 = UInt8.ofNat (digit v).toNat := by decide +kernel
  have hlength : alphabet.length = 32 := by decide +kernel
  rw [hlength] at hv
  have hget := hsymbols v hv
  rw [List.getD_eq_getElem _ _ (by omega), of_decide_eq_true hc] at hget
  exact ⟨hv, hget⟩

/-- The values of a text, if it is spelled in the alphabet. -/
theorem mapM_position {text : Bytes} {values : List ℕ} :
    text.mapM position = some values ↔
      (∀ v ∈ values, v < 32) ∧ text = values.map fun v => UInt8.ofNat (digit v).toNat := by
  induction text generalizing values with
  | nil =>
    rw [List.mapM_nil]
    constructor
    · intro h
      obtain rfl := Option.some.inj h
      exact ⟨fun v hv => absurd hv List.not_mem_nil, rfl⟩
    · rintro ⟨-, h⟩
      rw [List.map_eq_nil_iff.1 h.symm]
      rfl
  | cons c rest ih =>
    rw [List.mapM_cons]
    constructor
    · intro h
      obtain ⟨v, hv, h⟩ := Option.bind_eq_some_iff.1 h
      obtain ⟨tail, htail, h⟩ := Option.bind_eq_some_iff.1 h
      obtain rfl := Option.some.inj h
      obtain ⟨hlt, rfl⟩ := position_eq_some hv
      obtain ⟨hbound, rfl⟩ := ih.1 htail
      exact ⟨List.forall_mem_cons.2 ⟨hlt, hbound⟩, rfl⟩
    · rintro ⟨hbound, heq⟩
      rcases values with _ | ⟨v, tail⟩
      · exact nomatch heq
      obtain ⟨hlt, hbound⟩ := List.forall_mem_cons.1 hbound
      obtain ⟨rfl, hrest⟩ := List.cons.inj heq
      rw [position_digit v hlt, ih.2 ⟨hbound, hrest⟩]
      rfl

/-! ## The accumulator -/

/-- Shifting left and filling the free bits. What does not fit is lost. -/
theorem toNat_push {width value : ℕ} (hwidth : width ≤ 32) (hvalue : value < 2 ^ width)
    (acc : BitVec 32) :
    (acc <<< width ||| BitVec.ofNat 32 value).toNat = (acc.toNat * 2 ^ width + value) % 2 ^ 32 := by
  have hfits : value < 2 ^ 32 :=
    lt_of_lt_of_le hvalue (Nat.pow_le_pow_right (by omega) hwidth)
  have hsplit : 2 ^ 32 = 2 ^ width * 2 ^ (32 - width) := by
    rw [← Nat.pow_add]
    congr 1
    omega
  -- The shifted accumulator is a multiple of the weight, so the low bits are free.
  have hshifted : acc.toNat * 2 ^ width % 2 ^ 32 = 2 ^ width * (acc.toNat % 2 ^ (32 - width)) := by
    rw [hsplit, Nat.mul_comm acc.toNat, Nat.mul_mod_mul_left]
  rw [BitVec.toNat_or, BitVec.toNat_shiftLeft, BitVec.toNat_ofNat, Nat.mod_eq_of_lt hfits,
    Nat.shiftLeft_eq, hshifted, ← Nat.two_pow_add_eq_or_of_lt hvalue, hsplit,
    Nat.mul_comm acc.toNat, Nat.mod_mul, Nat.mul_add_mod, Nat.mod_eq_of_lt hvalue,
    Nat.mul_add_div (Nat.two_pow_pos _), Nat.div_eq_of_lt hvalue, Nat.add_zero, Nat.add_comm]

theorem holds_push {width value : ℕ} {acc : BitVec 32} {pending : List Bool}
    (h : Holds acc.toNat pending) (hvalue : value < 2 ^ width)
    (hsize : pending.length + width ≤ 32) :
    Holds (acc <<< width ||| BitVec.ofNat 32 value).toNat (pending ++ toBits width value) := by
  rw [toNat_push (by omega) hvalue]
  apply (h.push hvalue).wrap
  rw [List.length_append, length_toBits]
  omega

theorem symbol_eq (value : BitVec 32) : symbol value = digit (value.toNat % 2 ^ 5) := by
  rw [symbol, BitVec.toNat_and]
  congr 1
  exact Nat.and_two_pow_sub_one_eq_mod value.toNat 5

theorem toNat_shiftRight (acc : BitVec 32) (bits : ℕ) :
    (acc >>> bits).toNat = acc.toNat / 2 ^ bits := by
  rw [BitVec.toNat_ushiftRight, Nat.shiftRight_eq_div_pow]

/-- The five bits in front are the next symbol. -/
theorem symbol_of_holds {acc : BitVec 32} {front back : List Bool}
    (h : Holds acc.toNat (front ++ back)) (hfront : front.length = 5) :
    symbol (acc >>> back.length) = digit (ofBits front) := by
  rw [symbol_eq, toNat_shiftRight, ← h.front, hfront]

/-! ## What the writer has written -/

/-- The inner loop writes all whole groups it holds. -/
theorem drain_spec {acc : BitVec 32} {bits : ℕ} (out : List Char) {pending : List Bool}
    (h : Holds acc.toNat pending) (hlength : pending.length = bits) :
    ∃ front back, pending = front ++ back ∧ front.length % 5 = 0 ∧ back.length < 5 ∧
      drain acc bits out = (back.length, out ++ (groups 5 front).map digit) := by
  induction bits, out using drain.induct acc generalizing pending with
  | case1 bits out ih =>
    -- One group in front, the loop writes the rest.
    have hfirst : (pending.take 5).length = 5 := by rw [List.length_take]; omega
    have hrest : (pending.drop 5).length = bits := by rw [List.length_drop]; omega
    rw [← List.take_append_drop 5 pending] at h
    obtain ⟨front, back, hsplit, hmod, hback, hdrain⟩ := ih h.back hrest
    have hsymbol := symbol_of_holds h hfirst
    rw [hrest] at hsymbol
    refine ⟨pending.take 5 ++ front, back, ?_, ?_, hback, ?_⟩
    · rw [List.append_assoc, ← hsplit, List.take_append_drop]
    · rw [List.length_append, hfirst, Nat.add_mod_left, hmod]
    · rw [drain, hdrain, hsymbol, groups_append (by omega) hfirst, List.map_cons,
        List.append_assoc, List.singleton_append]
  | case2 bits out hsmall =>
    have hlt : bits < 5 := by
      by_contra hge
      exact hsmall (bits - 5) (by omega)
    refine ⟨[], pending, rfl, rfl, by omega, ?_⟩
    rw [groups_nil, List.map_nil, List.append_nil, hlength, drain]
    exact hsmall

/-- The writer has read these bits: the whole groups are written, the others are held. -/
def Encoder.Reads (s : Encoder) (bits : List Bool) : Prop :=
  ∃ front back, bits = front ++ back ∧ front.length % 5 = 0 ∧ back.length = s.bits ∧ s.bits < 5 ∧
    Holds s.acc.toNat back ∧ s.out = (groups 5 front).map digit

theorem Encoder.reads_take {s : Encoder} {bits : List Bool} (h : s.Reads bits) (byte : UInt8) :
    (s.take byte).Reads (bits ++ toBits 8 byte.toNat) := by
  obtain ⟨front, back, rfl, hmod, hback, hsmall, hholds, hout⟩ := h
  have hbyte : byte.toNat < 2 ^ 8 := byte.toNat_lt
  have hpushed := holds_push hholds hbyte (by omega)
  obtain ⟨front', back', hsplit, hmod', hback', hdrain⟩ :=
    drain_spec s.out hpushed (by rw [List.length_append, length_toBits, hback])
  have htake : s.take byte = ⟨s.acc <<< 8 ||| BitVec.ofNat 32 byte.toNat, back'.length,
      s.out ++ (groups 5 front').map digit⟩ := by
    rw [Encoder.take]
    dsimp only
    rw [hdrain]
  rw [htake]
  refine ⟨front ++ front', back', ?_, ?_, rfl, hback', ?_, ?_⟩
  · rw [List.append_assoc, hsplit, List.append_assoc]
  · rw [List.length_append, Nat.add_mod, hmod, hmod']
  · rw [hsplit] at hpushed
    exact hpushed.back
  · show s.out ++ _ = _
    rw [groups_append_of_mod (by omega) hmod, List.map_append, hout]

theorem Encoder.reads_foldl {s : Encoder} {bits : List Bool} (h : s.Reads bits) (bytes : Bytes) :
    (bytes.foldl Encoder.take s).Reads (bits ++ bitsOf bytes) := by
  induction bytes generalizing s bits with
  | nil => simpa [bitsOf] using h
  | cons byte bytes ih =>
    rw [List.foldl_cons, bitsOf, List.flatMap_cons, ← bitsOf, ← List.append_assoc]
    exact ih (Encoder.reads_take h byte)

/-- The text of a byte string spells its groups of five bits, most significant bit first. -/
theorem encode_eq (bytes : Bytes) :
    encode bytes = String.ofList ((groups 5 (bitsOf bytes)).map digit) := by
  have hstart : Encoder.Reads ⟨0, 0, []⟩ [] :=
    ⟨[], [], rfl, rfl, rfl, by decide, holds_nil _, by rw [groups_nil, List.map_nil]⟩
  obtain ⟨front, back, hbits, hmod, hback, hsmall, hholds, hout⟩ :=
    Encoder.reads_foldl hstart bytes
  rw [List.nil_append] at hbits
  rw [encode]
  generalize bytes.foldl Encoder.take ⟨0, 0, []⟩ = s at hback hsmall hholds hout
  congr 1
  rw [hbits, groups_append_of_mod (by omega) hmod, List.map_append, ← hout]
  by_cases hnone : s.bits = 0
  · have hnil : back = [] := List.length_eq_zero_iff.1 (by omega)
    rw [if_neg (by omega), hnil, groups_nil, List.map_nil, List.append_nil]
  · have hne : back ≠ [] := fun hnil => hnone (by rw [← hback, hnil, List.length_nil])
    -- Shifting zeros in below is what fills the last group up.
    have hfilled : Holds (s.acc <<< (5 - s.bits)).toNat (fill 5 back) := by
      have hfits : (back ++ toBits (5 - s.bits) 0).length ≤ 32 := by
        rw [List.length_append, length_toBits]
        omega
      have hpushed := (hholds.push (Nat.two_pow_pos (5 - s.bits))).wrap hfits
      rw [Nat.add_zero, ← Nat.shiftLeft_eq, ← BitVec.toNat_shiftLeft, toBits_zero] at hpushed
      rwa [fill, hback]
    have hlength : (fill 5 back).length = 5 := by
      rw [fill, List.length_append, List.length_replicate]
      omega
    rw [Holds, hlength] at hfilled
    rw [if_pos (by omega), symbol_eq, hfilled, groups_of_length_lt hne (by omega),
      List.map_singleton]

/-! ## What the reader has read -/

/-- The reader has read these bits: the whole bytes are given out, the others are held. -/
def Decoder.Reads (s : Decoder) (bits : List Bool) : Prop :=
  ∃ front back, bits = front ++ back ∧ front.length % 8 = 0 ∧ back.length = s.bits ∧ s.bits < 8 ∧
    Holds s.acc.toNat back ∧ s.out = bytesOf front

theorem Decoder.reads_take {s : Decoder} {bits : List Bool} (h : s.Reads bits) {value : ℕ}
    (hvalue : value < 32) : (s.take value).Reads (bits ++ toBits 5 value) := by
  obtain ⟨front, back, rfl, hmod, hback, hsmall, hholds, hout⟩ := h
  have hgroup : value < 2 ^ 5 := hvalue
  have hpushed := holds_push hholds hgroup (by omega)
  have hlength : (back ++ toBits 5 value).length = s.bits + 5 := by
    rw [List.length_append, length_toBits, hback]
  generalize hacc : s.acc <<< 5 ||| BitVec.ofNat 32 value = acc at hpushed
  rw [List.append_assoc]
  generalize back ++ toBits 5 value = pending at hpushed hlength
  by_cases hwhole : 8 ≤ s.bits + 5
  · -- A byte is complete: the eight bits in front.
    have hfirst : (pending.take 8).length = 8 := by rw [List.length_take]; omega
    have hrest : (pending.drop 8).length = s.bits + 5 - 8 := by rw [List.length_drop]; omega
    rw [← List.take_append_drop 8 pending] at hpushed
    have hbyte : ((acc >>> (s.bits + 5 - 8)) &&& 0xff).toNat = ofBits (pending.take 8) := by
      rw [BitVec.toNat_and, toNat_shiftRight, ← hpushed.front, hfirst, hrest]
      exact Nat.and_two_pow_sub_one_eq_mod _ 8
    rw [Decoder.take, if_pos hwhole, hacc, hbyte]
    refine ⟨front ++ pending.take 8, pending.drop 8, ?_, ?_, hrest, ?_, hpushed.back, ?_⟩
    · rw [List.append_assoc, List.take_append_drop]
    · rw [List.length_append, hfirst, Nat.add_mod_right, hmod]
    · show s.bits + 5 - 8 < 8
      omega
    · show s.out ++ _ = _
      have hgroup : groups 8 (pending.take 8) = [ofBits (pending.take 8)] := by
        simpa using groups_append (show 0 < 8 by omega) hfirst []
      rw [hout, bytesOf, bytesOf, groups_append_of_mod (by omega) hmod, List.map_append, hgroup,
        List.map_singleton]
  · rw [Decoder.take, if_neg hwhole, hacc]
    refine ⟨front, pending, rfl, hmod, hlength, ?_, hpushed, hout⟩
    show s.bits + 5 < 8
    omega

theorem Decoder.reads_foldl {s : Decoder} {bits : List Bool} (h : s.Reads bits) {values : List ℕ}
    (hvalues : ∀ v ∈ values, v < 32) :
    (values.foldl Decoder.take s).Reads (bits ++ values.flatMap (toBits 5)) := by
  induction values generalizing s bits with
  | nil => simpa using h
  | cons v values ih =>
    obtain ⟨hv, hvalues⟩ := List.forall_mem_cons.1 hvalues
    rw [List.foldl_cons, List.flatMap_cons, ← List.append_assoc]
    exact ih (Decoder.reads_take h hv) hvalues

/-- The loop ends without a refusal iff every byte is a symbol. -/
theorem decodeLoop_eq_ok {s s' : Decoder} {text : Bytes} :
    decodeLoop s text = .ok s' ↔
      ∃ values, text.mapM position = some values ∧ values.foldl Decoder.take s = s' := by
  induction text generalizing s with
  | nil => simp [decodeLoop]
  | cons c rest ih =>
    rw [decodeLoop, List.mapM_cons]
    rcases position c with _ | v
    · simp
    · show decodeLoop (s.take v) rest = .ok s' ↔ _
      rw [ih]
      constructor
      · rintro ⟨values, hvalues, hfold⟩
        exact ⟨v :: values, by rw [hvalues]; rfl, hfold⟩
      · rintro ⟨values, hvalues, hfold⟩
        rw [Option.bind_eq_bind, Option.bind_some] at hvalues
        obtain ⟨tail, htail, h⟩ := Option.bind_eq_some_iff.1 hvalues
        obtain rfl := Option.some.inj h
        exact ⟨tail, htail, hfold⟩

/-- What is left over is refused unless it is less than a group and zero. -/
theorem leftover_iff {acc : BitVec 32} {back : List Bool} (hsmall : back.length < 8)
    (h : Holds acc.toNat back) :
    acc &&& ((1 : BitVec 32) <<< back.length - 1) ≠ 0 ↔ ¬ ∀ bit ∈ back, bit = false := by
  have hmask : ∀ bits < 8, ((1 : BitVec 32) <<< bits - 1).toNat = 2 ^ bits - 1 := by decide
  apply not_congr
  rw [← BitVec.toNat_inj, BitVec.toNat_and, hmask _ hsmall, Nat.and_two_pow_sub_one_eq_mod, h]
  exact ofBits_eq_zero

/-- A text is read as the bytes that its groups spell. -/
theorem decode_eq {text : String} {bytes : Bytes} :
    decode text = .ok bytes ↔
      ∃ values, (utf8 text).mapM position = some values ∧ ungroup 5 values = some bytes := by
  have hstart : Decoder.Reads ⟨0, 0, []⟩ [] :=
    ⟨[], [], rfl, rfl, rfl, by decide, holds_nil _, by rw [bytesOf, groups_nil, List.map_nil]⟩
  -- For a text of symbols: the last check is the one of `ungroup`.
  have hend : ∀ values : List ℕ, (∀ v ∈ values, v < 32) → ∀ s,
      values.foldl Decoder.take ⟨0, 0, []⟩ = s →
      (s.finish = .ok bytes ↔ ungroup 5 values = some bytes) := by
    rintro values hvalues s rfl
    obtain ⟨front, back, hbits, hmod, hback, hsmall, hholds, hout⟩ :=
      Decoder.reads_foldl hstart hvalues
    rw [List.nil_append] at hbits
    generalize values.foldl Decoder.take ⟨0, 0, []⟩ = s at hback hsmall hholds hout
    have hwhole : (front ++ back).length / 8 * 8 = front.length := by
      rw [List.length_append]
      omega
    have hleft := leftover_iff (by omega) hholds
    rw [Decoder.finish, ungroup, hbits]
    rw [hwhole, List.drop_left, List.take_left, ← hback, hout]
    by_cases hrest : back.length < 5 ∧ ∀ bit ∈ back, bit = false
    · have haccepted :
          ¬ (5 ≤ back.length ∨ s.acc &&& ((1 : BitVec 32) <<< back.length - 1) ≠ 0) := by
        rintro (hge | hne)
        · omega
        · exact hleft.1 hne hrest.2
      rw [if_neg haccepted, if_pos hrest]
      exact ⟨fun h => congrArg some (Except.ok.inj h),
        fun h => congrArg Except.ok (Option.some.inj h)⟩
    · have hrefused : 5 ≤ back.length ∨ s.acc &&& ((1 : BitVec 32) <<< back.length - 1) ≠ 0 := by
        by_contra hneither
        obtain ⟨hlt, hzero⟩ := not_or.1 hneither
        exact hrest ⟨by omega, not_not.1 (mt hleft.2 hzero)⟩
      rw [if_pos hrefused, if_neg hrest]
      exact iff_of_false (fun h => by cases h) fun h => by cases h
  rw [decode, except_bind_eq_ok]
  constructor
  · rintro ⟨s, hloop, h⟩
    obtain ⟨values, hvalues, hfold⟩ := decodeLoop_eq_ok.1 hloop
    exact ⟨values, hvalues, (hend values (mapM_position.1 hvalues).1 s hfold).1 h⟩
  · rintro ⟨values, hvalues, h⟩
    exact ⟨_, decodeLoop_eq_ok.2 ⟨values, hvalues, rfl⟩,
      (hend values (mapM_position.1 hvalues).1 _ rfl).2 h⟩

/-! ## The bijection -/

theorem utf8_encode (bytes : Bytes) :
    utf8 (encode bytes) =
      (groups 5 (bitsOf bytes)).map fun v => UInt8.ofNat (digit v).toNat := by
  rw [encode_eq, utf8_ofList, List.map_map]
  · rfl
  · intro c hc
    obtain ⟨v, hv, rfl⟩ := List.mem_map.1 hc
    exact digit_ascii v (lt_of_mem_groups hv)

/-- A text is accepted iff it is the text of some bytes, and these are what it is read as. -/
theorem decode_eq_ok {text : String} {bytes : Bytes} :
    decode text = .ok bytes ↔ encode bytes = text := by
  rw [decode_eq, ← utf8_injective.eq_iff, utf8_encode]
  constructor
  · rintro ⟨values, hvalues, h⟩
    obtain ⟨hbound, htext⟩ := mapM_position.1 hvalues
    rw [htext, (ungroup_eq_some_iff (by omega) (by omega) hbound).1 h]
  · intro h
    have hbound : ∀ v ∈ groups 5 (bitsOf bytes), v < 32 := fun v hv => lt_of_mem_groups hv
    exact ⟨_, mapM_position.2 ⟨hbound, h.symm⟩,
      (ungroup_eq_some_iff (by omega) (by omega) hbound).2 rfl⟩

/-- z-base-32 is a canonical bijection: the bytes survive the text, the text is the five-bit groups
of the bytes, and no text but this one is read as them. -/
theorem canonical :
    (∀ bytes, decode (encode bytes) = .ok bytes) ∧
    (∀ bytes, encode bytes = String.ofList ((groups 5 (bitsOf bytes)).map digit)) ∧
    (∀ text bytes, decode text = .ok bytes → encode bytes = text) ∧
    ∀ text text' bytes, decode text = .ok bytes → decode text' = .ok bytes → text = text' :=
  ⟨fun _ => decode_eq_ok.2 rfl, encode_eq, fun _ _ h => decode_eq_ok.1 h,
    fun _ _ _ h h' => (decode_eq_ok.1 h).symm.trans (decode_eq_ok.1 h')⟩

end Polyvisor.Z32
