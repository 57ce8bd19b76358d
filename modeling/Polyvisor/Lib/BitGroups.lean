import Mathlib.Algebra.GroupWithZero.Nat
import Mathlib.Data.List.Induction
import Mathlib.Data.Nat.Bitwise
import Mathlib.Data.Nat.Notation
import Mathlib.Tactic.Ring

/-!
# Bytes in groups of a few bits

A byte string read as bits, most significant first, and cut into groups of `width` bits, the last
one filled up with zeros. This is what base-32 and base-64 texts spell.

* `toBits`, `ofBits`: a number and its bits, inverse to each other on the numbers that fit.
* `groups`: the groups of a string of bits. `flatMap_groups` puts them together again.
* `ungroup`: the bytes that a list of groups spells, if nothing but a group's zero padding is left
  over. `ungroup_eq_some_iff`: exactly the groups of a byte string spell it.
* `Holds`: what an accumulator that shifts without masking knows about the bits it still has to
  give out. `Holds.push`, `Holds.wrap`, `Holds.front` and `Holds.back` are its rules.
-/

namespace BitGroups

/-! ## Numbers and bits -/

/-- The low `width` bits of a number, most significant first. -/
def toBits : ℕ → ℕ → List Bool
  | 0, _ => []
  | width + 1, n => n.testBit width :: toBits width n

/-- The number a string of bits spells, first bit most significant. -/
def ofBits (bits : List Bool) : ℕ :=
  bits.foldl (fun n bit => 2 * n + bit.toNat) 0

@[simp]
theorem length_toBits (width n : ℕ) : (toBits width n).length = width := by
  induction width with
  | zero => rfl
  | succ width ih => rw [toBits, List.length_cons, ih]

@[simp]
theorem ofBits_nil : ofBits [] = 0 := rfl

theorem ofBits_append_singleton (bits : List Bool) (bit : Bool) :
    ofBits (bits ++ [bit]) = 2 * ofBits bits + bit.toNat := by
  rw [ofBits, List.foldl_append]
  rfl

theorem ofBits_append (bits rest : List Bool) :
    ofBits (bits ++ rest) = ofBits bits * 2 ^ rest.length + ofBits rest := by
  induction rest using List.reverseRecOn with
  | nil => simp
  | append_singleton rest bit ih =>
    rw [← List.append_assoc, ofBits_append_singleton, ih, ofBits_append_singleton,
      List.length_append, List.length_singleton, Nat.pow_succ]
    ring

theorem ofBits_cons (bit : Bool) (bits : List Bool) :
    ofBits (bit :: bits) = bit.toNat * 2 ^ bits.length + ofBits bits := by
  have hbit : ofBits [bit] = bit.toNat := by simp [ofBits]
  rw [← List.singleton_append, ofBits_append, hbit]

theorem ofBits_lt (bits : List Bool) : ofBits bits < 2 ^ bits.length := by
  induction bits using List.reverseRecOn with
  | nil => simp
  | append_singleton bits bit ih =>
    have hbit : bit.toNat ≤ 1 := Bool.toNat_le bit
    rw [ofBits_append_singleton, List.length_append, List.length_singleton, Nat.pow_succ]
    omega

theorem ofBits_toBits (width n : ℕ) : ofBits (toBits width n) = n % 2 ^ width := by
  induction width with
  | zero => simp [toBits, Nat.mod_one]
  | succ width ih =>
    have hbit : (n.testBit width).toNat = n / 2 ^ width % 2 := Nat.toNat_testBit n width
    have hsplit : n % 2 ^ (width + 1) = n % 2 ^ width + 2 ^ width * (n / 2 ^ width % 2) := by
      rw [Nat.pow_succ, Nat.mod_mul]
    rw [toBits, ofBits_cons, length_toBits, ih, hbit, hsplit, Nat.mul_comm, Nat.add_comm]

theorem toBits_mod (width n : ℕ) {high : ℕ} (h : width ≤ high) :
    toBits width (n % 2 ^ high) = toBits width n := by
  induction width with
  | zero => rfl
  | succ width ih =>
    have hbit : (n % 2 ^ high).testBit width = n.testBit width := by
      rw [Nat.testBit_mod_two_pow, decide_eq_true (by omega : width < high), Bool.true_and]
    rw [toBits, toBits, hbit, ih (by omega)]

theorem toBits_zero (width : ℕ) : toBits width 0 = List.replicate width false := by
  induction width with
  | zero => rfl
  | succ width ih => rw [toBits, ih, Nat.zero_testBit, List.replicate_succ]

/-- The bits of a number below its width are the bits it is spelled with. -/
theorem toBits_ofBits (bits : List Bool) : toBits bits.length (ofBits bits) = bits := by
  induction bits with
  | nil => rfl
  | cons bit bits ih =>
    have hbound := ofBits_lt bits
    -- The first bit is the quotient by the weight of the rest, the rest is the remainder.
    have hlow : (bit.toNat * 2 ^ bits.length + ofBits bits) % 2 ^ bits.length = ofBits bits := by
      rw [Nat.mul_comm, Nat.mul_add_mod, Nat.mod_eq_of_lt hbound]
    have hhigh : (bit.toNat * 2 ^ bits.length + ofBits bits).testBit bits.length = bit := by
      rw [Nat.testBit_eq_decide_div_mod_eq, Nat.mul_comm, Nat.mul_add_div (Nat.two_pow_pos _),
        Nat.div_eq_of_lt hbound]
      rcases bit with _ | _ <;> simp
    rw [ofBits_cons, List.length_cons, toBits, hhigh, ← toBits_mod _ _ (Nat.le_refl _), hlow, ih]

theorem toBits_ofBits_of_length {width : ℕ} {bits : List Bool} (h : bits.length = width) :
    toBits width (ofBits bits) = bits := by
  rw [← h, toBits_ofBits]

theorem ofBits_eq_zero {bits : List Bool} : ofBits bits = 0 ↔ ∀ bit ∈ bits, bit = false := by
  induction bits with
  | nil => exact iff_of_true rfl fun bit hbit => absurd hbit List.not_mem_nil
  | cons bit bits ih =>
    have hpos := Nat.two_pow_pos bits.length
    rw [ofBits_cons, List.forall_mem_cons, ← ih, Nat.add_eq_zero_iff, Nat.mul_eq_zero]
    rcases bit with _ | _ <;> simp

/-! ## Groups -/

/-- A group that is too short, with zeros behind it. -/
def fill (width : ℕ) (bits : List Bool) : List Bool :=
  bits ++ List.replicate (width - bits.length) false

/-- The groups of `width` bits of a string of bits, the last one filled up with zeros. -/
def groups (width : ℕ) (bits : List Bool) : List ℕ :=
  if width = 0 ∨ bits = [] then []
  else ofBits (fill width (bits.take width)) :: groups width (bits.drop width)
termination_by bits.length
decreasing_by
  rename_i h
  have := List.length_pos_iff.2 (not_or.1 h).2
  have := (not_or.1 h).1
  rw [List.length_drop]
  omega

variable {width : ℕ}

@[simp]
theorem groups_nil (width : ℕ) : groups width [] = [] := by
  rw [groups, if_pos (.inr rfl)]

/-- The zeros behind the last bit of a string that is to be cut into whole groups. -/
def padding (width length : ℕ) : ℕ :=
  (width - length % width) % width

theorem padding_lt (hwidth : 0 < width) (length : ℕ) : padding width length < width :=
  Nat.mod_lt _ hwidth

theorem fill_eq_self {bits : List Bool} (h : bits.length = width) : fill width bits = bits := by
  rw [fill, h, Nat.sub_self, List.replicate_zero, List.append_nil]

/-- A whole group in front. -/
theorem groups_append (hwidth : 0 < width) {group : List Bool} (h : group.length = width)
    (rest : List Bool) : groups width (group ++ rest) = ofBits group :: groups width rest := by
  have hne : group ++ rest ≠ [] := by
    intro heq
    rw [List.append_eq_nil_iff] at heq
    rw [heq.1] at h
    exact absurd h (by simp; omega)
  rw [groups, if_neg (not_or.2 ⟨by omega, hne⟩), ← h, List.take_left, List.drop_left,
    fill_eq_self rfl]

/-- Less than a whole group at the end. -/
theorem groups_of_length_lt {bits : List Bool} (hne : bits ≠ []) (h : bits.length < width) :
    groups width bits = [ofBits (fill width bits)] := by
  rw [groups, if_neg (not_or.2 ⟨by omega, hne⟩), List.take_of_length_le h.le,
    List.drop_eq_nil_of_le h.le, groups_nil]

/-- Whole groups in front are cut apart from the rest. -/
theorem groups_append_of_mod (hwidth : 0 < width) {front : List Bool}
    (h : front.length % width = 0) (rest : List Bool) :
    groups width (front ++ rest) = groups width front ++ groups width rest := by
  induction hn : front.length using Nat.strong_induction_on generalizing front with
  | _ n ih =>
    subst hn
    by_cases hne : front = []
    · rw [hne, List.nil_append, groups_nil, List.nil_append]
    have hle : width ≤ front.length :=
      Nat.le_of_dvd (List.length_pos_iff.2 hne) (Nat.dvd_of_mod_eq_zero h)
    have hgroup : (front.take width).length = width := by rw [List.length_take]; omega
    have hrest : (front.drop width).length % width = 0 := by
      rw [List.length_drop, ← Nat.mod_eq_sub_mod hle, h]
    have hsmaller : (front.drop width).length < front.length := by rw [List.length_drop]; omega
    conv_lhs => rw [← List.take_append_drop width front, List.append_assoc]
    conv_rhs => rw [← List.take_append_drop width front]
    rw [groups_append hwidth hgroup, groups_append hwidth hgroup, ih _ hsmaller hrest rfl,
      List.cons_append]

/-- The groups of whole groups. -/
theorem groups_flatMap (hwidth : 0 < width) {values : List ℕ} (h : ∀ v ∈ values, v < 2 ^ width) :
    groups width (values.flatMap (toBits width)) = values := by
  induction values with
  | nil => rw [List.flatMap_nil, groups_nil]
  | cons v values ih =>
    obtain ⟨hv, hvalues⟩ := List.forall_mem_cons.1 h
    rw [List.flatMap_cons, groups_append hwidth (length_toBits width v), ofBits_toBits,
      Nat.mod_eq_of_lt hv, ih hvalues]

theorem lt_of_mem_groups {bits : List Bool} {v : ℕ} (h : v ∈ groups width bits) :
    v < 2 ^ width := by
  induction hn : bits.length using Nat.strong_induction_on generalizing bits with
  | _ n ih =>
    subst hn
    rw [groups] at h
    split at h
    · exact absurd h List.not_mem_nil
    rename_i hne
    rcases List.mem_cons.1 h with rfl | h
    · have hlength : (fill width (bits.take width)).length = width := by
        simp only [fill, List.length_append, List.length_replicate, List.length_take]
        omega
      have hlt := ofBits_lt (fill width (bits.take width))
      rwa [hlength] at hlt
    · refine ih (bits.drop width).length ?_ h rfl
      have hpos := List.length_pos_iff.2 (not_or.1 hne).2
      have hzero := (not_or.1 hne).1
      rw [List.length_drop]
      omega

/-- The groups put together are the bits and the zeros that fill up the last group. -/
theorem flatMap_groups (hwidth : 0 < width) (bits : List Bool) :
    (groups width bits).flatMap (toBits width) =
      bits ++ List.replicate (padding width bits.length) false := by
  induction hn : bits.length using Nat.strong_induction_on generalizing bits with
  | _ n ih =>
    subst hn
    by_cases hne : bits = []
    · simp [hne, padding]
    have hpos := List.length_pos_iff.2 hne
    rcases Nat.lt_or_ge bits.length width with hlt | hle
    · -- The last group: its zeros are the padding.
      have hpadding : padding width bits.length = width - bits.length := by
        rw [padding, Nat.mod_eq_of_lt hlt, Nat.mod_eq_of_lt (by omega)]
      have hlength : (fill width bits).length = width := by
        simp only [fill, List.length_append, List.length_replicate]
        omega
      rw [groups_of_length_lt hne hlt, List.flatMap_singleton, hpadding,
        toBits_ofBits_of_length hlength, fill]
    · have hgroup : (bits.take width).length = width := by rw [List.length_take]; omega
      have hpadding : padding width (bits.drop width).length = padding width bits.length := by
        rw [padding, padding, List.length_drop, ← Nat.mod_eq_sub_mod hle]
      have hsmaller : (bits.drop width).length < bits.length := by rw [List.length_drop]; omega
      conv_lhs => rw [← List.take_append_drop width bits]
      rw [groups_append hwidth hgroup, List.flatMap_cons, toBits_ofBits_of_length hgroup,
        ih _ hsmaller _ rfl, hpadding, ← List.append_assoc, List.take_append_drop]

theorem length_flatMap_toBits (values : List ℕ) :
    (values.flatMap (toBits width)).length = values.length * width := by
  rw [List.length_flatMap]
  simp only [length_toBits, List.map_const', List.sum_replicate_nat]

theorem length_groups (hwidth : 0 < width) (bits : List Bool) :
    (groups width bits).length * width = bits.length + padding width bits.length := by
  rw [← length_flatMap_toBits, flatMap_groups hwidth, List.length_append, List.length_replicate]

/-- Zeros that fill up the last group say nothing. -/
theorem groups_append_replicate (hwidth : 0 < width) {bits : List Bool} {zeros : ℕ}
    (hzeros : zeros < width) (h : (bits.length + zeros) % width = 0) :
    groups width (bits ++ List.replicate zeros false) = groups width bits := by
  have hpadding : padding width bits.length = zeros := by
    rw [padding]
    have hdecomposed := Nat.div_add_mod bits.length width
    have hmod : (bits.length % width + zeros) % width = 0 := by
      rw [Nat.add_mod, Nat.mod_mod, ← Nat.add_mod, h]
    have hlt := Nat.mod_lt bits.length hwidth
    rcases Nat.lt_or_ge (bits.length % width + zeros) width with hsmall | hlarge
    · -- Nothing is missing.
      rw [Nat.mod_eq_of_lt hsmall] at hmod
      have hnone : bits.length % width = 0 := by omega
      rw [hnone, Nat.sub_zero, Nat.mod_self]
      omega
    · rw [Nat.mod_eq_sub_mod hlarge, Nat.mod_eq_of_lt (by omega)] at hmod
      rw [Nat.mod_eq_of_lt (by omega)]
      omega
  rw [← hpadding, ← flatMap_groups hwidth,
    groups_flatMap hwidth fun v hv => lt_of_mem_groups hv]

/-! ## Bytes -/

/-- The bits of a byte string. -/
def bitsOf (bytes : List UInt8) : List Bool :=
  bytes.flatMap fun byte => toBits 8 byte.toNat

/-- The bytes that whole groups of eight bits spell. -/
def bytesOf (bits : List Bool) : List UInt8 :=
  (groups 8 bits).map UInt8.ofNat

@[simp]
theorem length_bitsOf (bytes : List UInt8) : (bitsOf bytes).length = 8 * bytes.length := by
  induction bytes with
  | nil => rfl
  | cons byte bytes ih =>
    rw [bitsOf, List.flatMap_cons, List.length_append, length_toBits, ← bitsOf, ih,
      List.length_cons]
    omega

theorem bytesOf_bitsOf (bytes : List UInt8) : bytesOf (bitsOf bytes) = bytes := by
  have hvalues : bitsOf bytes = (bytes.map UInt8.toNat).flatMap (toBits 8) := by
    rw [List.flatMap_map]
    rfl
  have hbound : ∀ v ∈ bytes.map UInt8.toNat, v < 2 ^ 8 := by
    intro v hv
    obtain ⟨byte, -, rfl⟩ := List.mem_map.1 hv
    exact byte.toNat_lt
  rw [bytesOf, hvalues, groups_flatMap (by omega) hbound, List.map_map]
  simp [Function.comp_def]

theorem bitsOf_bytesOf {bits : List Bool} (h : bits.length % 8 = 0) :
    bitsOf (bytesOf bits) = bits := by
  have hbytes : (groups 8 bits).flatMap (fun v => toBits 8 (UInt8.ofNat v).toNat) =
      (groups 8 bits).flatMap (toBits 8) := by
    rw [List.flatMap_def, List.flatMap_def, List.map_congr_left]
    intro v hv
    have hlt : v < 2 ^ 8 := lt_of_mem_groups hv
    rw [UInt8.toNat_ofNat_of_lt' hlt]
  rw [bitsOf, bytesOf, List.flatMap_map, hbytes, flatMap_groups (by omega), padding, h]
  simp

/-- The bytes that groups of `width` bits spell. What is left behind the last byte has to be the
zeros of one group. -/
def ungroup (width : ℕ) (values : List ℕ) : Option (List UInt8) :=
  let bits := values.flatMap (toBits width)
  let whole := bits.length / 8 * 8
  if (bits.drop whole).length < width ∧ ∀ bit ∈ bits.drop whole, bit = false then
    some (bytesOf (bits.take whole))
  else none

/-- Groups spell a byte string iff they are its groups. -/
theorem ungroup_eq_some_iff (hwidth : 0 < width) (hbyte : width ≤ 8) {values : List ℕ}
    (hvalues : ∀ v ∈ values, v < 2 ^ width) {bytes : List UInt8} :
    ungroup width values = some bytes ↔ values = groups width (bitsOf bytes) := by
  constructor
  · intro h
    rw [ungroup] at h
    -- The bits are those of the bytes and the zeros left over.
    generalize hbits : values.flatMap (toBits width) = bits at h
    split at h
    · rename_i hrest
      obtain ⟨hlt, hzero⟩ := hrest
      generalize hwhole : bits.length / 8 * 8 = whole at h hlt hzero
      have hbytes : bitsOf bytes = bits.take whole := by
        rw [← Option.some.inj h, bitsOf_bytesOf]
        rw [List.length_take]
        omega
      have hzeros : bits.drop whole = List.replicate (bits.drop whole).length false :=
        List.eq_replicate_of_mem hzero
      have hdivides : bits.length % width = 0 := by
        rw [← hbits, length_flatMap_toBits, Nat.mul_mod_left]
      have htotal : ((bitsOf bytes).length + (bits.drop whole).length) % width = 0 := by
        rw [hbytes, List.length_take, List.length_drop]
        rwa [show min whole bits.length + (bits.length - whole) = bits.length by omega]
      rw [← groups_append_replicate hwidth hlt htotal, ← hzeros, hbytes, List.take_append_drop,
        ← hbits, groups_flatMap hwidth hvalues]
    · exact nomatch h
  · rintro rfl
    have hpadding := padding_lt hwidth (bitsOf bytes).length
    -- The padding is shorter than a group, so shorter than a byte.
    have hwhole : (bitsOf bytes ++
        List.replicate (padding width (bitsOf bytes).length) false).length / 8 * 8 =
        (bitsOf bytes).length := by
      rw [List.length_append, List.length_replicate, length_bitsOf] at *
      omega
    rw [ungroup, flatMap_groups hwidth]
    rw [hwhole, List.drop_left, List.take_left, if_pos, bytesOf_bitsOf]
    refine ⟨by rwa [List.length_replicate], fun bit hbit => List.eq_of_mem_replicate hbit⟩

/-! ## An accumulator that shifts without masking -/

/-- The low bits of the accumulator are the bits still to be given out. Above them is whatever has
been given out before. -/
def Holds (acc : ℕ) (pending : List Bool) : Prop :=
  acc % 2 ^ pending.length = ofBits pending

theorem holds_nil (acc : ℕ) : Holds acc [] := by
  rw [Holds, List.length_nil, Nat.pow_zero, Nat.mod_one, ofBits_nil]

/-- Shifting `width` bits in. -/
theorem Holds.push {acc : ℕ} {pending : List Bool} (h : Holds acc pending) {value : ℕ}
    (hvalue : value < 2 ^ width) :
    Holds (acc * 2 ^ width + value) (pending ++ toBits width value) := by
  rw [Holds, List.length_append, length_toBits, ofBits_append, length_toBits, ofBits_toBits,
    Nat.mod_eq_of_lt hvalue, ← h, Nat.pow_add, Nat.mul_comm (2 ^ pending.length), Nat.mod_mul,
    Nat.mul_comm acc, Nat.mul_add_mod, Nat.mod_eq_of_lt hvalue,
    Nat.mul_add_div (Nat.two_pow_pos _), Nat.div_eq_of_lt hvalue, Nat.add_zero, Nat.add_comm,
    Nat.mul_comm]

/-- What is lost above the accumulator's size is not pending. -/
theorem Holds.wrap {acc size : ℕ} {pending : List Bool} (h : Holds acc pending)
    (hsize : pending.length ≤ size) : Holds (acc % 2 ^ size) pending := by
  rw [Holds, Nat.mod_mod_of_dvd _ (Nat.pow_dvd_pow 2 hsize), h]

/-- The bits behind stay when the bits in front have been given out. -/
theorem Holds.back {acc : ℕ} {front back : List Bool} (h : Holds acc (front ++ back)) :
    Holds acc back := by
  have hdivides : 2 ^ back.length ∣ 2 ^ (front ++ back).length :=
    Nat.pow_dvd_pow 2 (by rw [List.length_append]; omega)
  rw [Holds, ← Nat.mod_mod_of_dvd acc hdivides, h, ofBits_append, Nat.mul_comm, Nat.mul_add_mod,
    Nat.mod_eq_of_lt (ofBits_lt back)]

/-- The bits in front are read by shifting and masking. -/
theorem Holds.front {acc : ℕ} {front back : List Bool} (h : Holds acc (front ++ back)) :
    acc / 2 ^ back.length % 2 ^ front.length = ofBits front := by
  rw [← Nat.mod_mul_right_div_self, ← Nat.pow_add, Nat.add_comm, ← List.length_append, h,
    ofBits_append, Nat.mul_comm, Nat.mul_add_div (Nat.two_pow_pos _),
    Nat.div_eq_of_lt (ofBits_lt back), Nat.add_zero]

end BitGroups
