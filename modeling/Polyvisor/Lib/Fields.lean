import Mathlib.Algebra.GroupWithZero.Nat
import Mathlib.Algebra.Order.Group.Nat
import Mathlib.Data.List.GetD
import Mathlib.Data.List.TakeDrop
import Mathlib.Data.Vector.Basic

/-!
# Fields of a fixed width

A byte string cut into consecutive fields, and fields that are filled up with zeros.

* `cut`: the fields of given widths. `flatten_cut` and `cut_flatten`: cutting and putting together
  are inverse to each other.
* `padded`: bytes and the zeros behind them. `eq_padded`: a field whose rest is zero.
-/

namespace Fields

/-- `[u8; N]`. -/
abbrev Block (n : ℕ) := List.Vector UInt8 n

/-- `try_into`: the bytes as a block, if they are as many. -/
def asBlock (n : ℕ) (bytes : List UInt8) : Option (Block n) :=
  if h : bytes.length = n then some ⟨bytes, h⟩ else none

theorem asBlock_eq_some {n : ℕ} {bytes : List UInt8} {block : Block n} :
    asBlock n bytes = some block ↔ block.toList = bytes := by
  rw [asBlock]
  constructor
  · intro h
    split_ifs at h with hlength
    rw [← Option.some.inj h]
    rfl
  · rintro rfl
    rw [dif_pos (List.Vector.toList_length block)]
    rfl

/-- `bytes[i..j]`. -/
def slice (bytes : List UInt8) (i j : ℕ) : List UInt8 :=
  (bytes.drop i).take (j - i)

theorem length_slice {bytes : List UInt8} {i j : ℕ} (h : j ≤ bytes.length) :
    (slice bytes i j).length = j - i := by
  rw [slice, List.length_take, List.length_drop]
  omega

theorem slice_append {before field rest : List UInt8} {i j : ℕ} (hi : before.length = i)
    (hj : i + field.length = j) : slice (before ++ (field ++ rest)) i j = field := by
  have hwidth : j - i = field.length := by omega
  rw [slice, ← hi, List.drop_left, hi, hwidth, List.take_left]

theorem take_one_drop {bytes : List UInt8} {i : ℕ} (h : i < bytes.length) :
    (bytes.drop i).take 1 = [bytes.getD i 0] := by
  rw [List.drop_eq_getElem_cons h, List.take_succ_cons, List.take_zero,
    List.getD_eq_getElem _ _ h]

/-- The fields of these widths at the front of a byte string. -/
def cut : List ℕ → List UInt8 → List (List UInt8)
  | [], _ => []
  | width :: widths, bytes => bytes.take width :: cut widths (bytes.drop width)

theorem flatten_cut {widths : List ℕ} {bytes : List UInt8} (h : bytes.length = widths.sum) :
    (cut widths bytes).flatten = bytes := by
  induction widths generalizing bytes with
  | nil => exact (List.length_eq_zero_iff.1 h).symm
  | cons width widths ih =>
    have hrest : (bytes.drop width).length = widths.sum := by
      rw [List.length_drop, h, List.sum_cons, Nat.add_sub_cancel_left]
    rw [cut, List.flatten_cons, ih hrest, List.take_append_drop]

theorem cut_flatten (fields : List (List UInt8)) :
    cut (fields.map List.length) fields.flatten = fields := by
  induction fields with
  | nil => rfl
  | cons field fields ih =>
    rw [List.map_cons, List.flatten_cons, cut, List.take_left, List.drop_left, ih]

/-- The bytes, and zeros up to the width. -/
def padded (width : ℕ) (bytes : List UInt8) : List UInt8 :=
  bytes ++ List.replicate (width - bytes.length) 0

theorem length_padded {width : ℕ} {bytes : List UInt8} (h : bytes.length ≤ width) :
    (padded width bytes).length = width := by
  rw [padded, List.length_append, List.length_replicate, Nat.add_sub_cancel' h]

theorem take_padded (width : ℕ) (bytes : List UInt8) :
    (padded width bytes).take bytes.length = bytes :=
  List.take_left

theorem drop_padded (width : ℕ) (bytes : List UInt8) :
    (padded width bytes).drop bytes.length = List.replicate (width - bytes.length) 0 :=
  List.drop_left

/-- A field with zeros from `n` on is its first `n` bytes, padded. -/
theorem eq_padded {width n : ℕ} {field : List UInt8} (hwidth : field.length = width)
    (hn : n ≤ width) (hzeros : ∀ byte ∈ field.drop n, byte = 0) :
    field = padded width (field.take n) := by
  have hrest : field.drop n = List.replicate (width - n) 0 := by
    rw [List.eq_replicate_of_mem hzeros, List.length_drop, hwidth]
  have hlength : (field.take n).length = n := by
    rw [List.length_take, hwidth, Nat.min_eq_left hn]
  rw [padded, hlength, ← hrest, List.take_append_drop]

end Fields
