import Mathlib.Algebra.GroupWithZero.Nat
import Mathlib.Data.List.Induction
import Mathlib.Data.Nat.Notation

/-!
# Big-endian numbers of a fixed width

`toBytes width n` writes the low `width` bytes of a number, most significant first, and
`ofBytes` reads a byte string back. They are inverse to each other on the numbers that fit and on
the byte strings of that length.
-/

namespace BigEndian

/-- The number a byte string spells, first byte most significant. -/
def ofBytes (bytes : List UInt8) : ℕ :=
  bytes.foldl (fun n byte => n * 256 + byte.toNat) 0

/-- The low `width` bytes of a number, most significant first. -/
def toBytes : ℕ → ℕ → List UInt8
  | 0, _ => []
  | width + 1, n => toBytes width (n / 256) ++ [UInt8.ofNat n]

@[simp]
theorem ofBytes_nil : ofBytes [] = 0 := rfl

@[simp]
theorem ofBytes_append_singleton (bytes : List UInt8) (byte : UInt8) :
    ofBytes (bytes ++ [byte]) = ofBytes bytes * 256 + byte.toNat := by
  simp [ofBytes]

theorem ofBytes_append (bytes rest : List UInt8) :
    ofBytes (bytes ++ rest) = ofBytes bytes * 256 ^ rest.length + ofBytes rest := by
  induction rest using List.reverseRecOn with
  | nil => simp
  | append_singleton rest byte ih =>
    rw [← List.append_assoc, ofBytes_append_singleton, ih, ofBytes_append_singleton,
      List.length_append, List.length_singleton, Nat.pow_succ, Nat.add_mul, Nat.mul_assoc,
      Nat.add_assoc]

@[simp]
theorem length_toBytes (width n : ℕ) : (toBytes width n).length = width := by
  induction width generalizing n with
  | zero => rfl
  | succ width ih => simp [toBytes, ih]

theorem ofBytes_toBytes (width n : ℕ) : ofBytes (toBytes width n) = n % 256 ^ width := by
  induction width generalizing n with
  | zero => simp [toBytes, Nat.mod_one]
  | succ width ih =>
    have hbyte : (UInt8.ofNat n).toNat = n % 256 := by simp
    rw [toBytes, ofBytes_append_singleton, ih, hbyte, Nat.pow_succ', Nat.mod_mul]
    omega

theorem ofBytes_toBytes_of_lt {width n : ℕ} (h : n < 256 ^ width) :
    ofBytes (toBytes width n) = n := by
  rw [ofBytes_toBytes, Nat.mod_eq_of_lt h]

theorem ofBytes_lt (bytes : List UInt8) : ofBytes bytes < 256 ^ bytes.length := by
  induction bytes using List.reverseRecOn with
  | nil => simp
  | append_singleton bytes byte ih =>
    have hbyte : byte.toNat < 256 := byte.toNat_lt
    rw [ofBytes_append_singleton, List.length_append, List.length_singleton, Nat.pow_succ]
    omega

theorem toBytes_ofBytes (bytes : List UInt8) : toBytes bytes.length (ofBytes bytes) = bytes := by
  induction bytes using List.reverseRecOn with
  | nil => rfl
  | append_singleton bytes byte ih =>
    have hbyte : byte.toNat < 256 := byte.toNat_lt
    have hhigh : (ofBytes bytes * 256 + byte.toNat) / 256 = ofBytes bytes := by omega
    have hlow : UInt8.ofNat (ofBytes bytes * 256 + byte.toNat) = byte := by
      apply UInt8.toNat_inj.1
      simp
    rw [ofBytes_append_singleton, List.length_append, List.length_singleton, toBytes, hhigh, hlow,
      ih]

theorem toBytes_inj {width m n : ℕ} (hm : m < 256 ^ width) (hn : n < 256 ^ width)
    (h : toBytes width m = toBytes width n) : m = n := by
  rw [← ofBytes_toBytes_of_lt hm, h, ofBytes_toBytes_of_lt hn]

end BigEndian
