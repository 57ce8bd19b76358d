import Mathlib.Algebra.GroupWithZero.Nat
import Mathlib.Data.List.Basic
import Mathlib.Tactic.Common

/-!
# Compact JSON

What a serializer writes of a value without any space, as UTF-8, and how long it is. A value is
what has been written of it: a number, a text, an array of values or an object of them.

* `length_array`, `length_object`: an array or an object is as long as its parts, with a bracket
  and a comma or bracket after each.
* `length_bytes`: an array of bytes takes their decimal digits and one more byte for each.
* `length_bytes_le`: it takes at most four bytes for one.
-/

namespace Json

/-- The bytes of an ASCII text. -/
def text (s : String) : List UInt8 :=
  s.toList.map fun c => c.toNat.toUInt8

/-- A decimal number. -/
def number (n : ℕ) : List UInt8 :=
  (Nat.toDigits 10 n).map fun c => c.toNat.toUInt8

/-- Values between commas. -/
def join : List (List UInt8) → List UInt8
  | [] => []
  | [item] => item
  | item :: next :: rest => item ++ text "," ++ join (next :: rest)

/-- `[…]`. -/
def array (items : List (List UInt8)) : List UInt8 :=
  text "[" ++ join items ++ text "]"

/-- An array of bytes, as the numbers that they are. -/
def bytes (l : List UInt8) : List UInt8 :=
  array (l.map fun byte => number byte.toNat)

/-- One byte of a text, escaped where it has to be. -/
def escape (byte : UInt8) : List UInt8 :=
  if byte = 0x22 then text "\\\""
  else if byte = 0x5c then text "\\\\"
  else if byte = 0x08 then text "\\b"
  else if byte = 0x09 then text "\\t"
  else if byte = 0x0a then text "\\n"
  else if byte = 0x0c then text "\\f"
  else if byte = 0x0d then text "\\r"
  else if byte < 0x20 then
    text "\\u00" ++ text (if byte < 0x10 then "0" else "1") ++
      (Nat.toDigits 16 (byte.toNat % 16)).map fun c => c.toNat.toUInt8
  else [byte]

/-- A text of which the UTF-8 bytes are given. -/
def string (utf8 : List UInt8) : List UInt8 :=
  text "\"" ++ utf8.flatMap escape ++ text "\""

/-- Fields between braces. The names of the fields need no escapes. -/
def object (fields : List (String × List UInt8)) : List UInt8 :=
  [0x7b] ++ join (fields.map fun (name, value) => text "\"" ++ text name ++ text "\":" ++ value) ++
    [0x7d]

/-! ## Lengths -/

@[simp]
theorem length_text (s : String) : (text s).length = s.toList.length :=
  List.length_map _

/-- After every value but the last comes a comma. -/
theorem length_join_add_one {items : List (List UInt8)} (h : items ≠ []) :
    (join items).length + 1 = (items.map fun item => item.length + 1).sum := by
  induction items with
  | nil => exact absurd rfl h
  | cons item items ih =>
    rcases items with _ | ⟨next, rest⟩
    · simp [join]
    · have hrest := ih (List.cons_ne_nil next rest)
      rw [List.map_cons, List.sum_cons, ← hrest]
      simp only [join, List.length_append, length_text]
      show item.length + 1 + _ + 1 = _
      omega

/-- What stands between two brackets takes one more byte for each value, and one at least. -/
theorem length_join (items : List (List UInt8)) :
    (join items).length + 2 = 1 + max 1 (items.map fun item => item.length + 1).sum := by
  rcases items with _ | ⟨item, rest⟩
  · rfl
  · have hjoin := length_join_add_one (List.cons_ne_nil item rest)
    rw [← hjoin]
    omega

theorem length_array (items : List (List UInt8)) :
    (array items).length = 1 + max 1 (items.map fun item => item.length + 1).sum := by
  rw [← length_join]
  simp only [array, List.length_append, length_text]
  show 1 + _ + 1 = _
  omega

theorem length_object (fields : List (String × List UInt8)) :
    (object fields).length = 1 + max 1
      (fields.map fun field => field.1.toList.length + field.2.length + 4).sum := by
  have hparts : (fields.map fun field => field.1.toList.length + field.2.length + 4) =
      (fields.map fun (name, value) => text "\"" ++ text name ++ text "\":" ++ value).map
        fun item => item.length + 1 := by
    rw [List.map_map]
    refine List.map_congr_left fun field _ => ?_
    simp only [Function.comp, List.length_append, length_text]
    show _ = 1 + _ + 2 + _ + 1
    omega
  rw [hparts, ← length_join]
  simp only [object, List.length_append, List.length_singleton]
  omega

/-! ## Arrays of bytes -/

/-- How many decimal digits a byte has. -/
def digits (byte : UInt8) : ℕ :=
  if byte < 10 then 1 else if byte < 100 then 2 else 3

theorem length_number (byte : UInt8) : (number byte.toNat).length = digits byte := by
  have hall : ∀ n : Fin 256, (number (UInt8.ofFin n).toNat).length = digits (UInt8.ofFin n) := by
    decide +kernel
  exact hall byte.toFin

theorem length_bytes (l : List UInt8) :
    (bytes l).length = 1 + max 1 (l.map fun byte => digits byte + 1).sum := by
  rw [bytes, length_array, List.map_map]
  simp only [Function.comp_def, length_number]

theorem digits_le (byte : UInt8) : digits byte ≤ 3 := by
  rw [digits]
  split_ifs
  all_goals omega

/-- Bytes grow at most by a factor of four. -/
theorem length_bytes_le (l : List UInt8) : (bytes l).length ≤ 4 * l.length + 2 := by
  have hsum : (l.map fun byte => digits byte + 1).sum ≤ 4 * l.length := by
    induction l with
    | nil => exact Nat.le_refl _
    | cons byte l ih =>
      have hbyte := digits_le byte
      rw [List.map_cons, List.sum_cons, List.length_cons]
      omega
  rw [length_bytes]
  omega

end Json
