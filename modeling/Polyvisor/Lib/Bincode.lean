import Polyvisor.Lib.BigEndian
import Polyvisor.Lib.Fields
import Polyvisor.Lib.Text

/-!
# A binary format without tags

The format of `bincode` with numbers of a fixed width: least significant byte first, lengths as
eight bytes, the variant of an enumeration as four, arrays without a length.

* `Codec`: how values are written and read from the front of a byte string.
* `Codec.Lawful`: what was written is read back, whatever follows, as long as its length fits.
* `byte`, `bool`, `array`, `bytes`, `text`, `list`, `pair`, `tagged`, `iso`: the codecs, each with
  its law.
* `deserialize_encode`: a whole value is read back.
-/

namespace Bincode

open Fields

/-- How values are written, and read from the front of a byte string with what follows them. -/
structure Codec (α : Type) where
  encode : α → List UInt8
  decode : List UInt8 → Option (α × List UInt8)

/-- What was written is read back. Lengths take eight bytes, so it must not be longer than they
say. -/
def Codec.Lawful {α : Type} (c : Codec α) : Prop :=
  ∀ a rest, (c.encode a).length < 2 ^ 64 → c.decode (c.encode a ++ rest) = some (a, rest)

variable {α β γ : Type}

/-! ## Numbers -/

/-- The low `width` bytes of a number, least significant first. -/
def littleEndian (width n : ℕ) : List UInt8 :=
  (BigEndian.toBytes width n).reverse

@[simp]
theorem length_littleEndian (width n : ℕ) : (littleEndian width n).length = width := by
  rw [littleEndian, List.length_reverse, BigEndian.length_toBytes]

/-- The first bytes, if there are as many. -/
def front (width : ℕ) (input : List UInt8) : Option (List UInt8 × List UInt8) :=
  if width ≤ input.length then some (input.take width, input.drop width) else none

theorem front_append {bytes : List UInt8} {width : ℕ} (h : bytes.length = width)
    (rest : List UInt8) : front width (bytes ++ rest) = some (bytes, rest) := by
  rw [front, if_pos (by rw [List.length_append]; omega), List.take_left' h, List.drop_left' h]

/-- A number at the front. -/
def number (width : ℕ) (input : List UInt8) : Option (ℕ × List UInt8) := do
  let (bytes, rest) ← front width input
  return (BigEndian.ofBytes bytes.reverse, rest)

theorem number_littleEndian {width n : ℕ} (h : n < 256 ^ width) (rest : List UInt8) :
    number width (littleEndian width n ++ rest) = some (n, rest) := by
  have hfront := front_append (length_littleEndian width n) rest
  have hvalue : BigEndian.ofBytes (littleEndian width n).reverse = n := by
    rw [littleEndian, List.reverse_reverse, BigEndian.ofBytes_toBytes_of_lt h]
  simp only [number, hfront, Option.bind_eq_bind, Option.bind_some, hvalue]
  rfl

/-! ## Bytes and texts -/

/-- `u8`. -/
def byte : Codec UInt8 where
  encode b := [b]
  decode
    | [] => none
    | b :: rest => some (b, rest)

theorem lawful_byte : byte.Lawful := fun _ _ _ => rfl

/-- `bool`. -/
def bool : Codec Bool where
  encode b := [if b then 1 else 0]
  decode
    | 0 :: rest => some (false, rest)
    | 1 :: rest => some (true, rest)
    | _ => none

theorem lawful_bool : bool.Lawful := by
  rintro (_ | _) rest -
  · rfl
  · rfl

/-- `[u8; N]`. -/
def array (n : ℕ) : Codec (Block n) where
  encode block := block.toList
  decode input := do
    let (bytes, rest) ← front n input
    return (← asBlock n bytes, rest)

theorem lawful_array (n : ℕ) : (array n).Lawful := by
  intro block rest _
  have hfront := front_append (List.Vector.toList_length block) rest
  simp only [array, hfront, Option.bind_eq_bind, Option.bind_some,
    asBlock_eq_some.2 (rfl : block.toList = block.toList)]
  rfl

/-- `Vec<u8>`. -/
def bytes : Codec (List UInt8) where
  encode l := littleEndian 8 l.length ++ l
  decode input := do
    let (length, input) ← number 8 input
    front length input

theorem lawful_bytes : bytes.Lawful := by
  intro l rest h
  have hlength : l.length < 256 ^ 8 := by
    simp only [bytes, List.length_append, length_littleEndian] at h
    omega
  simp only [bytes, List.append_assoc, number_littleEndian hlength, Option.bind_eq_bind,
    Option.bind_some]
  exact front_append rfl rest

/-- `String`. -/
def text : Codec String where
  encode s := bytes.encode (utf8 s)
  decode input := do
    let (l, rest) ← bytes.decode input
    return (← ofUtf8 l, rest)

theorem lawful_text : text.Lawful := by
  intro s rest h
  simp only [text, lawful_bytes (utf8 s) rest h, Option.bind_eq_bind, Option.bind_some,
    ofUtf8_utf8]
  rfl

/-! ## Sequences, pairs, enumerations -/

/-- `n` values, one after the other. -/
def decodeMany (c : Codec α) : ℕ → List UInt8 → Option (List α × List UInt8)
  | 0, input => some ([], input)
  | n + 1, input => do
    let (a, input) ← c.decode input
    let (l, rest) ← decodeMany c n input
    return (a :: l, rest)

theorem decodeMany_flatMap {c : Codec α} (hc : c.Lawful) (l : List α) (rest : List UInt8)
    (h : (l.flatMap c.encode).length < 2 ^ 64) :
    decodeMany c l.length (l.flatMap c.encode ++ rest) = some (l, rest) := by
  induction l with
  | nil => rfl
  | cons a l ih =>
    rw [List.flatMap_cons, List.length_append] at h
    simp only [List.length_cons, decodeMany, List.flatMap_cons, List.append_assoc,
      hc a (l.flatMap c.encode ++ rest) (by omega), ih (by omega), Option.bind_eq_bind,
      Option.bind_some]
    rfl

/-- `Vec<T>`. -/
def list (c : Codec α) : Codec (List α) where
  encode l := littleEndian 8 l.length ++ l.flatMap c.encode
  decode input := do
    let (length, input) ← number 8 input
    decodeMany c length input

theorem length_list (c : Codec α) (l : List α) :
    ((list c).encode l).length = 8 + (l.map fun a => (c.encode a).length).sum := by
  simp only [list, List.length_append, length_littleEndian, List.length_flatMap]

/-- A list of values that take room. -/
theorem lawful_list {c : Codec α} (hc : c.Lawful) (hpos : ∀ a, 0 < (c.encode a).length) :
    (list c).Lawful := by
  intro l rest h
  have hcount : l.length ≤ (l.flatMap c.encode).length := by
    have hmap : (l.map fun a => (c.encode a).length).length = l.length := List.length_map _
    rw [List.length_flatMap, ← hmap]
    refine List.length_le_sum_of_one_le _ fun n hn => ?_
    obtain ⟨a, -, rfl⟩ := List.mem_map.1 hn
    exact hpos a
  simp only [list, List.length_append, length_littleEndian] at h
  simp only [list, List.append_assoc, Option.bind_eq_bind,
    number_littleEndian (by omega : l.length < 256 ^ 8), Option.bind_some]
  exact decodeMany_flatMap hc l rest (by omega)

/-- Two values, one after the other. -/
def pair (c : Codec α) (d : Codec β) : Codec (α × β) where
  encode p := c.encode p.1 ++ d.encode p.2
  decode input := do
    let (a, input) ← c.decode input
    let (b, rest) ← d.decode input
    return ((a, b), rest)

theorem lawful_pair {c : Codec α} {d : Codec β} (hc : c.Lawful) (hd : d.Lawful) :
    (pair c d).Lawful := by
  rintro ⟨a, b⟩ rest h
  simp only [pair, List.length_append] at h
  simp only [pair, List.append_assoc, hc a (d.encode b ++ rest) (by omega), hd b rest (by omega),
    Option.bind_eq_bind, Option.bind_some]
  rfl

/-- A value written as another. -/
def iso (c : Codec α) (forth : β → α) (back : α → β) : Codec β where
  encode b := c.encode (forth b)
  decode input := do
    let (a, rest) ← c.decode input
    return (back a, rest)

theorem lawful_iso {c : Codec α} (hc : c.Lawful) {forth : β → α} {back : α → β}
    (h : ∀ b, back (forth b) = b) : (iso c forth back).Lawful := by
  intro b rest hlength
  simp only [iso, hc (forth b) rest hlength, Option.bind_eq_bind, Option.bind_some, h]
  rfl

/-- An enumeration without fields: the number of the variant. -/
def tagged [DecidableEq α] (variants : List α) : Codec α where
  encode a := littleEndian 4 (variants.idxOf a)
  decode input := do
    let (tag, rest) ← number 4 input
    return (← variants[tag]?, rest)

theorem lawful_tagged [DecidableEq α] {variants : List α} (h : ∀ a, a ∈ variants)
    (hcount : variants.length < 2 ^ 32) : (tagged variants).Lawful := by
  intro a rest _
  have hlt : variants.idxOf a < variants.length := List.idxOf_lt_length_iff.2 (h a)
  have hget : variants[variants.idxOf a]? = some a := List.getElem?_idxOf (h a)
  simp only [tagged, number_littleEndian (by omega : variants.idxOf a < 256 ^ 4),
    Option.bind_eq_bind, Option.bind_some, hget]
  rfl

/-! ## Whole values -/

/-- `bincode::deserialize`, which ignores what follows. -/
def deserialize (c : Codec α) (input : List UInt8) : Option α :=
  (c.decode input).map Prod.fst

theorem deserialize_encode {c : Codec α} (hc : c.Lawful) (a : α)
    (h : (c.encode a).length < 2 ^ 64) : deserialize c (c.encode a) = some a := by
  have hdecode := hc a [] h
  rw [List.append_nil] at hdecode
  rw [deserialize, hdecode]
  rfl

end Bincode
