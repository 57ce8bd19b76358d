import Mathlib.Algebra.GroupWithZero.Nat
import Mathlib.Data.List.Basic
import Mathlib.Data.Nat.Log
import Mathlib.Tactic.Common

/-!
# The protobuf wire format

Numbers in base 128, fields, and messages as lists of fields. What a message makes of its fields is
left to the message; a reader gives it the fields in their order, with those it may not know.

## Main results

* `readVarint_varint`, `readFields_encode`: what is written is read back.
* `length_encode_le`: what is read is not shorter than what it says, written again.
-/

namespace Protobuf

abbrev Bytes := List UInt8

/-! ## Numbers -/

/-- A number in base 128, its last digit first. Every byte but the last has its high bit set. -/
def varint (n : ℕ) : Bytes :=
  if n < 128 then [UInt8.ofNat n] else UInt8.ofNat (n % 128 + 128) :: varint (n / 128)
termination_by n
decreasing_by omega

/-- The digits of a number, at most `room` of them, and what is left. -/
def readDigits : (room : ℕ) → Bytes → Option (ℕ × Bytes)
  | 0, _ => none
  | _ + 1, [] => none
  | room + 1, byte :: rest =>
    if byte.toNat < 128 then some (byte.toNat, rest)
    else (readDigits room rest).map fun (n, rest) => (byte.toNat - 128 + 128 * n, rest)

/-- A number of 64 bits. -/
def readVarint (bytes : Bytes) : Option (ℕ × Bytes) :=
  (readDigits 10 bytes).filter fun (n, _) => n < 2 ^ 64

theorem varint_of_lt {n : ℕ} (h : n < 128) : varint n = [UInt8.ofNat n] := by
  rw [varint, if_pos h]

theorem varint_of_le {n : ℕ} (h : 128 ≤ n) :
    varint n = UInt8.ofNat (n % 128 + 128) :: varint (n / 128) := by
  rw [varint, if_neg (by omega)]

theorem length_varint (n : ℕ) : (varint n).length = Nat.log 128 n + 1 := by
  induction n using Nat.strongRecOn with
  | ind n ih =>
    by_cases hn : n < 128
    · rw [varint_of_lt hn, Nat.log_of_lt hn]
      rfl
    · rw [varint_of_le (by omega), Nat.log_of_one_lt_of_le (by decide) (by omega),
        List.length_cons, ih (n / 128) (by omega)]

theorem length_varint_pos (n : ℕ) : 0 < (varint n).length := by
  rw [length_varint]
  exact Nat.succ_pos _

theorem length_varint_le {m n : ℕ} (h : m ≤ n) : (varint m).length ≤ (varint n).length := by
  rw [length_varint, length_varint]
  exact Nat.succ_le_succ (Nat.log_mono_right h)

theorem length_varint_double (n : ℕ) : (varint (2 * n + 1)).length ≤ (varint n).length + 1 := by
  rw [length_varint, length_varint]
  have hlt : n < 128 ^ (Nat.log 128 n + 1) := Nat.lt_pow_succ_log_self (by decide) n
  refine Nat.succ_le_succ (Nat.lt_succ_iff.1 (Nat.log_lt_of_lt_pow (by omega) ?_))
  rw [Nat.pow_succ]
  omega

/-- A sum has no more digits than its summands. -/
theorem length_varint_add_le (m n : ℕ) :
    (varint (m + n)).length ≤ (varint m).length + (varint n).length := by
  have hpos_m := length_varint_pos m
  have hpos_n := length_varint_pos n
  -- it is at most twice the greater one
  rcases Nat.le_total m n with h | h
  · have hle : (varint (m + n)).length ≤ (varint (2 * n + 1)).length := length_varint_le (by omega)
    have hdouble := length_varint_double n
    omega
  · have hle : (varint (m + n)).length ≤ (varint (2 * m + 1)).length := length_varint_le (by omega)
    have hdouble := length_varint_double m
    omega

theorem readDigits_varint {room n : ℕ} (h : n < 128 ^ room) (rest : Bytes) (hroom : 0 < room) :
    readDigits room (varint n ++ rest) = some (n, rest) := by
  induction room generalizing n with
  | zero => exact absurd hroom (Nat.lt_irrefl 0)
  | succ room ih =>
    by_cases hn : n < 128
    · have hbyte : (UInt8.ofNat n).toNat = n := by
        rw [UInt8.toNat_ofNat', Nat.mod_eq_of_lt (by omega)]
      rw [varint_of_lt hn, List.singleton_append, readDigits, if_pos (by omega), hbyte]
    · have hbyte : (UInt8.ofNat (n % 128 + 128)).toNat = n % 128 + 128 := by
        rw [UInt8.toNat_ofNat', Nat.mod_eq_of_lt (by omega)]
      have hdiv : n / 128 < 128 ^ room := by
        rw [Nat.div_lt_iff_lt_mul (by decide)]
        rwa [Nat.pow_succ] at h
      have hroom' : 0 < room := by
        rcases room with _ | room
        · rw [Nat.pow_zero] at hdiv
          omega
        · exact Nat.zero_lt_succ room
      rw [varint_of_le (by omega), List.cons_append, readDigits, if_neg (by omega),
        ih hdiv hroom', Option.map_some]
      have hvalue : (UInt8.ofNat (n % 128 + 128)).toNat - 128 + 128 * (n / 128) = n := by omega
      dsimp only
      rw [hvalue]

theorem readVarint_varint {n : ℕ} (h : n < 2 ^ 64) (rest : Bytes) :
    readVarint (varint n ++ rest) = some (n, rest) := by
  rw [readVarint, readDigits_varint (by omega) rest (by decide)]
  exact Option.filter_some_pos (decide_eq_true h)

/-- What is read may have been written with more digits than it takes. -/
theorem length_of_readDigits {room n : ℕ} {bytes rest : Bytes}
    (h : readDigits room bytes = some (n, rest)) :
    (varint n).length + rest.length ≤ bytes.length := by
  induction room generalizing bytes n with
  | zero => exact (nomatch h)
  | succ room ih =>
    rcases bytes with _ | ⟨byte, bytes⟩
    · exact (nomatch h)
    rw [readDigits] at h
    split_ifs at h with hbyte
    · obtain ⟨rfl, rfl⟩ := Prod.mk.inj (Option.some.inj h)
      rw [varint_of_lt hbyte]
      simp [Nat.add_comm]
    · obtain ⟨⟨m, rest'⟩, hread, heq⟩ := Option.map_eq_some_iff.1 h
      obtain ⟨rfl, rfl⟩ := Prod.mk.inj heq
      have hlength := ih hread
      have hbyte_lt := byte.toNat_lt
      by_cases hm : m = 0
      · -- a high digit that is zero
        rw [hm, varint_of_lt (by omega), List.length_singleton]
        have hpos := length_varint_pos m
        simp only [List.length_cons]
        omega
      · rw [varint_of_le (by omega)]
        have hdiv : (byte.toNat - 128 + 128 * m) / 128 = m := by omega
        rw [hdiv]
        simp only [List.length_cons]
        omega

theorem length_of_readVarint {n : ℕ} {bytes rest : Bytes} (h : readVarint bytes = some (n, rest)) :
    (varint n).length + rest.length ≤ bytes.length := by
  obtain ⟨hread, -⟩ := Option.filter_eq_some_iff.1 h
  exact length_of_readDigits hread

/-! ## Fields -/

/-- What a field holds. Of a group its end is all that is looked for. -/
inductive Value where
  | varint (n : ℕ)
  | fixed64 (bytes : Bytes)
  | bytes (bytes : Bytes)
  | group
  | fixed32 (bytes : Bytes)
  deriving DecidableEq

structure Field where
  tag : ℕ
  value : Value
  deriving DecidableEq

def key (tag type : ℕ) : Bytes := varint (8 * tag + type)

/-- Bytes behind their length. -/
def delimited (bytes : Bytes) : Bytes := varint bytes.length ++ bytes

def Field.encode (f : Field) : Bytes :=
  match f.value with
  | .varint n => key f.tag 0 ++ varint n
  | .fixed64 bytes => key f.tag 1 ++ bytes
  | .bytes bytes => key f.tag 2 ++ delimited bytes
  | .group => key f.tag 3 ++ key f.tag 4
  | .fixed32 bytes => key f.tag 5 ++ bytes

/-- The fields of a message, written one after the other. -/
def encodeFields (fields : List Field) : Bytes := fields.flatMap Field.encode

/-- The tag and the type of the field that begins here. -/
def readKey (bytes : Bytes) : Option (ℕ × ℕ × Bytes) := do
  let (key, rest) ← readVarint bytes
  if key < 2 ^ 32 ∧ 0 < key / 8 then return (key / 8, key % 8, rest) else none

/-- The next `n` bytes. -/
def readFixed (n : ℕ) (bytes : Bytes) : Option (Bytes × Bytes) :=
  if n ≤ bytes.length then some (bytes.take n, bytes.drop n) else none

def readDelimited (bytes : Bytes) : Option (Bytes × Bytes) := do
  let (n, rest) ← readVarint bytes
  readFixed n rest

/-- What is left behind a field of a group. -/
def skipValue (skipInner : Bytes → Option Bytes) (type : ℕ) (bytes : Bytes) : Option Bytes :=
  match type with
  | 0 => (readVarint bytes).map Prod.snd
  | 1 => (readFixed 8 bytes).map Prod.snd
  | 2 => (readDelimited bytes).map Prod.snd
  | 3 => skipInner bytes
  | 5 => (readFixed 4 bytes).map Prod.snd
  | _ => none

/-- What is left behind the end of the group `tag`. Groups are nested up to the limit; every field
of a group has a key, so that the length of the bytes is fuel enough. -/
def skipGroup : (fuel limit : ℕ) → (tag : ℕ) → Bytes → Option Bytes
  | 0, _, _, _ => none
  | fuel + 1, limit, tag, bytes => do
    let (inner, type, rest) ← readKey bytes
    if type = 4 then
      if inner = tag then return rest else none
    else if limit ≤ 1 then none
    else
      let rest ← skipValue (skipGroup fuel (limit - 1) inner) type rest
      skipGroup fuel limit tag rest

/-- The value of a field of the type. The end of a group is none, and types 6 and 7 do not exist. -/
def readValue (limit tag type : ℕ) (bytes : Bytes) : Option (Value × Bytes) :=
  match type with
  | 0 => (readVarint bytes).map fun (n, rest) => (.varint n, rest)
  | 1 => (readFixed 8 bytes).map fun (value, rest) => (.fixed64 value, rest)
  | 2 => (readDelimited bytes).map fun (value, rest) => (.bytes value, rest)
  | 3 => (skipGroup bytes.length limit tag bytes).map fun rest => (.group, rest)
  | 5 => (readFixed 4 bytes).map fun (value, rest) => (.fixed32 value, rest)
  | _ => none

def readField (limit : ℕ) (bytes : Bytes) : Option (Field × Bytes) := do
  let (tag, type, rest) ← readKey bytes
  let (value, rest) ← readValue limit tag type rest
  return (⟨tag, value⟩, rest)

/-- All fields, as many as there is fuel for. -/
def fieldsWithin (limit : ℕ) : (fuel : ℕ) → Bytes → Option (List Field)
  | _, [] => some []
  | 0, _ => none
  | fuel + 1, bytes => do
    let (f, rest) ← readField limit bytes
    return f :: (← fieldsWithin limit fuel rest)

/-- The fields of a message. A field has at least one byte. -/
def readFields (limit : ℕ) (bytes : Bytes) : Option (List Field) :=
  fieldsWithin limit bytes.length bytes

/-! ### Written and read back -/

/-- A field that can be written. -/
def Field.Wf (f : Field) : Prop :=
  (0 < f.tag ∧ f.tag < 2 ^ 29) ∧
    match f.value with
    | .varint n => n < 2 ^ 64
    | .fixed64 bytes => bytes.length = 8
    | .bytes bytes => bytes.length < 2 ^ 64
    | .group => True
    | .fixed32 bytes => bytes.length = 4

theorem readKey_key {tag type : ℕ} (htag : 0 < tag ∧ tag < 2 ^ 29) (htype : type < 8)
    (rest : Bytes) : readKey (key tag type ++ rest) = some (tag, type, rest) := by
  have hdiv : (8 * tag + type) / 8 = tag := by omega
  have hmod : (8 * tag + type) % 8 = type := by omega
  have hkey : 8 * tag + type < 2 ^ 32 ∧ 0 < (8 * tag + type) / 8 := by omega
  rw [readKey, key, readVarint_varint (by omega)]
  show (if _ then some _ else none) = _
  rw [if_pos hkey, hdiv, hmod]

theorem readFixed_append {bytes rest : Bytes} {n : ℕ} (h : bytes.length = n) :
    readFixed n (bytes ++ rest) = some (bytes, rest) := by
  subst h
  simp [readFixed]

theorem readDelimited_append {bytes : Bytes} (h : bytes.length < 2 ^ 64) (rest : Bytes) :
    readDelimited (delimited bytes ++ rest) = some (bytes, rest) := by
  rw [readDelimited, delimited, List.append_assoc, readVarint_varint h]
  exact readFixed_append rfl

theorem readField_encode {limit : ℕ} {f : Field} (h : f.Wf) (rest : Bytes) :
    readField limit (f.encode ++ rest) = some (f, rest) := by
  obtain ⟨tag, value⟩ := f
  obtain ⟨htag, hvalue⟩ := h
  rcases value with n | bytes | bytes | _ | bytes
  · show readField limit (key tag 0 ++ varint n ++ rest) = _
    rw [readField, List.append_assoc, readKey_key htag (by decide)]
    simp [readValue, readVarint_varint hvalue]
  · show readField limit (key tag 1 ++ bytes ++ rest) = _
    rw [readField, List.append_assoc, readKey_key htag (by decide)]
    simp [readValue, readFixed_append hvalue]
  · show readField limit (key tag 2 ++ delimited bytes ++ rest) = _
    rw [readField, List.append_assoc, readKey_key htag (by decide)]
    simp [readValue, readDelimited_append hvalue]
  · show readField limit (key tag 3 ++ key tag 4 ++ rest) = _
    rw [readField, List.append_assoc, readKey_key htag (by decide)]
    obtain ⟨fuel, hfuel⟩ : ∃ fuel, (key tag 4 ++ rest).length = fuel + 1 :=
      Nat.exists_eq_succ_of_ne_zero (by
        have hpos := length_varint_pos (8 * tag + 4)
        simp only [key, List.length_append]
        omega)
    simp [readValue, hfuel, skipGroup, readKey_key htag]
  · show readField limit (key tag 5 ++ bytes ++ rest) = _
    rw [readField, List.append_assoc, readKey_key htag (by decide)]
    simp [readValue, readFixed_append hvalue]

theorem length_encode_pos (f : Field) : 0 < f.encode.length := by
  obtain ⟨tag, value⟩ := f
  rcases value with n | bytes | bytes | _ | bytes
  all_goals
    simp only [Field.encode, key, List.length_append]
    exact Nat.add_pos_left (length_varint_pos _) _

theorem fieldsWithin_encode {limit fuel : ℕ} {fields : List Field} (hwf : ∀ f ∈ fields, f.Wf)
    (hfuel : (encodeFields fields).length ≤ fuel) :
    fieldsWithin limit fuel (encodeFields fields) = some fields := by
  induction fields generalizing fuel with
  | nil =>
    rw [encodeFields, List.flatMap_nil, fieldsWithin]
  | cons f fields ih =>
    obtain ⟨hf, hfields⟩ := List.forall_mem_cons.1 hwf
    have hpos := length_encode_pos f
    rw [encodeFields, List.flatMap_cons, List.length_append] at hfuel
    rcases fuel with _ | fuel
    · omega
    have hne : encodeFields (f :: fields) ≠ [] := by
      intro hnil
      have hlength := congrArg List.length hnil
      simp only [encodeFields, List.flatMap_cons, List.length_append, List.length_nil] at hlength
      omega
    rw [fieldsWithin.eq_3 _ _ _ hne, encodeFields, List.flatMap_cons, readField_encode hf]
    show (fieldsWithin limit fuel (encodeFields fields) >>= _) = _
    rw [ih hfields (by rw [encodeFields]; omega)]
    rfl

/-- What is written is read back. -/
theorem readFields_encode (limit : ℕ) {fields : List Field} (hwf : ∀ f ∈ fields, f.Wf) :
    readFields limit (encodeFields fields) = some fields :=
  fieldsWithin_encode hwf (Nat.le_refl _)

/-! ### What is read is not shorter than what it says -/

theorem length_of_readKey {tag type : ℕ} {bytes rest : Bytes}
    (h : readKey bytes = some (tag, type, rest)) :
    (key tag type).length + rest.length ≤ bytes.length := by
  obtain ⟨⟨key', rest'⟩, hread, hkey⟩ := Option.bind_eq_some_iff.1 h
  dsimp only at hkey
  split_ifs at hkey
  obtain ⟨rfl, rfl, rfl⟩ := by simpa using hkey
  have hlength := length_of_readVarint hread
  rwa [key, Nat.div_add_mod]

theorem length_of_readFixed {n : ℕ} {bytes value rest : Bytes}
    (h : readFixed n bytes = some (value, rest)) :
    value.length = n ∧ value.length + rest.length = bytes.length := by
  rw [readFixed] at h
  split_ifs at h with hn
  obtain ⟨rfl, rfl⟩ := Prod.mk.inj (Option.some.inj h)
  rw [List.length_take, List.length_drop]
  omega

theorem length_of_readDelimited {bytes value rest : Bytes}
    (h : readDelimited bytes = some (value, rest)) :
    (delimited value).length + rest.length ≤ bytes.length := by
  obtain ⟨⟨n, rest'⟩, hread, hvalue⟩ := Option.bind_eq_some_iff.1 h
  obtain ⟨rfl, hlength⟩ := length_of_readFixed hvalue
  have hcount := length_of_readVarint hread
  rw [delimited, List.length_append]
  omega

theorem length_of_skipValue {skipInner : Bytes → Option Bytes} {type : ℕ} {bytes rest : Bytes}
    (hinner : skipInner bytes = some rest → rest.length ≤ bytes.length)
    (h : skipValue skipInner type bytes = some rest) : rest.length ≤ bytes.length := by
  unfold skipValue at h
  split at h
  · obtain ⟨⟨n, left⟩, hread, rfl⟩ := Option.map_eq_some_iff.1 h
    have hlength := length_of_readVarint hread
    show left.length ≤ _
    omega
  · obtain ⟨⟨value, left⟩, hread, rfl⟩ := Option.map_eq_some_iff.1 h
    have hlength := (length_of_readFixed hread).2
    show left.length ≤ _
    omega
  · obtain ⟨⟨value, left⟩, hread, rfl⟩ := Option.map_eq_some_iff.1 h
    have hlength := length_of_readDelimited hread
    show left.length ≤ _
    omega
  · exact hinner h
  · obtain ⟨⟨value, left⟩, hread, rfl⟩ := Option.map_eq_some_iff.1 h
    have hlength := (length_of_readFixed hread).2
    show left.length ≤ _
    omega
  · exact (nomatch h)

theorem length_of_skipGroup {fuel limit tag : ℕ} {bytes rest : Bytes}
    (h : skipGroup fuel limit tag bytes = some rest) :
    (key tag 4).length + rest.length ≤ bytes.length := by
  induction fuel generalizing limit tag bytes rest with
  | zero => exact (nomatch h)
  | succ fuel ih =>
    rw [skipGroup] at h
    obtain ⟨⟨inner, type, rest'⟩, hkey, h⟩ := Option.bind_eq_some_iff.1 h
    have hkey_length := length_of_readKey hkey
    dsimp only at h
    split_ifs at h with htype hinner hlimit
    · -- the end of this group
      obtain rfl := Option.some.inj h
      rwa [htype, hinner] at hkey_length
    · -- a field of the group, and then the rest of it
      obtain ⟨rest'', hfield, hgroup⟩ := Option.bind_eq_some_iff.1 h
      have hgroup_length := ih hgroup
      have hfield_length := length_of_skipValue
        (fun h => Nat.le_trans (Nat.le_add_left _ _) (ih h)) hfield
      omega

theorem length_of_readValue {limit tag type : ℕ} {bytes rest : Bytes} {value : Value}
    (h : readValue limit tag type bytes = some (value, rest)) :
    (Field.encode ⟨tag, value⟩).length + rest.length ≤ (key tag type).length + bytes.length := by
  unfold readValue at h
  split at h
  · obtain ⟨⟨n, left⟩, hread, heq⟩ := Option.map_eq_some_iff.1 h
    obtain ⟨rfl, rfl⟩ := Prod.mk.inj heq
    have hlength := length_of_readVarint hread
    simp only [Field.encode, List.length_append]
    omega
  · obtain ⟨⟨bytes', left⟩, hread, heq⟩ := Option.map_eq_some_iff.1 h
    obtain ⟨rfl, rfl⟩ := Prod.mk.inj heq
    have hlength := (length_of_readFixed hread).2
    simp only [Field.encode, List.length_append]
    omega
  · obtain ⟨⟨bytes', left⟩, hread, heq⟩ := Option.map_eq_some_iff.1 h
    obtain ⟨rfl, rfl⟩ := Prod.mk.inj heq
    have hlength := length_of_readDelimited hread
    simp only [Field.encode, List.length_append]
    omega
  · obtain ⟨left, hread, heq⟩ := Option.map_eq_some_iff.1 h
    obtain ⟨rfl, rfl⟩ := Prod.mk.inj heq
    have hlength := length_of_skipGroup hread
    simp only [Field.encode, List.length_append]
    omega
  · obtain ⟨⟨bytes', left⟩, hread, heq⟩ := Option.map_eq_some_iff.1 h
    obtain ⟨rfl, rfl⟩ := Prod.mk.inj heq
    have hlength := (length_of_readFixed hread).2
    simp only [Field.encode, List.length_append]
    omega
  · exact (nomatch h)

theorem length_of_readField {limit : ℕ} {f : Field} {bytes rest : Bytes}
    (h : readField limit bytes = some (f, rest)) :
    f.encode.length + rest.length ≤ bytes.length := by
  obtain ⟨⟨tag, type, rest'⟩, hkey, h⟩ := Option.bind_eq_some_iff.1 h
  obtain ⟨⟨value, rest''⟩, hvalue, heq⟩ := Option.bind_eq_some_iff.1 h
  obtain ⟨rfl, rfl⟩ := by simpa using heq
  have hkey_length := length_of_readKey hkey
  have hvalue_length := length_of_readValue hvalue
  omega

theorem length_of_fieldsWithin {limit fuel : ℕ} {bytes : Bytes} {fields : List Field}
    (h : fieldsWithin limit fuel bytes = some fields) :
    (encodeFields fields).length ≤ bytes.length := by
  induction fuel generalizing bytes fields with
  | zero =>
    rcases bytes with _ | ⟨byte, bytes⟩
    · rw [fieldsWithin] at h
      obtain rfl := Option.some.inj h
      exact Nat.le_refl _
    · exact (nomatch h)
  | succ fuel ih =>
    rcases bytes with _ | ⟨byte, bytes⟩
    · rw [fieldsWithin] at h
      obtain rfl := Option.some.inj h
      exact Nat.le_refl _
    rw [fieldsWithin.eq_3 _ _ _ (List.cons_ne_nil _ _)] at h
    obtain ⟨⟨f, rest⟩, hfield, h⟩ := Option.bind_eq_some_iff.1 h
    obtain ⟨later, hlater, heq⟩ := Option.bind_eq_some_iff.1 h
    obtain rfl := Option.some.inj heq
    have hfield_length := length_of_readField hfield
    have hlater_length := ih hlater
    rw [encodeFields, List.flatMap_cons, ← encodeFields, List.length_append]
    omega

/-- What is read is not shorter than what it says, written again. -/
theorem length_encode_le {limit : ℕ} {bytes : Bytes} {fields : List Field}
    (h : readFields limit bytes = some fields) : (encodeFields fields).length ≤ bytes.length :=
  length_of_fieldsWithin h


/-! ## Messages -/

def Value.asVarint : Value → Option ℕ
  | .varint n => some n
  | _ => none

def Value.asBytes : Value → Option Bytes
  | .bytes content => some content
  | _ => none

/-- A number, which is left out when it is zero. -/
def uint (tag n : ℕ) : List Field := if n = 0 then [] else [⟨tag, .varint n⟩]

/-- Bytes, which are left out when there are none. -/
def blob (tag : ℕ) (bytes : Bytes) : List Field := if bytes = [] then [] else [⟨tag, .bytes bytes⟩]

/-- A kind of message: the one without fields, the fields of each, and what one field more makes of
it. The limit is for the groups in messages that a field holds. -/
structure Schema (M : Type) where
  empty : M
  fields : M → List Field
  merge : ℕ → M → Field → Option M

namespace Schema

variable {M : Type} (s : Schema M)

def encode (m : M) : Bytes := encodeFields (s.fields m)

/-- The fields that the bytes hold, merged into a message. -/
def mergeBytes (limit : ℕ) (m : M) (bytes : Bytes) : Option M := do
  (← readFields limit bytes).foldlM (s.merge limit) m

def decode (limit : ℕ) (bytes : Bytes) : Option M := s.mergeBytes limit s.empty bytes

variable {s}

theorem decode_encode {limit : ℕ} {m : M} (hwf : ∀ f ∈ s.fields m, f.Wf)
    (hmerge : (s.fields m).foldlM (s.merge limit) s.empty = some m) :
    s.decode limit (s.encode m) = some m := by
  rw [decode, mergeBytes, encode, readFields_encode limit hwf]
  exact hmerge

/-- No field adds more to the weight of a message than it is long. -/
def Grows (s : Schema M) (weight : M → ℕ) : Prop :=
  ∀ limit m f m', s.merge limit m f = some m' → weight m' ≤ weight m + f.encode.length

theorem Grows.foldlM {weight : M → ℕ} (h : s.Grows weight) {limit : ℕ} {fields : List Field}
    {m m' : M} (hfold : fields.foldlM (s.merge limit) m = some m') :
    weight m' ≤ weight m + (encodeFields fields).length := by
  induction fields generalizing m with
  | nil =>
    obtain rfl := Option.some.inj hfold
    exact Nat.le_add_right _ _
  | cons f fields ih =>
    obtain ⟨m₁, hfirst, hrest⟩ := Option.bind_eq_some_iff.1 hfold
    have hfirst_weight := h limit m f m₁ hfirst
    have hrest_weight := ih hrest
    rw [encodeFields, List.flatMap_cons, ← encodeFields, List.length_append]
    omega

theorem Grows.mergeBytes {weight : M → ℕ} (h : s.Grows weight) {limit : ℕ} {m m' : M}
    {bytes : Bytes} (hmerge : s.mergeBytes limit m bytes = some m') :
    weight m' ≤ weight m + bytes.length := by
  obtain ⟨fields, hread, hfold⟩ := Option.bind_eq_some_iff.1 hmerge
  exact Nat.le_trans (h.foldlM hfold) (Nat.add_le_add_left (length_encode_le hread) _)

end Schema

/-! ### Fields as they are written -/

section Fields

variable {M : Type} {merge : M → Field → Option M} {m m' : M} {tag : ℕ}

theorem foldlM_uint {n : ℕ} (hzero : n = 0 → m' = m)
    (hset : merge m ⟨tag, .varint n⟩ = some m') : (uint tag n).foldlM merge m = some m' := by
  rw [uint]
  split_ifs with h
  · rw [hzero h]
    rfl
  · rw [List.foldlM_cons, hset]
    rfl

theorem foldlM_blob {bytes : Bytes} (hnil : bytes = [] → m' = m)
    (hset : merge m ⟨tag, .bytes bytes⟩ = some m') : (blob tag bytes).foldlM merge m = some m' := by
  rw [blob]
  split_ifs with h
  · rw [hnil h]
    rfl
  · rw [List.foldlM_cons, hset]
    rfl

/-- A repeated field adds one value at a time to those that are there. -/
theorem foldlM_repeated {α : Type} {field : α → Field} (set : List α → M) {values : List α}
    (h : ∀ value ∈ values, ∀ before,
      merge (set before) (field value) = some (set (before ++ [value]))) (before : List α) :
    (values.map field).foldlM merge (set before) = some (set (before ++ values)) := by
  induction values generalizing before with
  | nil =>
    rw [List.append_nil]
    rfl
  | cons value values ih =>
    obtain ⟨hvalue, hvalues⟩ := List.forall_mem_cons.1 h
    rw [List.map_cons, List.foldlM_cons, hvalue]
    show (values.map field).foldlM merge (set (before ++ [value])) = _
    rw [ih hvalues, List.append_assoc, List.singleton_append]

theorem foldlM_append_some {fields fields' : List Field} (h : fields.foldlM merge m = some m') :
    (fields ++ fields').foldlM merge m = fields'.foldlM merge m' := by
  rw [List.foldlM_append, h]
  rfl

theorem mem_uint {n : ℕ} {f : Field} (h : f ∈ uint tag n) : f = ⟨tag, .varint n⟩ := by
  rw [uint] at h
  split_ifs at h
  · exact absurd h List.not_mem_nil
  · exact List.mem_singleton.1 h

theorem mem_blob {bytes : Bytes} {f : Field} (h : f ∈ blob tag bytes) :
    f = ⟨tag, .bytes bytes⟩ := by
  rw [blob] at h
  split_ifs at h
  · exact absurd h List.not_mem_nil
  · exact List.mem_singleton.1 h

theorem length_encode_uint_le (tag n : ℕ) :
    (encodeFields (uint tag n)).length ≤ (Field.encode ⟨tag, .varint n⟩).length := by
  rw [uint]
  split_ifs
  · exact Nat.zero_le _
  · simp [encodeFields]

theorem length_encode_blob_le (tag : ℕ) (bytes : Bytes) :
    (encodeFields (blob tag bytes)).length ≤ (Field.encode ⟨tag, .bytes bytes⟩).length := by
  rw [blob]
  split_ifs
  · exact Nat.zero_le _
  · simp [encodeFields]

theorem encodeFields_append (fields fields' : List Field) :
    encodeFields (fields ++ fields') = encodeFields fields ++ encodeFields fields' :=
  List.flatMap_append

theorem encodeFields_singleton (f : Field) : encodeFields [f] = f.encode := by
  rw [encodeFields, List.flatMap_singleton]

/-- A field is not longer than the message it is in. -/
theorem length_le_of_mem {fields : List Field} {f : Field} (h : f ∈ fields) :
    f.encode.length ≤ (encodeFields fields).length := by
  obtain ⟨before, after, rfl⟩ := List.append_of_mem h
  simp only [encodeFields, List.flatMap_append, List.flatMap_cons, List.length_append]
  omega

theorem length_le_encode_blob (tag : ℕ) (bytes : Bytes) :
    bytes.length ≤ (encodeFields (blob tag bytes)).length := by
  rw [blob]
  split_ifs with h
  · rw [h]
    exact Nat.zero_le _
  · simp only [encodeFields, List.flatMap_singleton, Field.encode, delimited, List.length_append]
    omega

theorem length_bytes_le (tag : ℕ) (bytes : Bytes) :
    bytes.length ≤ (Field.encode ⟨tag, .bytes bytes⟩).length := by
  simp only [Field.encode, delimited, List.length_append]
  omega

end Fields

/-! ### Messages within messages -/

/-- The length of what is written in `n` bytes, as a field. -/
def nestedLength (tag n : ℕ) : ℕ := (key tag 2).length + ((varint n).length + n)

theorem length_encode_bytes (tag : ℕ) (bytes : Bytes) :
    (Field.encode ⟨tag, .bytes bytes⟩).length = nestedLength tag bytes.length := by
  simp only [Field.encode, delimited, nestedLength, List.length_append]

theorem nestedLength_eq {tag : ℕ} (htag : tag < 16) (n : ℕ) :
    nestedLength tag n = n + Nat.log 128 n + 2 := by
  have hkey : (key tag 2).length = 1 := by
    rw [key, varint_of_lt (by omega)]
    rfl
  rw [nestedLength, hkey, length_varint]
  omega

theorem nestedLength_mono (tag : ℕ) {m n : ℕ} (h : m ≤ n) :
    nestedLength tag m ≤ nestedLength tag n := by
  have hdigits := length_varint_le h
  rw [nestedLength, nestedLength]
  omega

/-- Two parts of a message, each in a field, take no less than the whole in one. -/
theorem nestedLength_add_le (tag m n : ℕ) :
    nestedLength tag (m + n) ≤ nestedLength tag m + nestedLength tag n := by
  have hdigits := length_varint_add_le m n
  simp only [nestedLength]
  omega

end Protobuf
