import Polyvisor.Lib.BitGroups
import Polyvisor.Lib.Text

/-!
# Byte strings as texts

* `TextCode.Canonical`: each byte string has one text, and its length tells the text's length.
* `base64Url`: base 64 with the alphabet for URLs and without padding. `canonical_base64Url`: what
  it reads is what it writes, the bits left over included.
-/

/-- A text for each byte string. -/
structure TextCode where
  encode : List UInt8 → String
  /-- Of the bytes of a text. -/
  decode : List UInt8 → Option (List UInt8)

/-- Each byte string has one text, and as long a one as any other of its length. -/
structure TextCode.Canonical (code : TextCode) : Prop where
  decode_eq_some : ∀ {text bytes}, code.decode text = some bytes ↔ utf8 (code.encode bytes) = text
  length_encode : ∀ {bytes bytes' : List UInt8}, bytes.length = bytes'.length →
    (utf8 (code.encode bytes)).length = (utf8 (code.encode bytes')).length

namespace Base64Url

open BitGroups

/-- The symbols, by value. -/
def alphabet : List Char :=
  "ABCDEFGHIJKLMNOPQRSTUVWXYZabcdefghijklmnopqrstuvwxyz0123456789-_".toList

/-- The symbol of a value. -/
def symbol (value : ℕ) : Char :=
  alphabet.getD value 'A'

/-- The value of a symbol. -/
def value (byte : UInt8) : Option ℕ :=
  (List.range 64).find? fun v => UInt8.ofNat (symbol v).toNat = byte

end Base64Url

open BitGroups in
/-- Base 64 with the alphabet for URLs, without padding and without bits to spare. -/
def base64Url : TextCode where
  encode bytes := String.ofList ((groups 6 (bitsOf bytes)).map Base64Url.symbol)
  decode text := do ungroup 6 (← text.mapM Base64Url.value)

namespace Base64Url

open BitGroups

theorem symbol_toNat_lt {v : ℕ} (h : v < 64) : (symbol v).toNat < 128 := by
  have hall : ∀ v < 64, (symbol v).toNat < 128 := by decide +kernel
  exact hall v h

theorem value_symbol {v : ℕ} (h : v < 64) : value (UInt8.ofNat (symbol v).toNat) = some v := by
  have hall : ∀ v < 64, value (UInt8.ofNat (symbol v).toNat) = some v := by decide +kernel
  exact hall v h

theorem value_eq_some {byte : UInt8} {v : ℕ} :
    value byte = some v ↔ v < 64 ∧ UInt8.ofNat (symbol v).toNat = byte := by
  constructor
  · intro h
    have hfound : decide (UInt8.ofNat (symbol v).toNat = byte) = true :=
      List.find?_some (p := fun v => decide (UInt8.ofNat (symbol v).toNat = byte)) h
    exact ⟨List.mem_range.1 (List.mem_of_find?_eq_some h), of_decide_eq_true hfound⟩
  · rintro ⟨hv, rfl⟩
    exact value_symbol hv

theorem mapM_value {text : List UInt8} {values : List ℕ} :
    text.mapM value = some values ↔
      (∀ v ∈ values, v < 64) ∧ (values.map fun v => UInt8.ofNat (symbol v).toNat) = text := by
  induction text generalizing values with
  | nil =>
    rw [List.mapM_nil]
    constructor
    · intro h
      obtain rfl := Option.some.inj h
      exact ⟨fun v hv => absurd hv List.not_mem_nil, rfl⟩
    · rintro ⟨-, h⟩
      rw [List.map_eq_nil_iff.1 h]
      rfl
  | cons byte text ih =>
    simp only [List.mapM_cons, Option.bind_eq_bind, Option.bind_eq_some_iff, Option.pure_def,
      Option.some_inj, value_eq_some, ih]
    constructor
    · rintro ⟨v, ⟨hv, rfl⟩, vs, ⟨hvs, rfl⟩, rfl⟩
      exact ⟨List.forall_mem_cons.2 ⟨hv, hvs⟩, rfl⟩
    · rintro ⟨hvs, htext⟩
      rcases values with - | ⟨v, vs⟩
      · exact nomatch htext
      · obtain ⟨hbyte, hrest⟩ := List.cons.inj htext
        obtain ⟨hv, hvs⟩ := List.forall_mem_cons.1 hvs
        exact ⟨v, ⟨hv, hbyte⟩, vs, ⟨hvs, hrest⟩, rfl⟩

theorem utf8_encode (bytes : List UInt8) : utf8 (base64Url.encode bytes) =
    (groups 6 (bitsOf bytes)).map fun v => UInt8.ofNat (symbol v).toNat := by
  have hascii : ∀ c ∈ (groups 6 (bitsOf bytes)).map symbol, c.toNat < 128 := by
    intro c hc
    obtain ⟨v, hv, rfl⟩ := List.mem_map.1 hc
    exact symbol_toNat_lt (lt_of_mem_groups hv)
  exact (utf8_ofList hascii).trans (List.map_map ..)

/-- The texts that it reads are those that it writes. -/
theorem canonical_base64Url : base64Url.Canonical where
  decode_eq_some := by
    intro text bytes
    show (text.mapM value).bind (ungroup 6) = some bytes ↔ _
    rw [utf8_encode, Option.bind_eq_some_iff]
    constructor
    · rintro ⟨values, hvalues, hbytes⟩
      obtain ⟨hlt, rfl⟩ := mapM_value.1 hvalues
      rw [(ungroup_eq_some_iff (by omega) (by omega) hlt).1 hbytes]
    · rintro rfl
      have hlt : ∀ v ∈ groups 6 (bitsOf bytes), v < 2 ^ 6 := fun v hv => lt_of_mem_groups hv
      exact ⟨_, mapM_value.2 ⟨hlt, rfl⟩, (ungroup_eq_some_iff (by omega) (by omega) hlt).2 rfl⟩
  length_encode := by
    intro bytes bytes' h
    have hgroups : (groups 6 (bitsOf bytes)).length * 6 =
        (groups 6 (bitsOf bytes')).length * 6 := by
      rw [length_groups (by omega), length_groups (by omega), length_bitsOf, length_bitsOf, h]
    rw [utf8_encode, utf8_encode, List.length_map, List.length_map]
    omega

end Base64Url
