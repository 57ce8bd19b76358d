import Mathlib.Data.List.Basic
import Mathlib.Data.Nat.Notation
import Mathlib.Logic.Function.Basic

/-!
# Texts as bytes

* `utf8`: the UTF-8 bytes of a text. `utf8_injective`: they determine it.
* `ofUtf8`: the text that valid bytes spell. `ofUtf8_eq_some`: it is the inverse.
* `utf8_ofList`: a text of ASCII characters has a byte for each.
-/

/-- The UTF-8 bytes of a text. -/
def utf8 (text : String) : List UInt8 :=
  text.toUTF8.toList

private theorem toList_loop (bs : ByteArray) (i : ℕ) (read : List UInt8) :
    ByteArray.toList.loop bs i read = read.reverse ++ bs.data.toList.drop i := by
  induction hn : bs.size - i generalizing i read with
  | zero =>
    rw [ByteArray.toList.loop, if_neg (by omega), List.drop_eq_nil_of_le, List.append_nil]
    show bs.size ≤ i
    omega
  | succ n ih =>
    have hi : i < bs.data.toList.length := by
      show i < bs.size
      omega
    rw [ByteArray.toList.loop, if_pos (by omega), ih _ _ (by omega), List.reverse_cons,
      List.append_assoc, List.drop_eq_getElem_cons hi, List.singleton_append]
    congr 2
    obtain ⟨data⟩ := bs
    show data[i]! = data.toList[i]
    rw [getElem!_pos data i hi]
    rfl

theorem utf8_eq (text : String) : utf8 text = text.toByteArray.data.toList :=
  toList_loop _ 0 []

theorem utf8_injective : Function.Injective utf8 := by
  intro a b h
  rw [utf8_eq, utf8_eq] at h
  exact String.toByteArray_inj.1 (ByteArray.ext (Array.toList_inj.1 h))

theorem utf8_append (a b : String) : utf8 (a ++ b) = utf8 a ++ utf8 b := by
  rw [utf8_eq, utf8_eq, utf8_eq, String.toByteArray_append]
  exact ByteArray.toList_data_append

/-- A text of ASCII characters has a byte for each. -/
theorem utf8_ofList {chars : List Char} (h : ∀ c ∈ chars, c.toNat < 128) :
    utf8 (String.ofList chars) = chars.map fun c => UInt8.ofNat c.toNat := by
  rw [utf8_eq, String.toByteArray_ofList]
  show (chars.flatMap String.utf8EncodeChar).toByteArray.data.toList = _
  rw [List.data_toByteArray]
  show chars.flatMap String.utf8EncodeChar = _
  induction chars with
  | nil => rfl
  | cons c rest ih =>
    obtain ⟨hc, hrest⟩ := List.forall_mem_cons.1 h
    have hval : c.val.toNat < 128 := hc
    have hsize : c.utf8Size = 1 := by
      rw [Char.utf8Size, if_pos]
      rw [UInt32.le_iff_toNat_le]
      show c.val.toNat ≤ 127
      omega
    rw [List.flatMap_cons, List.map_cons, ih hrest, String.utf8EncodeChar_eq_singleton hsize]
    rfl

/-- The text that valid bytes spell: `String::from_utf8`. -/
def ofUtf8 (bytes : List UInt8) : Option String :=
  String.fromUTF8? ⟨bytes.toArray⟩

theorem ofUtf8_utf8 (text : String) : ofUtf8 (utf8 text) = some text := by
  rw [ofUtf8, utf8_eq, Array.toArray_toList, String.fromUTF8?, dif_pos text.isValidUTF8]
  rfl

theorem utf8_of_ofUtf8 {bytes : List UInt8} {text : String} (h : ofUtf8 bytes = some text) :
    utf8 text = bytes := by
  rw [ofUtf8, String.fromUTF8?] at h
  split_ifs at h with hvalid
  obtain rfl := Option.some.inj h
  rw [utf8_eq]
  rfl

theorem ofUtf8_eq_some {bytes : List UInt8} {text : String} :
    ofUtf8 bytes = some text ↔ utf8 text = bytes :=
  ⟨utf8_of_ofUtf8, fun h => h ▸ ofUtf8_utf8 text⟩
