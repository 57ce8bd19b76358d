import Mathlib.Data.List.Pairwise
import Polyvisor.Contacts.Document

/-!
# Hexadecimal identifiers

The decoders of three crates: `unhex` of `engine/src/us.rs` for member keys, `decode_hex32` of
`contacts-model/src/lib.rs` for root and contact keys, `unhex` of `visor-model/src/lib.rs` for
stored ids. All cut the text in pairs of bytes and leave a pair to `u8::from_str_radix`, which also
takes upper-case digits and a sign in front of one digit.

## Main results

* `unhex_eq`, `visorUnhex_eq`: the three read a text in the same way; none stops at a pair that cuts
  a character in two.
* `hex_of_decodePairs`: what they read is what the lower-case text without signs spells.
* `canonical_iff`: a decoder treats a text as its encoder's spelling exactly when the text is not
  another spelling; two members have one key exactly when two keys of the map differ in spelling
  only.
-/

namespace Polyvisor.Contacts.Identifiers

/-! ## The library's parser -/

/-- `u8::from_str_radix(_, 16)`. -/
def fromStrRadix16 (src : Bytes) : Option UInt8 :=
  let digits := if src.head? = some 43 then src.tail else src
  if digits = [] then none
  else do
    let n ← digits.foldlM (fun n c => do
      let d ← digitValue c
      if n * 16 + d < 256 then some (n * 16 + d) else none) 0
    return UInt8.ofNat n

theorem digitValue_lt {c : UInt8} {d : ℕ} (h : digitValue c = some d) : d < 16 := by
  rw [digitValue] at h
  split_ifs at h <;> have := Option.some.inj h <;> omega

/-- Of a pair it accepts two digits, or a sign and one digit. -/
theorem fromStrRadix16_pair (a b : UInt8) :
    fromStrRadix16 [a, b] = (pairValue a b).map UInt8.ofNat := by
  rw [fromStrRadix16, pairValue]
  have hsign : ([a, b] : Bytes).head? = some 43 ↔ a.toNat = 43 := by
    rw [List.head?_cons, Option.some_inj, ← UInt8.toNat_inj]
    rfl
  by_cases ha : a.toNat = 43
  · rw [if_pos (hsign.2 ha), if_pos ha]
    rcases hb : digitValue b with _ | d
    · simp [hb]
    · have hd := digitValue_lt hb
      simp [hb, show d < 256 by omega]
  · rw [if_neg (mt hsign.1 ha), if_neg ha]
    rcases hx : digitValue a with _ | x
    · simp [hx]
    rcases hy : digitValue b with _ | y
    · have := digitValue_lt hx
      simp [hx, hy, show x < 256 by omega]
    · have := digitValue_lt hx
      have := digitValue_lt hy
      simp [hx, hy, show x < 256 by omega, show x * 16 + y < 256 by omega]

/-! ## The decoders -/

/-- `str::is_char_boundary`, of the bytes of a text. -/
def isCharBoundary (bytes : Bytes) (i : ℕ) : Bool :=
  match bytes[i]? with
  | some byte => byte.toNat < 128 ∨ 192 ≤ byte.toNat
  | none => i = bytes.length

/-- `text.get(i..j)`. -/
def strGet (bytes : Bytes) (i j : ℕ) : Option Bytes :=
  if i ≤ j ∧ j ≤ bytes.length ∧ isCharBoundary bytes i ∧ isCharBoundary bytes j then
    some ((bytes.drop i).take (j - i))
  else none

/-- The bytes of a key, and the key that 32 bytes are. -/
def keyOf (bytes : Bytes) : Bytes32 :=
  BitVec.ofNat 256 (BigEndian.ofBytes bytes)

/-- `unhex` of `us.rs`. -/
def unhex (text : String) : Option Bytes32 :=
  let bytes := utf8 text
  if bytes.length ≠ 64 then none
  else do
    let key ← (List.range 32).mapM fun i => do
      fromStrRadix16 (← strGet bytes (i * 2) (i * 2 + 2))
    return keyOf key

/-- `decode_hex32` of `contacts-model`, for a text. -/
def decodeHex32Text (text : String) : Option Bytes32 :=
  decodeHex32 (utf8 text)

/-- `chunks(2)`. -/
def chunks2 : Bytes → List Bytes
  | a :: b :: rest => [a, b] :: chunks2 rest
  | [a] => [[a]]
  | [] => []

/-- `unhex` of `visor-model`. -/
def visorUnhex (text : String) : Option Bytes :=
  let bytes := utf8 text
  if ¬ 2 ∣ bytes.length then none
  else (chunks2 bytes).mapM fun pair => do
    let pair ← ofUtf8 pair
    fromStrRadix16 (utf8 pair)

/-- `hex`: the encoder of all three crates. -/
def hexText (bytes : Bytes) : String :=
  String.ofList ((hex bytes).map fun c => Char.ofNat c.toNat)

/-- `hex` of a key. -/
def keyText (key : Bytes32) : String :=
  hexText (Bytes32.bytes key)

/-! ## The members -/

/-- What is read of a member's entry. A field that is missing or of another kind is `none`. -/
structure Entry where
  petname : Option String
  enrolled : Option ℤ
  deriving DecidableEq

/-- The `members` map. Its keys are distinct texts, written by any device. -/
structure MemberMap where
  entries : List (String × Entry)
  distinct : (entries.map Prod.fst).Nodup

/-- `Member`. -/
structure Member where
  key : Bytes32
  petname : String
  enrolled : ℕ
  deriving DecidableEq

/-- The order of `sort_by`: oldest enrollment first and the key breaking ties. -/
def Member.le (a b : Member) : Bool :=
  a.enrolled < b.enrolled ∨ a.enrolled = b.enrolled ∧ a.key.toNat ≤ b.key.toNat

/-- One key of the map. -/
def member (key : String) (entry : Entry) : Option Member := do
  let key ← unhex key
  -- A stamp below zero counts as none.
  return ⟨key, entry.petname.getD "", (entry.enrolled.getD 0).toNat⟩

/-- `members`. -/
def members : Option MemberMap → List Member
  | none => []
  | some map => (map.entries.filterMap fun (key, entry) => member key entry).mergeSort Member.le

/-! ## Spellings -/

/-- A digit in base 16, of either case. -/
def IsDigit (c : UInt8) : Prop :=
  48 ≤ c.toNat ∧ c.toNat < 58 ∨ 65 ≤ c.toNat ∧ c.toNat < 71 ∨ 97 ≤ c.toNat ∧ c.toNat < 103

instance (c : UInt8) : Decidable (IsDigit c) := inferInstanceAs (Decidable (_ ∨ _ ∨ _))

/-- Pairs of two digits, or of a sign and a digit. -/
def Pairs : Bytes → Prop
  | [] => True
  | [_] => False
  | a :: b :: rest => (a.toNat = 43 ∨ IsDigit a) ∧ IsDigit b ∧ Pairs rest

/-- A sign or an upper-case digit. -/
def Foreign (c : UInt8) : Prop :=
  c.toNat = 43 ∨ 65 ≤ c.toNat ∧ c.toNat < 71

instance (c : UInt8) : Decidable (Foreign c) := inferInstanceAs (Decidable (_ ∨ _))

/-- A spelling with a sign or an upper-case digit in it. -/
def Respelled (text : String) : Prop :=
  Pairs (utf8 text) ∧ ∃ c ∈ utf8 text, Foreign c

/-- A digit in lower case. -/
def lower (c : UInt8) : UInt8 :=
  if 65 ≤ c.toNat ∧ c.toNat < 71 then c + 32 else c

/-- The spelling in lower case, with a zero for a sign. -/
def plain : Bytes → Bytes
  | a :: b :: rest => (if a.toNat = 43 then 48 else lower a) :: lower b :: plain rest
  | rest => rest

/-! ## What a pair is read as -/

theorem isSome_digitValue (c : UInt8) : (digitValue c).isSome ↔ IsDigit c := by
  rw [digitValue, IsDigit]
  split_ifs <;> simp <;> omega

/-- A digit spells the value that it is read as, in lower case. -/
theorem hexDigit_of_digitValue {c : UInt8} {d : ℕ} (h : digitValue c = some d) :
    hexDigit d = lower c := by
  have hbyte {n : ℕ} (hn : n < 256) : (UInt8.ofNat n).toNat = n := UInt8.toNat_ofNat_of_lt' hn
  rw [digitValue] at h
  apply UInt8.toNat_inj.1
  split_ifs at h with hdecimal hupper hlower <;> obtain rfl := Option.some.inj h
  · rw [hexDigit, if_pos (by omega), lower, if_neg (by omega), hbyte (by omega)]
    omega
  · have hcase : (c + 32).toNat = c.toNat + 32 :=
      (UInt8.toNat_add c 32).trans (Nat.mod_eq_of_lt (by change _ + 32 < 256; omega))
    rw [hexDigit, if_neg (by omega), lower, if_pos hupper, hcase, hbyte (by omega)]
    omega
  · rw [hexDigit, if_neg (by omega), lower, if_neg (by omega), hbyte (by omega)]
    omega

/-- A pair spells the value that it is read as. -/
theorem hexDigit_of_pairValue {a b : UInt8} {n : ℕ} (h : pairValue a b = some n) :
    n < 256 ∧ hexDigit (n / 16) = (if a.toNat = 43 then 48 else lower a) ∧
      hexDigit (n % 16) = lower b := by
  rw [pairValue] at h
  split_ifs at h with ha
  · -- A sign counts nothing, so the first digit is a zero.
    have hn := digitValue_lt h
    rw [if_pos ha, Nat.div_eq_of_lt hn, Nat.mod_eq_of_lt hn]
    exact ⟨by omega, rfl, hexDigit_of_digitValue h⟩
  · obtain ⟨x, hx, h⟩ := Option.bind_eq_some_iff.1 h
    obtain ⟨y, hy, h⟩ := Option.bind_eq_some_iff.1 h
    obtain rfl := Option.some.inj h
    have hxlt := digitValue_lt hx
    have hylt := digitValue_lt hy
    rw [if_neg ha, show (x * 16 + y) / 16 = x by omega, show (x * 16 + y) % 16 = y by omega]
    exact ⟨by omega, hexDigit_of_digitValue hx, hexDigit_of_digitValue hy⟩

theorem isSome_pairValue (a b : UInt8) :
    (pairValue a b).isSome ↔ (a.toNat = 43 ∨ IsDigit a) ∧ IsDigit b := by
  have hfirst := isSome_digitValue a
  have hsecond := isSome_digitValue b
  have hsign : a.toNat = 43 → ¬ IsDigit a := by
    intro ha hdigit
    rw [IsDigit] at hdigit
    omega
  rw [pairValue]
  split_ifs with ha
  · rw [hsecond]
    exact ⟨fun h => ⟨.inl ha, h⟩, fun h => h.2⟩
  · rw [← hfirst, ← hsecond]
    rcases digitValue a with _ | x <;> rcases digitValue b with _ | y <;> simp [ha]

theorem isSome_decodePairs (s : Bytes) : (decodePairs s).isSome ↔ Pairs s := by
  induction s using decodePairs.induct with
  | case1 => simp [decodePairs, Pairs]
  | case2 => simp [decodePairs, Pairs]
  | case3 a b rest ih =>
    rw [Pairs, ← and_assoc, ← isSome_pairValue, ← ih, decodePairs]
    rcases pairValue a b with _ | n <;> rcases decodePairs rest with _ | bytes <;> simp

/-- What a text is read as spells it in lower case without signs. -/
theorem hex_of_decodePairs {s bytes : Bytes} (h : decodePairs s = some bytes) :
    hex bytes = plain s := by
  induction s using decodePairs.induct generalizing bytes with
  | case1 =>
    obtain rfl := Option.some.inj h
    rfl
  | case2 => exact nomatch h
  | case3 a b rest ih =>
    obtain ⟨n, hn, h⟩ := Option.bind_eq_some_iff.1 h
    obtain ⟨tail, htail, h⟩ := Option.bind_eq_some_iff.1 h
    obtain rfl := Option.some.inj h
    obtain ⟨hlt, hhigh, hlow⟩ := hexDigit_of_pairValue hn
    have hbyte : (UInt8.ofNat n).toNat = n := UInt8.toNat_ofNat_of_lt' hlt
    rw [plain, ← ih htail, ← hhigh, ← hlow]
    show hexDigit ((UInt8.ofNat n).toNat / 16) :: hexDigit ((UInt8.ofNat n).toNat % 16) ::
      hex tail = _
    rw [hbyte]

theorem lower_eq_self {c : UInt8} (h : IsDigit c) : lower c = c ↔ ¬ Foreign c := by
  have hsign : ¬ c.toNat = 43 := by
    rw [IsDigit] at h
    omega
  rw [lower, Foreign]
  split_ifs with hupper
  · refine iff_of_false (fun heq => ?_) (fun hnone => hnone (.inr hupper))
    have hvalue := congrArg UInt8.toNat heq
    rw [UInt8.toNat_add] at hvalue
    have : (32 : UInt8).toNat = 32 := rfl
    omega
  · exact iff_of_true rfl (by omega)

/-- A text is its own plain spelling iff it has no sign and no upper-case digit. -/
theorem plain_eq_self {s : Bytes} (h : Pairs s) : plain s = s ↔ ∀ c ∈ s, ¬ Foreign c := by
  induction s using decodePairs.induct with
  | case1 => exact iff_of_true rfl fun c hc => absurd hc List.not_mem_nil
  | case2 => exact h.elim
  | case3 a b rest ih =>
    obtain ⟨ha, hb, hrest⟩ := h
    rw [plain, List.cons.injEq, List.cons.injEq, ih hrest, lower_eq_self hb, List.forall_mem_cons,
      List.forall_mem_cons]
    by_cases hsign : a.toNat = 43
    · rw [if_pos hsign]
      refine iff_of_false (fun heq => ?_) fun hnone => hnone.1 (.inl hsign)
      rw [← heq.1] at hsign
      exact absurd hsign (by decide)
    · rw [if_neg hsign, lower_eq_self (ha.resolve_left hsign)]

/-! ## All decoders read alike -/

theorem utf8_hexText (bytes : Bytes) : utf8 (hexText bytes) = hex bytes := by
  have hdigit : ∀ n < 16, (Char.ofNat (hexDigit n).toNat).toNat < 128 ∧
      UInt8.ofNat (Char.ofNat (hexDigit n).toNat).toNat = hexDigit n := by decide
  have hmem : ∀ c ∈ hex bytes, ∃ n < 16, c = hexDigit n := by
    intro c hc
    obtain ⟨byte, -, hc⟩ := List.mem_flatMap.1 hc
    have hbyte := byte.toNat_lt
    rcases List.mem_pair.1 hc with rfl | rfl
    · exact ⟨_, by omega, rfl⟩
    · exact ⟨_, by omega, rfl⟩
  rw [hexText, utf8_ofList, List.map_map]
  · conv_rhs => rw [← List.map_id (hex bytes)]
    apply List.map_congr_left
    intro c hc
    obtain ⟨n, hn, rfl⟩ := hmem c hc
    exact (hdigit n hn).2
  · intro c hc
    obtain ⟨byte, hbyte, rfl⟩ := List.mem_map.1 hc
    obtain ⟨n, hn, rfl⟩ := hmem byte hbyte
    exact (hdigit n hn).1

/-- A byte that is part of a longer character is no digit. -/
theorem pairValue_of_not_boundary {a b : UInt8} (h : ¬ (a.toNat < 128 ∨ 192 ≤ a.toNat)) :
    pairValue a b = none := by
  rw [← Option.not_isSome_iff_eq_none, isSome_pairValue, IsDigit]
  omega

theorem isCharBoundary_cons_cons (a b : UInt8) (rest : Bytes) (i : ℕ) :
    isCharBoundary (a :: b :: rest) (i + 2) = isCharBoundary rest i := by
  rw [isCharBoundary, isCharBoundary, List.getElem?_cons_succ, List.getElem?_cons_succ]
  rcases rest[i]? with _ | byte
  · simp
  · rfl

theorem strGet_cons_cons (a b : UInt8) (rest : Bytes) (i j : ℕ) :
    strGet (a :: b :: rest) (i + 2) (j + 2) = strGet rest i j := by
  simp only [strGet, isCharBoundary_cons_cons, List.length_cons, List.drop_succ_cons,
    Nat.add_le_add_iff_right, Nat.add_sub_add_right]

/-- The first slice. -/
theorem strGet_first (a b : UInt8) (rest : Bytes) :
    strGet (a :: b :: rest) 0 2 =
      if (a.toNat < 128 ∨ 192 ≤ a.toNat) ∧ isCharBoundary rest 0 then some [a, b] else none := by
  have hfirst : isCharBoundary (a :: b :: rest) 0 ↔ a.toNat < 128 ∨ 192 ≤ a.toNat := by
    rw [isCharBoundary, List.getElem?_cons_zero, decide_eq_true_iff]
  have hlength : 2 ≤ (a :: b :: rest).length := by
    rw [List.length_cons, List.length_cons]
    omega
  rw [strGet, isCharBoundary_cons_cons a b rest 0]
  by_cases hboth : (a.toNat < 128 ∨ 192 ≤ a.toNat) ∧ isCharBoundary rest 0
  · rw [if_pos ⟨by omega, hlength, hfirst.2 hboth.1, hboth.2⟩, if_pos hboth]
    rfl
  · rw [if_neg (fun h => hboth ⟨hfirst.1 h.2.2.1, h.2.2.2⟩), if_neg hboth]

/-- Where a character is cut in two, its second part begins no pair. -/
theorem decodePairs_of_not_boundary {rest : Bytes} (h : ¬ isCharBoundary rest 0) :
    decodePairs rest = none := by
  rcases rest with _ | ⟨c, _ | ⟨d, rest⟩⟩
  · exact absurd rfl h
  · rfl
  · rw [isCharBoundary, List.getElem?_cons_zero, decide_eq_true_iff] at h
    rw [decodePairs, pairValue_of_not_boundary h]
    rfl

/-- The slices of `unhex` are the pairs: where a slice would cut a character, a pair is no
number. -/
theorem mapM_strGet (bytes : Bytes) {n : ℕ} (h : bytes.length = 2 * n) :
    ((List.range n).mapM fun i => do
      fromStrRadix16 (← strGet bytes (i * 2) (i * 2 + 2))) = decodePairs bytes := by
  induction n generalizing bytes with
  | zero =>
    rw [List.length_eq_zero_iff.1 h]
    rfl
  | succ n ih =>
    rcases bytes with _ | ⟨a, _ | ⟨b, rest⟩⟩
    · exact absurd h (by simp)
    · exact absurd h (by simp; omega)
    have hrest : rest.length = 2 * n := by
      rw [List.length_cons, List.length_cons] at h
      omega
    have hshift : ∀ i, strGet (a :: b :: rest) ((i + 1) * 2) ((i + 1) * 2 + 2) =
        strGet rest (i * 2) (i * 2 + 2) := by
      intro i
      rw [Nat.add_mul, Nat.one_mul]
      exact strGet_cons_cons a b rest (i * 2) (i * 2 + 2)
    rw [List.range_succ_eq_map, List.mapM_cons, List.mapM_map]
    simp only [Function.comp_def, Nat.succ_eq_add_one, hshift]
    rw [ih rest hrest, Nat.zero_mul, Nat.zero_add, strGet_first, decodePairs]
    by_cases hboth : (a.toNat < 128 ∨ 192 ≤ a.toNat) ∧ isCharBoundary rest 0
    · have hpair : (do fromStrRadix16 (← some [a, b])) = (pairValue a b).map UInt8.ofNat :=
        fromStrRadix16_pair a b
      rw [if_pos hboth, hpair]
      rcases pairValue a b with _ | n <;> rfl
    · rw [if_neg hboth]
      rcases not_and_or.1 hboth with hfirst | hsecond
      · rw [pairValue_of_not_boundary hfirst]
        rfl
      · rw [decodePairs_of_not_boundary hsecond]
        rcases pairValue a b with _ | n <;> rfl

/-- `unhex` of `us.rs` reads a text as `decode_hex32` does. -/
theorem unhex_eq (text : String) : unhex text = decodeHex32Text text := by
  rw [unhex, decodeHex32Text, decodeHex32]
  by_cases h : (utf8 text).length = 64
  · rw [if_neg (not_not.2 h), if_neg (not_not.2 h), mapM_strGet (utf8 text) (n := 32) h]
    rcases decodePairs (utf8 text) with _ | bytes <;> rfl
  · rw [if_pos h, if_pos h]

/-- A pair is a text of its own if it is a number. -/
theorem ofUtf8_pair (a b : UInt8) :
    ((ofUtf8 [a, b]).bind fun pair => fromStrRadix16 (utf8 pair)) =
      (pairValue a b).map UInt8.ofNat := by
  rcases htext : ofUtf8 [a, b] with _ | text
  · -- Digits and signs are ASCII, so they are a text.
    rw [Option.bind_none]
    rcases hn : pairValue a b with _ | n
    · rfl
    have hascii := (isSome_pairValue a b).1 (by rw [hn]; rfl)
    rw [IsDigit, IsDigit] at hascii
    have hchar : ∀ n < 128, (Char.ofNat n).toNat = n := by decide
    have htwo : utf8 (String.ofList [Char.ofNat a.toNat, Char.ofNat b.toNat]) = [a, b] := by
      rw [utf8_ofList]
      · simp [hchar a.toNat (by omega), hchar b.toNat (by omega)]
      · intro c hc
        rcases List.mem_pair.1 hc with rfl | rfl
        · rw [hchar a.toNat (by omega)]
          omega
        · rw [hchar b.toNat (by omega)]
          omega
    exact nomatch htext.symm.trans (ofUtf8_eq_some.2 htwo)
  · rw [Option.bind_some, utf8_of_ofUtf8 htext, fromStrRadix16_pair]

/-- `unhex` of `visor-model` reads the same pairs, as many as there are. -/
theorem visorUnhex_eq (text : String) : visorUnhex text = decodePairs (utf8 text) := by
  rw [visorUnhex]
  generalize utf8 text = bytes
  induction bytes using decodePairs.induct with
  | case1 => rfl
  | case2 => rfl
  | case3 a b rest ih =>
    have heven : 2 ∣ (a :: b :: rest).length ↔ 2 ∣ rest.length := by
      rw [List.length_cons, List.length_cons]
      omega
    rw [decodePairs, ← ih]
    by_cases h : 2 ∣ rest.length
    · rw [if_neg (not_not.2 (heven.2 h)), if_neg (not_not.2 h), chunks2, List.mapM_cons]
      simp only [Option.bind_eq_bind]
      rw [ofUtf8_pair]
      rcases pairValue a b with _ | n <;> rfl
    · rw [if_pos (mt heven.1 h), if_pos h]
      rcases pairValue a b with _ | n <;> rfl

/-! ## One spelling for a value -/

/-- The decoder accepts the text as the spelling of a value iff its encoder spells the value so. -/
def Canonical {α : Type} (decode : String → Option α) (spell : α → String) (text : String) : Prop :=
  ∀ value, decode text = some value ↔ spell value = text

theorem utf8_eq_hex_iff {text : String} {bytes : Bytes} :
    utf8 text = hex bytes ↔ hexText bytes = text := by
  rw [← utf8_hexText, utf8_injective.eq_iff, eq_comm]

theorem pairs_hex (bytes : Bytes) : Pairs (hex bytes) := by
  rw [← isSome_decodePairs, decodePairs_hex]
  rfl

theorem not_foreign_hex (bytes : Bytes) : ∀ c ∈ hex bytes, ¬ Foreign c :=
  (plain_eq_self (pairs_hex bytes)).1 (hex_of_decodePairs (decodePairs_hex bytes)).symm

/-- Of the texts that are read, those without signs and upper-case digits are spelled by `hex`. -/
theorem decodePairs_of_not_respelled {text : String} (h : ¬ Respelled text) {bytes : Bytes} :
    decodePairs (utf8 text) = some bytes ↔ hexText bytes = text := by
  rw [← utf8_eq_hex_iff]
  constructor
  · intro hread
    have hpairs := (isSome_decodePairs (utf8 text)).1 (by rw [hread]; rfl)
    have hplain : ∀ c ∈ utf8 text, ¬ Foreign c := fun c hc hforeign => h ⟨hpairs, c, hc, hforeign⟩
    rw [hex_of_decodePairs hread, (plain_eq_self hpairs).2 hplain]
  · intro hspelled
    rw [hspelled, decodePairs_hex]

theorem not_respelled_hexText (bytes : Bytes) : ¬ Respelled (hexText bytes) := by
  rintro ⟨-, c, hc, hforeign⟩
  rw [utf8_hexText] at hc
  exact not_foreign_hex bytes c hc hforeign

theorem canonical_visorUnhex (text : String) :
    Canonical visorUnhex hexText text ↔ ¬ Respelled text := by
  constructor
  · intro h hrespelled
    have hsome := (isSome_decodePairs (utf8 text)).2 hrespelled.1
    obtain ⟨bytes, hread⟩ := Option.isSome_iff_exists.1 hsome
    have hspelled := (h bytes).1 (by rw [visorUnhex_eq, hread])
    rw [← hspelled] at hrespelled
    exact not_respelled_hexText bytes hrespelled
  · intro h bytes
    rw [visorUnhex_eq, decodePairs_of_not_respelled h]

theorem length_plain (s : Bytes) : (plain s).length = s.length := by
  induction s using plain.induct with
  | case1 a b rest ih => rw [plain, List.length_cons, List.length_cons, ih]; rfl
  | case2 rest h => rw [plain]; exact h

theorem bytes_keyOf {bytes : Bytes} (h : bytes.length = 32) :
    Bytes32.bytes (keyOf bytes) = bytes := by
  have hlt := BigEndian.ofBytes_lt bytes
  have hdigits := BigEndian.toBytes_ofBytes bytes
  rw [h] at hlt hdigits
  rw [Bytes32.bytes, keyOf, BitVec.toNat_ofNat, Nat.mod_eq_of_lt, hdigits]
  exact lt_of_lt_of_eq hlt (by decide)

theorem keyOf_bytes (key : Bytes32) : keyOf (Bytes32.bytes key) = key := by
  rw [keyOf, Bytes32.bytes, BigEndian.ofBytes_toBytes_of_lt key.isLt, BitVec.ofNat_toNat,
    BitVec.setWidth_eq]

theorem decodeHex32Text_eq_some {text : String} {key : Bytes32} :
    decodeHex32Text text = some key ↔
      (utf8 text).length = 64 ∧ decodePairs (utf8 text) = some (Bytes32.bytes key) := by
  rw [decodeHex32Text, decodeHex32]
  by_cases hlength : (utf8 text).length = 64
  · rw [if_neg (not_not.2 hlength), Option.map_eq_some_iff]
    constructor
    · rintro ⟨bytes, hread, rfl⟩
      -- Sixty-four characters are thirty-two bytes.
      have hbytes : bytes.length = 32 := by
        have htwice := congrArg List.length (hex_of_decodePairs hread)
        rw [length_hex, length_plain, hlength] at htwice
        omega
      refine ⟨hlength, ?_⟩
      have hkey := bytes_keyOf hbytes
      rw [keyOf] at hkey
      rw [hread, hkey]
    · rintro ⟨-, hread⟩
      exact ⟨_, hread, keyOf_bytes key⟩
  · rw [if_pos hlength]
    exact iff_of_false (fun h => by cases h) fun h => hlength h.1

/-- A key of 64 characters with a sign or an upper-case digit. -/
def RespelledKey (text : String) : Prop :=
  (utf8 text).length = 64 ∧ Respelled text

theorem canonical_decodeHex32Text (text : String) :
    Canonical decodeHex32Text keyText text ↔ ¬ RespelledKey text := by
  constructor
  · rintro h ⟨hlength, hrespelled⟩
    have hsome := (isSome_decodePairs (utf8 text)).2 hrespelled.1
    obtain ⟨bytes, hread⟩ := Option.isSome_iff_exists.1 hsome
    have hkey : decodeHex32Text text = some (keyOf bytes) := by
      rw [decodeHex32Text, decodeHex32, if_neg (not_not.2 hlength), hread]
      rfl
    have hspelled := (h (keyOf bytes)).1 hkey
    rw [← hspelled, keyText] at hrespelled
    exact not_respelled_hexText _ hrespelled
  · intro h key
    rw [decodeHex32Text_eq_some]
    constructor
    · rintro ⟨hlength, hread⟩
      exact (decodePairs_of_not_respelled fun hrespelled => h ⟨hlength, hrespelled⟩).1 hread
    · rintro rfl
      rw [keyText, utf8_hexText, length_hex, Bytes32.bytes, BigEndian.length_toBytes,
        decodePairs_hex]
      exact ⟨rfl, rfl⟩

/-! ## Members -/

/-- Two texts that are read are read alike iff they are the same in lower case without signs. -/
theorem unhex_eq_unhex {text text' : String} {key key' : Bytes32} (h : unhex text = some key)
    (h' : unhex text' = some key') : key = key' ↔ plain (utf8 text) = plain (utf8 text') := by
  rw [unhex_eq, decodeHex32Text_eq_some] at h h'
  rw [← hex_of_decodePairs h.2, ← hex_of_decodePairs h'.2]
  constructor
  · rintro rfl
    rfl
  · intro heq
    have hbytes := congrArg decodePairs heq
    rw [decodePairs_hex, decodePairs_hex] at hbytes
    rw [← keyOf_bytes key, Option.some.inj hbytes, keyOf_bytes]

/-- A text that `unhex` accepts. -/
def SpellsKey (text : String) : Prop :=
  (utf8 text).length = 64 ∧ Pairs (utf8 text)

theorem isSome_unhex (text : String) : (unhex text).isSome ↔ SpellsKey text := by
  rw [unhex_eq, decodeHex32Text, decodeHex32, SpellsKey, ← isSome_decodePairs]
  by_cases hlength : (utf8 text).length = 64
  · rw [if_neg (not_not.2 hlength), Option.isSome_map]
    exact ⟨fun h => ⟨hlength, h⟩, fun h => h.2⟩
  · rw [if_pos hlength]
    exact iff_of_false (fun h => by cases h) fun h => hlength h.1

theorem keys_members (map : MemberMap) :
    ((members (some map)).map Member.key).Perm ((map.entries.map Prod.fst).filterMap unhex) := by
  have hkeys : (map.entries.filterMap fun (key, entry) => member key entry).map Member.key =
      (map.entries.map Prod.fst).filterMap unhex := by
    rw [List.map_filterMap, List.filterMap_map]
    apply List.filterMap_congr
    rintro ⟨key, entry⟩ -
    show (member key entry).map Member.key = unhex key
    rw [member]
    rcases unhex key with _ | value <;> rfl
  rw [← hkeys]
  exact (List.mergeSort_perm _ _).map _

/-- The members have different keys iff no two keys of the map are spellings of one. -/
theorem nodup_members (map : MemberMap) :
    ((members (some map)).map Member.key).Nodup ↔
      ∀ text ∈ map.entries.map Prod.fst, ∀ text' ∈ map.entries.map Prod.fst, text ≠ text' →
        SpellsKey text → SpellsKey text' → plain (utf8 text) ≠ plain (utf8 text') := by
  have hpair : ∀ text text', (∀ key, unhex text = some key → ∀ key', unhex text' = some key' →
      key ≠ key') ↔ (SpellsKey text → SpellsKey text' →
        plain (utf8 text) ≠ plain (utf8 text')) := by
    intro text text'
    rw [← isSome_unhex, ← isSome_unhex, Option.isSome_iff_exists, Option.isSome_iff_exists]
    constructor
    · rintro h ⟨key, hkey⟩ ⟨key', hkey'⟩
      exact (unhex_eq_unhex hkey hkey').not.1 (h key hkey key' hkey')
    · intro h key hkey key' hkey'
      exact (unhex_eq_unhex hkey hkey').not.2 (h ⟨key, hkey⟩ ⟨key', hkey'⟩)
  rw [(keys_members map).nodup_iff, List.Nodup, List.pairwise_filterMap]
  constructor
  · intro h text htext text' htext' hne
    have : Std.Symm fun text text' : String => ∀ key, unhex text = some key →
        ∀ key', unhex text' = some key' → key ≠ key' :=
      ⟨fun _ _ hab key hkey key' hkey' heq => hab key' hkey' key hkey heq.symm⟩
    exact (hpair text text').1 (h.forall htext htext' hne)
  · intro h
    refine map.distinct.imp_of_mem fun {text text'} htext htext' hne => ?_
    exact (hpair text text').2 (h text htext text' htext' hne)

/-- When the identifiers have one spelling.

A decoder treats a text as it should, that is, accepts it exactly as the spelling of a value by its
encoder, iff the text is not another spelling: one of the length it expects, in pairs of two digits
or of a sign and a digit, with a sign or an upper-case digit among them. The member list is free of
duplicates iff no two keys of the map are the same in lower case and with zeros for signs. -/
theorem canonical_iff (text : String) (map : MemberMap) :
    (Canonical unhex keyText text ↔ ¬ RespelledKey text) ∧
    (Canonical decodeHex32Text keyText text ↔ ¬ RespelledKey text) ∧
    (Canonical visorUnhex hexText text ↔ ¬ Respelled text) ∧
    (((members (some map)).map Member.key).Nodup ↔
      ∀ text ∈ map.entries.map Prod.fst, ∀ text' ∈ map.entries.map Prod.fst, text ≠ text' →
        SpellsKey text → SpellsKey text' → plain (utf8 text) ≠ plain (utf8 text')) := by
  refine ⟨?_, canonical_decodeHex32Text text, canonical_visorUnhex text, nodup_members map⟩
  rw [← canonical_decodeHex32Text, funext unhex_eq]

/-- A key of one digit throughout. -/
def uniform (digit : Char) : String :=
  String.ofList (List.replicate 64 digit)

theorem utf8_uniform {digit : Char} (h : digit.toNat < 128) :
    utf8 (uniform digit) = List.replicate 64 (UInt8.ofNat digit.toNat) := by
  rw [uniform, utf8_ofList, List.map_replicate]
  intro c hc
  rw [List.eq_of_mem_replicate hc]
  exact h

theorem spellsKey_uniform {digit : Char} (h : digit.toNat < 128)
    (hdigit : IsDigit (UInt8.ofNat digit.toNat)) : SpellsKey (uniform digit) := by
  rw [SpellsKey, utf8_uniform h]
  refine ⟨List.length_replicate, ?_⟩
  have hpairs : ∀ n, Pairs (List.replicate (2 * n) (UInt8.ofNat digit.toNat)) := by
    intro n
    induction n with
    | zero => trivial
    | succ n ih => exact ⟨.inr hdigit, hdigit, ih⟩
  exact hpairs 32

/-- One member under two keys: the same 64 digits in lower and in upper case. -/
def twice : MemberMap where
  entries := [(uniform 'a', ⟨some "laptop", some 1⟩), (uniform 'A', ⟨some "laptop", some 2⟩)]
  distinct := by decide +kernel

/-- The upper-case spelling of a key is accepted, and a group that has both has the member twice. -/
theorem upper_case_is_accepted :
    ¬ Canonical unhex keyText (uniform 'A') ∧ ¬ Canonical decodeHex32Text keyText (uniform 'A') ∧
      ¬ Canonical visorUnhex hexText (uniform 'A') ∧
      ¬ ((members (some twice)).map Member.key).Nodup := by
  have hspelled : SpellsKey (uniform 'A') := spellsKey_uniform (by decide) (by decide)
  have hrespelled : RespelledKey (uniform 'A') := by
    refine ⟨hspelled.1, hspelled.2, 65, ?_, by decide⟩
    rw [utf8_uniform (by decide)]
    exact List.mem_replicate.2 ⟨by omega, rfl⟩
  refine ⟨?_, ?_, ?_, ?_⟩
  · rw [funext unhex_eq, canonical_decodeHex32Text]
    exact not_not.2 hrespelled
  · rw [canonical_decodeHex32Text]
    exact not_not.2 hrespelled
  · rw [canonical_visorUnhex]
    exact not_not.2 hrespelled.2
  · rw [nodup_members]
    intro h
    have hplain := h (uniform 'a') (by simp [twice]) (uniform 'A') (by simp [twice])
      (by decide +kernel) (spellsKey_uniform (by decide) (by decide)) hspelled
    rw [utf8_uniform (by decide), utf8_uniform (by decide)] at hplain
    exact hplain (by decide)

end Polyvisor.Contacts.Identifiers
