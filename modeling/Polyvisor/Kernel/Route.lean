import Mathlib.Data.Option.Basic
import Polyvisor.Lib.Aead
import Polyvisor.Lib.BigEndian
import Polyvisor.Lib.Fields
import Polyvisor.Lib.TextCode

/-!
# Route tokens

`encode_instance` and `decode_instance` of `route.rs`. The plaintext is five fields of fixed width;
the nonce is its own MAC. Every failure of the reader is `RouteError::Unreadable`.

## Main results

* `readPlaintext_eq_some`: which plaintexts are read, and as what.
* `decodeInstance_eq_ok`: a token is read as what it is written for, and nothing else is read.
* `tokens_canonical`: tokens come back, are as long as each other, are the only spelling of what
  they say, and open under no other key.
-/

namespace Polyvisor.Route

open Fields

abbrev Bytes := List UInt8

/-! ## The grammar -/

/-- `KIND`. -/
def kind : String := "app/"

/-- `VERSION`. -/
def version : UInt8 := 1

/-- `AAD`. -/
def aad : Bytes := utf8 "polyvisor:route:v1"

/-- `INSTALL_LEN`. -/
def installLen : ℕ := 16

/-- `NONCE_LEN`. -/
def nonceLen : ℕ := 12

/-- `PLAINTEXT_LEN`. -/
def plaintextLen : ℕ := 256

/-- `INSTANCE_CAP`. -/
def instanceCap : ℕ := 32

/-- `MAX_ROUTE`. -/
def maxRoute : ℕ := plaintextLen - installLen - 1 - instanceCap - 2

inductive RouteError where
  | tooLong
  | unreadable
  deriving DecidableEq

/-- What the module takes from `hmac`, `aes_gcm` and `data_encoding`. -/
structure Primitives where
  /-- `mac`. -/
  mac : Block 32 → Bytes → Block 32
  cipher : Cipher (Block 32)
  text : TextCode

/-- `subkeys`: to encrypt with and to make nonces with. -/
def Primitives.subkeys (f : Primitives) (key : Block 32) : Block 32 × Block 32 :=
  (f.mac key (utf8 "polyvisor:route:enc"), f.mac key (utf8 "polyvisor:route:siv"))

/-- `siv`. -/
def Primitives.siv (f : Primitives) (kSiv : Block 32) (plaintext : Bytes) : Bytes :=
  (f.mac kSiv plaintext).toList.take nonceLen

/-! ## Writing -/

/-- The plaintext of `encode_instance`. -/
def plaintext (install : Block 16) (instanceId route : String) : Bytes :=
  [install.toList, [UInt8.ofNat (utf8 instanceId).length], padded instanceCap (utf8 instanceId),
    BigEndian.toBytes 2 (utf8 route).length, padded maxRoute (utf8 route)].flatten

/-- The encryption that `encode_instance` makes. -/
def sealing (f : Primitives) (key : Block 32) (install : Block 16) (instanceId : Option String)
    (route : String) : Cipher.Sealing (Block 32) :=
  let plaintext := plaintext install (instanceId.getD "") route
  { key := (f.subkeys key).1
    nonce := f.siv (f.subkeys key).2 plaintext
    aad := aad
    message := plaintext }

/-- `encode_instance`. -/
def encodeInstance (f : Primitives) (key : Block 32) (install : Block 16)
    (instanceId : Option String) (route : String) : Except RouteError String :=
  if maxRoute < (utf8 route).length then .error .tooLong
  else if instanceCap < (utf8 (instanceId.getD "")).length then .error .tooLong
  else
    let s := sealing f key install instanceId route
    match f.cipher.sealed s with
    | none => .error .unreadable
    | some ct => .ok (kind ++ f.text.encode (version :: (s.nonce ++ ct)))

/-! ## Reading -/

/-- `strip_prefix`, of the bytes of a text. -/
def stripPrefix (start bytes : Bytes) : Option Bytes :=
  if start <+: bytes then some (bytes.drop start.length) else none

/-- `install.copy_from_slice(&plaintext[..INSTALL_LEN])`. -/
def installOf (plaintext : Block 256) : Block 16 :=
  plaintext.take installLen

/-- `decode_instance`, from the padded plaintext on. -/
def readPlaintext (plaintext : Block 256) : Option (Block 16 × Option String × String) := do
  let bytes := plaintext.toList
  let instanceLen := (bytes.getD installLen 0).toNat
  guard (instanceLen ≤ instanceCap)
  let instanceBody := slice bytes (installLen + 1) (installLen + 1 + instanceCap)
  guard ((instanceBody.drop instanceLen).all (· = 0))
  let instanceId ← ofUtf8 (instanceBody.take instanceLen)
  let routeLenAt := installLen + 1 + instanceCap
  let len := BigEndian.ofBytes (slice bytes routeLenAt (routeLenAt + 2))
  guard (len ≤ maxRoute)
  let body := bytes.drop (routeLenAt + 2)
  guard ((body.drop len).all (· = 0))
  let route ← ofUtf8 (body.take len)
  return (installOf plaintext, if instanceId = "" then none else some instanceId, route)

/-- `decode_instance`, up to the padded plaintext. -/
def openToken (f : Primitives) (key : Block 32) (fragment : String) : Option (Block 256) := do
  let token ← stripPrefix (utf8 kind) (utf8 fragment)
  let blob ← f.text.decode token
  guard (1 + nonceLen ≤ blob.length ∧ blob.head? = some version)
  let nonce := (blob.drop 1).take nonceLen
  let ct := (blob.drop 1).drop nonceLen
  let plaintext ← asBlock 256 (← f.cipher.decrypt (f.subkeys key).1 nonce aad ct)
  -- a nonce that the plaintext does not derive is a second spelling
  guard (f.siv (f.subkeys key).2 plaintext.toList = nonce)
  return plaintext

/-- `decode_instance`. -/
def decodeInstance (f : Primitives) (key : Block 32) (fragment : String) :
    Except RouteError (Block 16 × Option String × String) :=
  match (openToken f key fragment).bind readPlaintext with
  | none => .error .unreadable
  | some place => .ok place

/-! ## The plaintext -/

/-- The five fields, by their offsets. -/
theorem cut_plaintext {bytes : Bytes} (h : bytes.length = 256) :
    cut [16, 1, 32, 2, 205] bytes = [bytes.take 16, [bytes.getD 16 0], slice bytes 17 49,
      slice bytes 49 51, bytes.drop 51] := by
  have hlen : (bytes.drop 16).take 1 = [bytes.getD 16 0] := take_one_drop (by omega)
  have hbody : (bytes.drop 51).take 205 = bytes.drop 51 :=
    List.take_of_length_le (by rw [List.length_drop]; omega)
  simp only [cut, List.drop_drop, slice, hlen, hbody]

theorem lengths_fields {install : Block 16} {instanceId route : String}
    (hinstance : (utf8 instanceId).length ≤ 32) (hroute : (utf8 route).length ≤ 205) :
    [install.toList, [UInt8.ofNat (utf8 instanceId).length], padded instanceCap (utf8 instanceId),
      BigEndian.toBytes 2 (utf8 route).length, padded maxRoute (utf8 route)].map List.length =
        [16, 1, 32, 2, 205] := by
  simp only [List.map_cons, List.map_nil, List.Vector.toList_length, List.length_singleton,
    BigEndian.length_toBytes]
  rw [length_padded (show _ ≤ instanceCap from hinstance),
    length_padded (show _ ≤ maxRoute from hroute)]
  rfl

theorem length_plaintext {install : Block 16} {instanceId route : String}
    (hinstance : (utf8 instanceId).length ≤ 32) (hroute : (utf8 route).length ≤ 205) :
    (plaintext install instanceId route).length = 256 := by
  rw [plaintext, List.length_flatten, lengths_fields hinstance hroute]
  rfl

/-- A plaintext says what its fields say. -/
theorem eq_plaintext {bytes : Bytes} (h : bytes.length = 256) {install : Block 16}
    {instanceId route : String} (hinstance : (utf8 instanceId).length ≤ 32)
    (hroute : (utf8 route).length ≤ 205) :
    bytes = plaintext install instanceId route ↔
      bytes.take 16 = install.toList ∧
        bytes.getD 16 0 = UInt8.ofNat (utf8 instanceId).length ∧
        slice bytes 17 49 = padded instanceCap (utf8 instanceId) ∧
        slice bytes 49 51 = BigEndian.toBytes 2 (utf8 route).length ∧
        bytes.drop 51 = padded maxRoute (utf8 route) := by
  have hlengths : _ = [16, 1, 32, 2, 205] := @lengths_fields install _ _ hinstance hroute
  have hcut := cut_plaintext h
  constructor
  · intro heq
    rw [heq, plaintext, ← hlengths, cut_flatten, ← plaintext, ← heq] at hcut
    simp only [List.cons.injEq, and_true] at hcut
    obtain ⟨h₁, h₂, h₃, h₄, h₅⟩ := hcut
    exact ⟨h₁.symm, h₂.symm, h₃.symm, h₄.symm, h₅.symm⟩
  · rintro ⟨h₁, h₂, h₃, h₄, h₅⟩
    rw [← flatten_cut (show bytes.length = [16, 1, 32, 2, 205].sum from h), hcut, h₁, h₂, h₃, h₄,
      h₅, plaintext]

/-- What a name within its limit is read back from. -/
theorem ofUtf8_take_padded {width : ℕ} (text : String) :
    ofUtf8 ((padded width (utf8 text)).take (utf8 text).length) = some text := by
  rw [take_padded, ofUtf8_utf8]

theorem zeros_padded {width : ℕ} (bytes : Bytes) :
    ∀ byte ∈ (padded width bytes).drop bytes.length, byte = 0 := by
  rw [drop_padded]
  exact fun byte hbyte => List.eq_of_mem_replicate hbyte

/-- The reader takes a plaintext exactly for what it was laid out for. -/
theorem readPlaintext_eq_some {p : Block 256} {install : Block 16} {instanceId : Option String}
    {route : String} : readPlaintext p = some (install, instanceId, route) ↔
      instanceId ≠ some "" ∧ (utf8 (instanceId.getD "")).length ≤ 32 ∧ (utf8 route).length ≤ 205 ∧
        p.toList = plaintext install (instanceId.getD "") route := by
  have hp : p.toList.length = 256 := List.Vector.toList_length p
  have hbody : (slice p.toList 17 49).length = 32 := length_slice (by omega)
  have hwidth : (slice p.toList 49 51).length = 2 := length_slice (by omega)
  have hrest : (p.toList.drop 51).length = 205 := by
    rw [List.length_drop, hp]
  simp only [readPlaintext, Option.bind_eq_bind, Option.bind_eq_some_iff, Option.guard_eq_some',
    Option.pure_def, Option.some_inj, Prod.mk.injEq, List.all_eq_true, decide_eq_true_eq]
  constructor
  · rintro ⟨-, hcap, -, hzeros, name, hname, -, hlen, -, hpad, text, htext, hinstall, hid, rfl⟩
    have hcap : (p.toList.getD 16 0).toNat ≤ 32 := hcap
    have hzeros : ∀ byte ∈ (slice p.toList 17 49).drop (p.toList.getD 16 0).toNat, byte = 0 :=
      hzeros
    have hname : utf8 name = (slice p.toList 17 49).take (p.toList.getD 16 0).toNat :=
      utf8_of_ofUtf8 hname
    have hlen : BigEndian.ofBytes (slice p.toList 49 51) ≤ 205 := hlen
    have hpad : ∀ byte ∈ (p.toList.drop 51).drop (BigEndian.ofBytes (slice p.toList 49 51)),
        byte = 0 := hpad
    have htext : utf8 text = (p.toList.drop 51).take (BigEndian.ofBytes (slice p.toList 49 51)) :=
      utf8_of_ofUtf8 htext
    -- an empty name and none are the same bytes
    have hget : instanceId.getD "" = name := by
      rw [← hid]
      split_ifs with hempty
      · exact hempty.symm
      · rfl
    have hnonempty : instanceId ≠ some "" := by
      rintro rfl
      rw [Option.getD_some] at hget
      rw [if_pos hget.symm] at hid
      exact nomatch hid
    have hnameLength : (utf8 name).length = (p.toList.getD 16 0).toNat := by
      rw [hname, List.length_take, hbody, Nat.min_eq_left hcap]
    have htextLength : (utf8 text).length = BigEndian.ofBytes (slice p.toList 49 51) := by
      rw [htext, List.length_take, hrest, Nat.min_eq_left hlen]
    have hinstance : (utf8 name).length ≤ 32 := hnameLength ▸ hcap
    have hroute : (utf8 text).length ≤ 205 := htextLength ▸ hlen
    rw [hget]
    refine ⟨hnonempty, hinstance, hroute, (eq_plaintext hp hinstance hroute).2 ⟨?_, ?_, ?_, ?_, ?_⟩⟩
    · rw [← hinstall]
      rfl
    · rw [hnameLength, UInt8.ofNat_toNat]
    · rw [hname]
      exact eq_padded hbody hcap hzeros
    · rw [htextLength, ← hwidth, BigEndian.toBytes_ofBytes]
    · rw [htext]
      exact eq_padded hrest hlen hpad
  · rintro ⟨hnonempty, hinstance, hroute, heq⟩
    obtain ⟨h₁, h₂, h₃, h₄, h₅⟩ := (eq_plaintext hp hinstance hroute).1 heq
    have hnameLength : (p.toList.getD 16 0).toNat = (utf8 (instanceId.getD "")).length := by
      rw [h₂, UInt8.toNat_ofNat_of_lt' (show _ < 256 by omega)]
    have htextLength : BigEndian.ofBytes (slice p.toList 49 51) = (utf8 route).length := by
      rw [h₄, BigEndian.ofBytes_toBytes_of_lt (by omega)]
    have hid : (if instanceId.getD "" = "" then none else some (instanceId.getD "")) =
        instanceId := by
      rcases instanceId with - | name
      · rfl
      · rw [Option.getD_some, if_neg fun hempty => hnonempty (congrArg some hempty)]
    refine ⟨(), hnameLength.trans_le hinstance, (), ?_, instanceId.getD "", ?_, (),
      htextLength.trans_le hroute, (), ?_, route, ?_, ?_, hid, rfl⟩
    · show ∀ byte ∈ (slice p.toList 17 49).drop (p.toList.getD 16 0).toNat, byte = 0
      rw [h₃, hnameLength]
      exact zeros_padded _
    · show ofUtf8 ((slice p.toList 17 49).take (p.toList.getD 16 0).toNat) = _
      rw [h₃, hnameLength, ofUtf8_take_padded]
    · show ∀ byte ∈ (p.toList.drop 51).drop (BigEndian.ofBytes (slice p.toList 49 51)), byte = 0
      rw [h₅, htextLength]
      exact zeros_padded _
    · show ofUtf8 ((p.toList.drop 51).take (BigEndian.ofBytes (slice p.toList 49 51))) = _
      rw [h₅, htextLength, ofUtf8_take_padded]
    · apply List.Vector.eq
      exact h₁

/-! ## The token -/

theorem stripPrefix_eq_some {start bytes rest : Bytes} :
    stripPrefix start bytes = some rest ↔ bytes = start ++ rest := by
  rw [stripPrefix]
  constructor
  · intro h
    split_ifs at h with hstart
    obtain ⟨tail, rfl⟩ := hstart
    rw [List.drop_left] at h
    rw [Option.some.inj h]
  · rintro rfl
    rw [if_pos (List.prefix_append start rest), List.drop_left]

variable {f : Primitives} {key : Block 32} {install : Block 16} {instanceId : Option String}
  {route fragment : String}

theorem length_siv (kSiv : Block 32) (plaintext : Bytes) : (f.siv kSiv plaintext).length = 12 := by
  rw [Primitives.siv, List.length_take, List.Vector.toList_length]
  rfl

/-- A fragment is written for a place within the limits, and is its only one. -/
theorem encodeInstance_eq_ok : encodeInstance f key install instanceId route = .ok fragment ↔
    (utf8 (instanceId.getD "")).length ≤ 32 ∧ (utf8 route).length ≤ 205 ∧
      ∃ ct, f.cipher.sealed (sealing f key install instanceId route) = some ct ∧
        fragment = kind ++ f.text.encode
          (version :: ((sealing f key install instanceId route).nonce ++ ct)) := by
  rw [encodeInstance]
  constructor
  · intro h
    split_ifs at h with hroute hinstance
    refine ⟨not_lt.1 hinstance, not_lt.1 hroute, ?_⟩
    rcases hsealed : f.cipher.sealed (sealing f key install instanceId route) with - | ct
    · simp only [hsealed] at h
      exact nomatch h
    · simp only [hsealed] at h
      exact ⟨ct, rfl, (Except.ok.inj h).symm⟩
  · rintro ⟨hinstance, hroute, ct, hsealed, rfl⟩
    rw [if_neg (not_lt.2 (show _ ≤ maxRoute from hroute)),
      if_neg (not_lt.2 (show _ ≤ instanceCap from hinstance))]
    simp only [hsealed]

/-- What a token opens to: the plaintext it was sealed from, under the nonce it derives. -/
theorem openToken_eq_some (hcipher : f.cipher.Lawful 16 (2 ^ 36)) (htext : f.text.Canonical)
    {p : Block 256} : openToken f key fragment = some p ↔
      ∃ ct, f.cipher.encrypt (f.subkeys key).1 (f.siv (f.subkeys key).2 p.toList) aad p.toList =
          some ct ∧
        fragment = kind ++ f.text.encode
          (version :: (f.siv (f.subkeys key).2 p.toList ++ ct)) := by
  simp only [openToken, Option.bind_eq_bind, Option.bind_eq_some_iff, Option.guard_eq_some',
    stripPrefix_eq_some, asBlock_eq_some, Option.pure_def, Option.some_inj]
  constructor
  · rintro ⟨token, htoken, blob, hblob, -, ⟨hlong, hversion⟩, _, hplaintext, _, rfl, -, hsiv, rfl⟩
    obtain ⟨first, rest, rfl⟩ : ∃ first rest, blob = first :: rest := by
      rcases blob with - | ⟨first, rest⟩
      · exact nomatch hversion
      · exact ⟨first, rest, rfl⟩
    obtain rfl : first = version := Option.some.inj hversion
    refine ⟨rest.drop nonceLen, ?_, utf8_injective ?_⟩
    · rw [hsiv]
      exact hcipher.decrypt_eq_some.1 hplaintext
    · -- the token is the one text of its bytes
      rw [utf8_append, htoken, hsiv, ← htext.decode_eq_some.1 hblob]
      show utf8 kind ++ _ = utf8 kind ++ utf8 (f.text.encode (version ::
        (rest.take nonceLen ++ rest.drop nonceLen)))
      rw [List.take_append_drop]
  · rintro ⟨ct, hct, rfl⟩
    have htake : (f.siv (f.subkeys key).2 p.toList ++ ct).take nonceLen =
        f.siv (f.subkeys key).2 p.toList := List.take_left' (length_siv _ _)
    have hdrop : (f.siv (f.subkeys key).2 p.toList ++ ct).drop nonceLen = ct :=
      List.drop_left' (length_siv _ _)
    refine ⟨_, utf8_append _ _, _, htext.decode_eq_some.2 rfl, (), ⟨?_, rfl⟩, p.toList, ?_, p,
      rfl, (), ?_, rfl⟩
    · rw [List.length_cons, List.length_append, length_siv]
      show 1 + 12 ≤ _
      omega
    · rw [List.drop_one, List.tail_cons, htake, hdrop]
      exact hcipher.decrypt_of_encrypt hct
    · rw [List.drop_one, List.tail_cons, htake]

theorem decodeInstance_eq_ok_iff {place : Block 16 × Option String × String} :
    decodeInstance f key fragment = .ok place ↔
      ∃ p, openToken f key fragment = some p ∧ readPlaintext p = some place := by
  rw [decodeInstance, ← Option.bind_eq_some_iff]
  rcases (openToken f key fragment).bind readPlaintext with - | other
  · exact iff_of_false (fun h => nomatch h) fun h => nomatch h
  · exact ⟨fun h => congrArg some (Except.ok.inj h), fun h => congrArg _ (Option.some.inj h)⟩

/-- A fragment is read as what it was written for, and nothing else is read. -/
theorem decodeInstance_eq_ok (hcipher : f.cipher.Lawful 16 (2 ^ 36)) (htext : f.text.Canonical) :
    decodeInstance f key fragment = .ok (install, instanceId, route) ↔
      instanceId ≠ some "" ∧ encodeInstance f key install instanceId route = .ok fragment := by
  rw [decodeInstance_eq_ok_iff, encodeInstance_eq_ok]
  constructor
  · rintro ⟨p, hopen, hread⟩
    obtain ⟨hnonempty, hinstance, hroute, hp⟩ := readPlaintext_eq_some.1 hread
    obtain ⟨ct, hct, hfragment⟩ := (openToken_eq_some hcipher htext).1 hopen
    rw [hp] at hct hfragment
    exact ⟨hnonempty, hinstance, hroute, ct, hct, hfragment⟩
  · rintro ⟨hnonempty, hinstance, hroute, ct, hct, hfragment⟩
    let p : Block 256 := ⟨plaintext install (instanceId.getD "") route,
      length_plaintext hinstance hroute⟩
    exact ⟨p, (openToken_eq_some hcipher htext).2 ⟨ct, hct, hfragment⟩,
      readPlaintext_eq_some.2 ⟨hnonempty, hinstance, hroute, rfl⟩⟩

/-- Within its limits a place has a fragment. -/
theorem exists_encodeInstance (hcipher : f.cipher.Lawful 16 (2 ^ 36))
    (hinstance : (utf8 (instanceId.getD "")).length ≤ instanceCap)
    (hroute : (utf8 route).length ≤ maxRoute) :
    ∃ fragment, encodeInstance f key install instanceId route = .ok fragment := by
  have hlength : (sealing f key install instanceId route).message.length ≤ 2 ^ 36 :=
    (length_plaintext hinstance hroute).trans_le (by decide)
  obtain ⟨ct, hct, -⟩ := hcipher.encrypts _ (sealing f key install instanceId route).nonce
    (sealing f key install instanceId route).aad hlength
  exact ⟨_, encodeInstance_eq_ok.2 ⟨hinstance, hroute, ct, hct, rfl⟩⟩

/-- The padding hides how long the route is. -/
theorem length_encodeInstance (hcipher : f.cipher.Lawful 16 (2 ^ 36)) (htext : f.text.Canonical)
    {key' : Block 32} {install' : Block 16} {instanceId' : Option String}
    {route' fragment' : String}
    (h : encodeInstance f key install instanceId route = .ok fragment)
    (h' : encodeInstance f key' install' instanceId' route' = .ok fragment') :
    (utf8 fragment).length = (utf8 fragment').length := by
  -- a sealed plaintext has 272 bytes, whatever it says
  have hct : ∀ {key install instanceId route ct}, (utf8 (instanceId.getD "")).length ≤ 32 →
      (utf8 route).length ≤ 205 →
      f.cipher.sealed (sealing f key install instanceId route) = some ct →
        (version :: ((sealing f key install instanceId route).nonce ++ ct)).length = 285 := by
    intro key install instanceId route ct hinstance hroute hsealed
    have hlength : (plaintext install (instanceId.getD "") route).length = 256 :=
      length_plaintext hinstance hroute
    have hsealed := hcipher.length_of_encrypt (hlength.trans_le (by decide)) hsealed
    have hnonce : (sealing f key install instanceId route).nonce.length = 12 := length_siv _ _
    rw [List.length_cons, List.length_append, hnonce, hsealed, hlength]
  obtain ⟨hinstance, hroute, ct, hsealed, rfl⟩ := encodeInstance_eq_ok.1 h
  obtain ⟨hinstance', hroute', ct', hsealed', rfl⟩ := encodeInstance_eq_ok.1 h'
  have hblobs := (hct hinstance hroute hsealed).trans (hct hinstance' hroute' hsealed').symm
  rw [utf8_append, utf8_append, List.length_append, List.length_append,
    htext.length_encode hblobs]

/-- Under another key the token does not open. -/
theorem decodeInstance_of_ne (hcipher : f.cipher.Lawful 16 (2 ^ 36)) (htext : f.text.Canonical)
    (hmac : Function.Injective fun key => f.mac key (utf8 "polyvisor:route:enc"))
    {made : Set (Cipher.Sealing (Block 32))} (hseparates : f.cipher.Separates made)
    (hmade : sealing f key install instanceId route ∈ made)
    (h : encodeInstance f key install instanceId route = .ok fragment) {key' : Block 32}
    (hne : key' ≠ key) : decodeInstance f key' fragment = .error .unreadable := by
  obtain ⟨-, -, ct, hsealed, hfragment⟩ := encodeInstance_eq_ok.1 h
  have hsubkey : (f.subkeys key').1 ≠ (sealing f key install instanceId route).key :=
    fun heq => hne (hmac heq)
  rw [decodeInstance]
  rcases hopen : openToken f key' fragment with - | p
  · rfl
  · exfalso
    obtain ⟨ct', hct', hfragment'⟩ := (openToken_eq_some hcipher htext).1 hopen
    -- both are texts of the same bytes, so the ciphertexts are the same
    have hbytes : version :: ((sealing f key install instanceId route).nonce ++ ct) =
        version :: (f.siv (f.subkeys key').2 p.toList ++ ct') := by
      have htexts := congrArg utf8 (hfragment.symm.trans hfragment')
      rw [utf8_append, utf8_append, List.append_cancel_left_eq] at htexts
      exact Option.some.inj ((htext.decode_eq_some.2 rfl).symm.trans
        (htext.decode_eq_some.2 htexts.symm))
    have hnonces : (sealing f key install instanceId route).nonce.length =
        (f.siv (f.subkeys key').2 p.toList).length :=
      (length_siv _ _).trans (length_siv _ _).symm
    obtain ⟨-, rfl⟩ := List.append_inj (List.cons.inj hbytes).2 hnonces
    have hopens := hcipher.decrypt_of_encrypt hct'
    rw [hseparates _ hmade _ hsealed _ hsubkey] at hopens
    exact nomatch hopens

/-- Tokens come back as the place that they were written for, whatever it is within the limits; all
are as long as each other; a string that is read under a key is the token of what it is read as; and
a token opens under no other key. -/
theorem tokens_canonical (hcipher : f.cipher.Lawful 16 (2 ^ 36)) (htext : f.text.Canonical)
    (hmac : Function.Injective fun key => f.mac key (utf8 "polyvisor:route:enc"))
    {made : Set (Cipher.Sealing (Block 32))} (hseparates : f.cipher.Separates made) :
    (∀ key install instanceId route, instanceId ≠ some "" →
      (utf8 (instanceId.getD "")).length ≤ instanceCap → (utf8 route).length ≤ maxRoute →
        ∃ fragment, encodeInstance f key install instanceId route = .ok fragment ∧
          decodeInstance f key fragment = .ok (install, instanceId, route)) ∧
      (∀ {key key' install install' instanceId instanceId' route route' fragment fragment'},
        encodeInstance f key install instanceId route = .ok fragment →
          encodeInstance f key' install' instanceId' route' = .ok fragment' →
            (utf8 fragment).length = (utf8 fragment').length) ∧
      (∀ {key install instanceId route fragment},
        decodeInstance f key fragment = .ok (install, instanceId, route) →
          encodeInstance f key install instanceId route = .ok fragment) ∧
      ∀ {key install instanceId route fragment},
        encodeInstance f key install instanceId route = .ok fragment →
          sealing f key install instanceId route ∈ made →
            ∀ key', key' ≠ key → decodeInstance f key' fragment = .error .unreadable := by
  refine ⟨?_, length_encodeInstance hcipher htext,
    fun h => ((decodeInstance_eq_ok hcipher htext).1 h).2,
    fun h hmade key' hne => decodeInstance_of_ne hcipher htext hmac hseparates hmade h hne⟩
  intro key install instanceId route hnonempty hinstance hroute
  obtain ⟨fragment, hfragment⟩ := exists_encodeInstance hcipher hinstance hroute
  exact ⟨fragment, hfragment, (decodeInstance_eq_ok hcipher htext).2 ⟨hnonempty, hfragment⟩⟩

/-- Primitives under which the keys are their own subkeys and one key has a tag of its own. -/
def samplePrimitives : Primitives where
  mac key message :=
    if message = utf8 "polyvisor:route:enc" then key
    else List.Vector.replicate 32 (UInt8.ofNat message.length)
  cipher := Cipher.tagged (2 ^ 36) fun key =>
    List.Vector.replicate 16 (if key = List.Vector.replicate 32 0 then 1 else 0)
  text := base64Url

/-- A token of a list of an install, at an item of it. -/
theorem tokens_canonical_item : ∃ fragment,
    encodeInstance samplePrimitives (List.Vector.replicate 32 0) (List.Vector.replicate 16 7)
        (some "list") "items/é" = .ok fragment ∧
      decodeInstance samplePrimitives (List.Vector.replicate 32 0) fragment =
        .ok (List.Vector.replicate 16 7, some "list", "items/é") ∧
      decodeInstance samplePrimitives (List.Vector.replicate 32 1) fragment =
        .error .unreadable := by
  let place := sealing samplePrimitives (List.Vector.replicate 32 0) (List.Vector.replicate 16 7)
    (some "list") "items/é"
  have hmac : Function.Injective fun key =>
      samplePrimitives.mac key (utf8 "polyvisor:route:enc") := by
    intro key key' h
    simpa [samplePrimitives] using h
  have hseparates : samplePrimitives.cipher.Separates {place} := by
    apply Cipher.separates_tagged
    rintro s rfl k hk heq
    have hkey : place.key = List.Vector.replicate 32 0 := if_pos rfl
    rw [hkey] at hk
    rw [hkey, if_neg hk, if_pos rfl] at heq
    exact absurd (congrArg List.Vector.head heq) (by decide)
  obtain ⟨hround, -, -, hother⟩ :=
    tokens_canonical (Cipher.lawful_tagged _ _) Base64Url.canonical_base64Url hmac hseparates
  obtain ⟨fragment, hencode, hdecode⟩ := hround (List.Vector.replicate 32 0)
    (List.Vector.replicate 16 7) (some "list") "items/é" (by decide) (by decide +kernel)
    (by decide +kernel)
  exact ⟨fragment, hencode, hdecode, hother hencode rfl _ (by decide +kernel)⟩

end Polyvisor.Route
