import Mathlib.Algebra.Order.BigOperators.Group.List
import Mathlib.Algebra.Order.Ring.Nat
import Mathlib.Algebra.GroupWithZero.Action.Defs
import Mathlib.Tactic.Common
import Polyvisor.Contacts.Signing

/-!
# Signed profiles

`sign_profile` of `contacts-model/src/lib.rs`, against `verify_profile` of `Document`. The signer
limits every claim and how many there are, the verifier also the whole of what was signed; the
limits of the first do not give that of the second.

## Main results

* `length_signedProfile`: how long a signed profile is.
* `profiles_verify_iff`: a signed profile verifies when it is short enough, and only then.
* `profiles_verify_of_length_le`: sixty claims always fit.
-/

namespace Polyvisor.Contacts.Signing

open Wire
open Protobuf (blob)

/-- `PROFILE_DOMAIN`. -/
def profileDomain : Bytes := utf8 "polyvisor:self-profile:v0\x00"

/-- The `proto::Profile` in `sign_profile`. -/
def profileMessage (c : Crypto) (root : Bytes32) (claims : List TextClaim) : ProfileMessage where
  version := version
  subjectRoot := Bytes32.bytes (c.verifyingKey root)
  issuerRoot := Bytes32.bytes (c.verifyingKey root)
  claims := claims

/-- The `proto::SignedProfile` in `sign_profile`. -/
def signedProfile (c : Crypto) (root : Bytes32) (claims : List TextClaim) : Wire.Signed where
  payload := profile.encode (profileMessage c root claims)
  signature := c.sign root (profileDomain ++ profile.encode (profileMessage c root claims))

theorem payload_signedProfile (c : Crypto) (root : Bytes32) (claims : List TextClaim) :
    (signedProfile c root claims).payload = profile.encode (profileMessage c root claims) := by
  rw [signedProfile]

theorem signature_signedProfile (c : Crypto) (root : Bytes32) (claims : List TextClaim) :
    (signedProfile c root claims).signature =
      c.sign root (profileDomain ++ profile.encode (profileMessage c root claims)) := by
  rw [signedProfile]

/-- `sign_profile`. -/
def signProfile (c : Crypto) (root : Bytes32) (claims : List TextClaim) : Except String Bytes := do
  validateClaims (claims.map TextClaim.claim)
  -- unlike `sign_introduction`, nothing here asks for `bounded`
  return signed.encode (signedProfile c root claims)

theorem signProfile_eq_ok {c : Crypto} {root : Bytes32} {claims : List TextClaim} {bytes : Bytes} :
    signProfile c root claims = .ok bytes ↔
      ClaimsBounded claims ∧ signed.encode (signedProfile c root claims) = bytes := by
  rw [signProfile, unit_bind_eq_ok, validateClaims_eq_ok]
  exact and_congr_right fun _ => ⟨fun h => Except.ok.inj h, congrArg _⟩

/-! ## How long it is -/

/-- What `n` bytes take as a field: a byte for the tag, their number in base 128, and themselves. -/
def fieldSize (n : ℕ) : ℕ := n + Nat.log 128 n + 2

/-- A field without bytes is left out. -/
def blobSize (n : ℕ) : ℕ := if n = 0 then 0 else fieldSize n

def claimSize (c : TextClaim) : ℕ := blobSize (utf8 c.name).length + blobSize (utf8 c.value).length

/-- The two keys and the claims; the version is zero and left out. -/
def profileSize (claims : List TextClaim) : ℕ :=
  2 * fieldSize 32 + (claims.map fun c => fieldSize (claimSize c)).sum

/-- The profile and a signature of 64 bytes. -/
def signedProfileSize (claims : List TextClaim) : ℕ :=
  fieldSize (profileSize claims) + fieldSize 64

theorem fieldSize_mono {m n : ℕ} (h : m ≤ n) : fieldSize m ≤ fieldSize n := by
  have hlog : Nat.log 128 m ≤ Nat.log 128 n := Nat.log_mono_right h
  rw [fieldSize, fieldSize]
  omega

theorem blobSize_le (n : ℕ) : blobSize n ≤ fieldSize n := by
  rw [blobSize]
  split_ifs
  · exact Nat.zero_le _
  · exact Nat.le_refl _

theorem blobSize_of_pos {n : ℕ} (h : 0 < n) : blobSize n = fieldSize n :=
  if_neg (by omega)

theorem length_blob {tag : ℕ} (htag : tag < 16) (bytes : Bytes) :
    (Protobuf.encodeFields (blob tag bytes)).length = blobSize bytes.length := by
  rw [blob, blobSize]
  by_cases hnil : bytes = []
  · rw [if_pos hnil, if_pos (List.length_eq_zero_iff.2 hnil)]
    rfl
  · rw [if_neg hnil, if_neg (mt List.length_eq_zero_iff.1 hnil), Protobuf.encodeFields_singleton,
      Protobuf.length_encode_bytes, Protobuf.nestedLength_eq htag, fieldSize]

theorem length_claim (c : TextClaim) : (claim.encode c).length = claimSize c := by
  rw [Protobuf.Schema.encode, claim, Protobuf.encodeFields_append, List.length_append,
    length_blob (by decide), length_blob (by decide), claimSize]

theorem length_profileMessage (c : Crypto) (root : Bytes32) (claims : List TextClaim) :
    (profile.encode (profileMessage c root claims)).length = profileSize claims := by
  have hkey : (Bytes32.bytes (c.verifyingKey root)).length = 32 := BigEndian.length_toBytes 32 _
  have hclaims : repeatedLength 4 (fun claim => (Wire.claim.encode claim).length) claims =
      (claims.map fun claim => fieldSize (claimSize claim)).sum := by
    simp only [repeatedLength, length_claim, Protobuf.nestedLength_eq (by decide : 4 < 16),
      fieldSize]
  have hversion : Protobuf.encodeFields (Protobuf.uint 1 version) = [] := rfl
  rw [Protobuf.Schema.encode, profile, profileMessage]
  simp only [Protobuf.encodeFields_append, List.length_append, length_encode_map, hversion, hclaims]
  rw [length_blob (by decide), length_blob (by decide), hkey, blobSize_of_pos (by decide),
    profileSize, List.length_nil]
  omega

theorem length_signedProfile {c : Crypto} (hc : c.Lawful) (root : Bytes32)
    (claims : List TextClaim) :
    (signed.encode (signedProfile c root claims)).length = signedProfileSize claims := by
  have hpos : 0 < profileSize claims := by
    rw [profileSize, fieldSize]
    omega
  rw [length_signed_encode, length_blob (by decide), length_blob (by decide), signedProfile,
    length_profileMessage, hc.length_sign, blobSize_of_pos hpos, blobSize_of_pos (by decide),
    signedProfileSize]

/-- Up to sixty claims fit, whatever they say. -/
theorem signedProfileSize_le {claims : List TextClaim} (h : ClaimsBounded claims)
    (hlength : claims.length ≤ 60) : signedProfileSize claims ≤ maxSignedBytes := by
  have hclaim (c : TextClaim) (hc : c ∈ claims) : fieldSize (claimSize c) ≤ 4361 := by
    obtain ⟨hname, hvalue⟩ := h.2 c hc
    have hsize : claimSize c ≤ fieldSize maxNameBytes + fieldSize maxValueBytes :=
      Nat.add_le_add ((blobSize_le _).trans (fieldSize_mono hname))
        ((blobSize_le _).trans (fieldSize_mono hvalue))
    exact (fieldSize_mono hsize).trans (by decide)
  have hsum : (claims.map fun c => fieldSize (claimSize c)).sum ≤ claims.length * 4361 := by
    have hcard := List.sum_le_card_nsmul (claims.map fun c => fieldSize (claimSize c)) 4361
      (List.forall_mem_map.2 hclaim)
    rwa [List.length_map, smul_eq_mul] at hcard
  have hprofile : profileSize claims ≤ 261728 := by
    have hkeys : 2 * fieldSize 32 = 68 := by decide
    rw [profileSize, hkeys]
    omega
  have htotal : fieldSize (profileSize claims) + fieldSize 64 ≤ fieldSize 261728 + fieldSize 64 :=
    Nat.add_le_add_right (fieldSize_mono hprofile) _
  exact htotal.trans (by decide)

/-! ## Verified again -/

theorem foreign_decodeSigned (c : Crypto) {m : Wire.Signed}
    (h : (signed.encode m).length < 2 ^ 64) :
    c.foreign.decodeSigned (signed.encode m) = some (m.payload, m.signature) := by
  show (signed.decode recursionLimit (signed.encode m)).map _ = _
  rw [decode_signed h]
  rfl

theorem foreign_decodeProfile (c : Crypto) {m : ProfileMessage} (hversion : m.version < 2 ^ 32)
    (h : (profile.encode m).length < 2 ^ 64) :
    c.foreign.decodeProfile (profile.encode m) =
      some ⟨m.version, m.subjectRoot, m.issuerRoot, m.claims.map TextClaim.claim⟩ := by
  show (profile.decode recursionLimit (profile.encode m)).map _ = _
  rw [decode_profile hversion h]
  rfl

theorem verifySignature_profileMessage {c : Crypto} (hc : c.Lawful) (root : Bytes32)
    (claims : List TextClaim) : verifySignature c.foreign (c.verifyingKey root) profileDomain
      (profile.encode (profileMessage c root claims))
      (c.sign root (profileDomain ++ profile.encode (profileMessage c root claims))) = .ok () := by
  rw [verifySignature]
  exact unit_bind_eq_ok.2 ⟨validKey_eq_ok.2 (hc.valid root), hc.verifies root _⟩

theorem verifyProfile_of_parts {f : Foreign} {bytes payload signature : Bytes} {key : Bytes32}
    {claims : List Claim} (hbounded : bounded bytes = .ok ())
    (henvelope : f.decodeSigned bytes = some (payload, signature))
    (hpayload : f.decodeProfile payload =
      some ⟨version, Bytes32.bytes key, Bytes32.bytes key, claims⟩)
    (hclaims : validateClaims claims = .ok ())
    (hsignature : verifySignature f key profileDomain payload signature = .ok ()) :
    verifyProfile f bytes = .ok ⟨key, key, claims⟩ := by
  have hversion : requireVersion version "profile" = .ok () := check_eq_ok.2 rfl
  have hsame : check (key = key)
      "an official self-profile must have identical subject and issuer" = .ok () :=
    check_eq_ok.2 rfl
  rw [verifyProfile, hbounded, henvelope]
  dsimp only [bind, Except.bind]
  rw [hpayload]
  dsimp only
  rw [hversion, key32_bytes, key32_bytes, hclaims]
  show (check (key = key) _ >>= _) = _
  rw [hsame]
  show (verifySignature f key profileDomain payload signature >>= _) = _
  rw [hsignature]
  rfl

/-- A signed profile that is short enough says what was signed. -/
theorem verifyProfile_signedProfile {c : Crypto} (hc : c.Lawful) (root : Bytes32)
    {claims : List TextClaim} (hclaims : ClaimsBounded claims)
    (h : signedProfileSize claims ≤ maxSignedBytes) :
    verifyProfile c.foreign (signed.encode (signedProfile c root claims)) =
      .ok ⟨c.verifyingKey root, c.verifyingKey root, claims.map TextClaim.claim⟩ := by
  have hlength := length_signedProfile hc root claims
  have hmax : maxSignedBytes < 2 ^ 64 := by decide
  have hlt : (signed.encode (signedProfile c root claims)).length < 2 ^ 64 := by omega
  have hpayload : (profile.encode (profileMessage c root claims)).length < 2 ^ 64 := by
    rw [signedProfileSize, fieldSize] at h
    rw [length_profileMessage]
    omega
  have hbounded : bounded (signed.encode (signedProfile c root claims)) = .ok () := by
    rw [bounded_eq_ok, hlength]
    exact h
  have henvelope := foreign_decodeSigned c hlt
  have hmessage := foreign_decodeProfile c (show version < 2 ^ 32 by decide) hpayload
  rw [payload_signedProfile, signature_signedProfile] at henvelope
  exact verifyProfile_of_parts hbounded henvelope hmessage (validateClaims_eq_ok.2 hclaims)
    (verifySignature_profileMessage hc root claims)

theorem verifyProfile_too_large {f : Foreign} {bytes : Bytes} (h : maxSignedBytes < bytes.length) :
    verifyProfile f bytes = .error "signed value is too large" := by
  rw [verifyProfile, bounded, check, if_neg (by omega)]
  rfl

theorem fromBytes_eq_ok {f : Foreign} {bytes : Bytes} {value : Profile}
    (h : verifyProfile f bytes = .ok value) :
    SignedProfile.fromBytes f bytes = .ok ⟨bytes, value, h⟩ :=
  profile_fromBytes_bytes ⟨bytes, value, h⟩

/-- `sign_profile` returns what `from_bytes` and `verify_profile` take, with the same claims, when
it refuses the claims or they are short enough together, and only then. -/
theorem profiles_verify_iff (c : Crypto) (hc : c.Lawful) (root : Bytes32)
    (claims : List TextClaim) :
    (∀ bytes, signProfile c root claims = .ok bytes → ∃ value : SignedProfile c.foreign,
      SignedProfile.fromBytes c.foreign bytes = .ok value ∧
      verifyProfile c.foreign bytes = .ok value.profile ∧
      value.profile =
        ⟨c.verifyingKey root, c.verifyingKey root, claims.map TextClaim.claim⟩) ↔
      (ClaimsBounded claims → signedProfileSize claims ≤ maxSignedBytes) := by
  constructor
  · intro h hclaims
    obtain ⟨value, -, hverified, -⟩ := h _ (signProfile_eq_ok.2 ⟨hclaims, rfl⟩)
    rw [← length_signedProfile hc root claims]
    by_contra hlong
    rw [verifyProfile_too_large (by omega)] at hverified
    exact (nomatch hverified)
  · intro h bytes hsigned
    obtain ⟨hclaims, rfl⟩ := signProfile_eq_ok.1 hsigned
    have hverified := verifyProfile_signedProfile hc root hclaims (h hclaims)
    exact ⟨⟨_, _, hverified⟩, fromBytes_eq_ok hverified, hverified, rfl⟩

theorem exampleCrypto_profiles_verify :
    ∃ (bytes : Bytes) (value : SignedProfile exampleCrypto.foreign),
      signProfile exampleCrypto 1 [⟨"name", "Ada"⟩] = .ok bytes ∧
        verifyProfile exampleCrypto.foreign bytes = .ok value.profile := by
  have hclaims : ClaimsBounded [⟨"name", "Ada"⟩] := by
    unfold ClaimsBounded
    decide +kernel
  have hsigned : signProfile exampleCrypto 1 [⟨"name", "Ada"⟩] = .ok _ :=
    signProfile_eq_ok.2 ⟨hclaims, rfl⟩
  obtain ⟨value, -, hverified, -⟩ := (profiles_verify_iff exampleCrypto exampleCrypto_lawful 1
    [⟨"name", "Ada"⟩]).2 (fun hclaims => signedProfileSize_le hclaims (by decide)) _ hsigned
  exact ⟨_, value, hsigned, hverified⟩

/-! ### A profile that is too long -/

theorem length_utf8_replicate (n : ℕ) :
    (utf8 (String.ofList (List.replicate n 'v'))).length = n := by
  rw [utf8_eq, String.toByteArray_ofList, Array.length_toList]
  show ByteArray.size _ = n
  induction n with
  | zero => rfl
  | succ n ih =>
    have hchar : ['v'].utf8Encode.size = 1 := by
      rw [List.utf8Encode_singleton]
      rfl
    rw [List.replicate_succ, List.utf8Encode_cons, ByteArray.size_append, hchar, ih]
    omega

theorem utf8_empty : utf8 "" = [] := by
  rw [utf8_eq]
  rfl

/-- Sixty-four claims with as long a value as a claim may have. -/
def longClaims (value : String) : List TextClaim := List.replicate 64 ⟨"", value⟩

section

variable {value : String} (hvalue : (utf8 value).length = maxValueBytes)

include hvalue

theorem longClaims_bounded : ClaimsBounded (longClaims value) := by
  refine ⟨by rw [longClaims, List.length_replicate]; decide, fun c hc => ?_⟩
  obtain rfl := List.eq_of_mem_replicate hc
  rw [utf8_empty, hvalue]
  exact ⟨Nat.zero_le _, Nat.le_refl _⟩

theorem signedProfileSize_longClaims : maxSignedBytes < signedProfileSize (longClaims value) := by
  have hclaim : claimSize ⟨"", value⟩ = 4099 := by
    rw [claimSize, utf8_empty, hvalue]
    decide
  have hprofile : profileSize (longClaims value) = 262596 := by
    rw [profileSize, longClaims, List.map_replicate, List.sum_replicate, hclaim]
    decide
  rw [signedProfileSize, hprofile]
  decide

theorem verifyProfile_longClaims : ∃ bytes,
    signProfile exampleCrypto 1 (longClaims value) = .ok bytes ∧
      verifyProfile exampleCrypto.foreign bytes = .error "signed value is too large" := by
  refine ⟨_, signProfile_eq_ok.2 ⟨longClaims_bounded hvalue, rfl⟩, verifyProfile_too_large ?_⟩
  rw [length_signedProfile exampleCrypto_lawful]
  exact signedProfileSize_longClaims hvalue

end

/-- They are signed, and what was signed is refused. -/
theorem long_profile_is_refused : exampleCrypto.Lawful ∧ ∃ bytes,
    signProfile exampleCrypto 1
        (longClaims (String.ofList (List.replicate maxValueBytes 'v'))) = .ok bytes ∧
      verifyProfile exampleCrypto.foreign bytes = .error "signed value is too large" :=
  ⟨exampleCrypto_lawful, verifyProfile_longClaims (length_utf8_replicate maxValueBytes)⟩

end Polyvisor.Contacts.Signing
