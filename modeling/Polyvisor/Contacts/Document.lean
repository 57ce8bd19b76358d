import Polyvisor.Lib.BigEndian
import Polyvisor.Contacts.RootMap
import Polyvisor.Engine.Snapshot

/-!
# The contacts document

`contacts-model/src/lib.rs`: the signed artifacts, the registers of the contacts document and the
three operations that write a root binding into it, `bind_root`, `persist_verified_introduction`
and `adopt`. What the crate takes from `prost`, `ed25519_dalek` and `sha2` is gathered in `Foreign`.
-/

namespace Polyvisor.Contacts

/-! ## Texts -/

def hexDigit (n : ℕ) : UInt8 :=
  UInt8.ofNat (if n < 10 then 48 + n else 87 + n)

/-- `hex`. -/
def hex (bytes : Bytes) : Bytes :=
  bytes.flatMap fun byte => [hexDigit (byte.toNat / 16), hexDigit (byte.toNat % 16)]

/-- The value of a digit in base 16, of either case. -/
def digitValue (c : UInt8) : Option ℕ :=
  let n := c.toNat
  if 48 ≤ n ∧ n < 58 then some (n - 48)
  else if 65 ≤ n ∧ n < 71 then some (n - 55)
  else if 97 ≤ n ∧ n < 103 then some (n - 87)
  else none

/-- `u8::from_str_radix` of two characters, which accepts a sign in front of one digit. -/
def pairValue (a b : UInt8) : Option ℕ :=
  if a.toNat = 43 then digitValue b
  else do return (← digitValue a) * 16 + (← digitValue b)

def decodePairs : Bytes → Option Bytes
  | [] => some []
  | [_] => none
  | a :: b :: rest => do return UInt8.ofNat (← pairValue a b) :: (← decodePairs rest)

/-- `decode_hex32`. -/
def decodeHex32 (value : Bytes) : Option Bytes32 :=
  if value.length ≠ 64 then none
  else (decodePairs value).map fun bytes => BitVec.ofNat 256 (BigEndian.ofBytes bytes)

/-- The bytes of a key. -/
def Bytes32.bytes (key : Bytes32) : Bytes :=
  BigEndian.toBytes 32 key.toNat

theorem decodePairs_hex (bytes : Bytes) : decodePairs (hex bytes) = some bytes := by
  have hdigit : ∀ n < 16, digitValue (hexDigit n) = some n ∧ (hexDigit n).toNat ≠ 43 := by decide
  induction bytes with
  | nil => rfl
  | cons byte rest ih =>
    have hlow : byte.toNat % 16 < 16 := Nat.mod_lt _ (by omega)
    have hhigh : byte.toNat / 16 < 16 := by have := byte.toNat_lt; omega
    have hpair : pairValue (hexDigit (byte.toNat / 16)) (hexDigit (byte.toNat % 16)) =
        some (byte.toNat / 16 * 16 + byte.toNat % 16) := by
      rw [pairValue, if_neg (hdigit _ hhigh).2, (hdigit _ hhigh).1, (hdigit _ hlow).1]
      rfl
    have hvalue : byte.toNat / 16 * 16 + byte.toNat % 16 = byte.toNat := by omega
    show decodePairs (hexDigit (byte.toNat / 16) :: hexDigit (byte.toNat % 16) :: hex rest) = _
    rw [decodePairs, hpair, ih, hvalue, Option.bind_eq_bind, Option.bind_some]
    simp

theorem length_hex (bytes : Bytes) : (hex bytes).length = 2 * bytes.length := by
  induction bytes with
  | nil => rfl
  | cons byte rest ih =>
    have hcons : hex (byte :: rest) =
      hexDigit (byte.toNat / 16) :: hexDigit (byte.toNat % 16) :: hex rest := rfl
    rw [hcons]
    simp only [List.length_cons, ih]
    omega

theorem decodeHex32_hex (key : Bytes32) : decodeHex32 (hex (Bytes32.bytes key)) = some key := by
  have hlength : (hex (Bytes32.bytes key)).length = 64 := by
    rw [length_hex, Bytes32.bytes, BigEndian.length_toBytes]
  rw [decodeHex32, if_neg (not_not.2 hlength), decodePairs_hex, Option.map_some, Bytes32.bytes]
  rw [BigEndian.ofBytes_toBytes_of_lt key.isLt, BitVec.ofNat_toNat, BitVec.setWidth_eq]

/-- `to_string` of a number. -/
def decimal (n : ℕ) : Bytes :=
  utf8 (toString n)

/-- `str::parse::<u64>`. -/
def parseU64 (text : Bytes) : Option ℕ :=
  let digits := if text.head? = some 43 then text.tail else text
  if digits = [] then none
  else do
    let n ← digits.foldlM (fun n c =>
      if 48 ≤ c.toNat ∧ c.toNat < 58 then some (n * 10 + (c.toNat - 48)) else none) 0
    if n < 2 ^ 64 then some n else none

/-! ## Signed artifacts -/

/-- `RootBinding`. -/
structure RootBinding where
  root : Bytes32
  group : Bytes32
  deriving DecidableEq

/-- `Claim`. -/
structure Claim where
  name : Bytes
  value : Bytes
  deriving DecidableEq

/-- `Profile`. -/
structure Profile where
  subject : Bytes32
  issuer : Bytes32
  claims : List Claim
  deriving DecidableEq

/-- `proto::RootBinding`. -/
structure RootBindingWire where
  version : ℕ
  rootPublicKey : Bytes
  groupId : Bytes

/-- `proto::Profile`. -/
structure ProfileWire where
  version : ℕ
  subjectRoot : Bytes
  issuerRoot : Bytes
  claims : List Claim

/-- `proto::AuthenticatedIdentity`. -/
structure IdentityWire where
  rootBinding : Bytes
  profiles : List Bytes
  authorityDevice : Bytes
  keyhiveAuthorityProof : Bytes

/-- What `VerifyingKey::from_bytes` and `is_weak` make of a key. -/
inductive KeyKind where
  | invalid
  | weak
  | valid
  deriving DecidableEq

/-- What comes from other crates. `decodeSigned` reads a payload and its signature: the three signed
envelopes have the same two fields. -/
structure Foreign where
  sha : Sha256
  keyKind : Bytes32 → KeyKind
  /-- `Signature::from_slice` and `verify_strict`. -/
  verifyStrict : Bytes32 → Bytes → Bytes → Except String Unit
  decodeSigned : Bytes → Option (Bytes × Bytes)
  decodeRootBinding : Bytes → Option RootBindingWire
  decodeProfile : Bytes → Option ProfileWire
  encodeIdentity : IdentityWire → Bytes
  decodeIdentity : Bytes → Option IdentityWire

/-- What the encoder writes, the decoder reads back. -/
def Foreign.Lawful (f : Foreign) : Prop :=
  ∀ wire, f.decodeIdentity (f.encodeIdentity wire) = some wire

def version : ℕ := 0
def maxSignedBytes : ℕ := 256 * 1024
def maxParties : ℕ := 64
def maxClaimsPerParty : ℕ := 128
def maxNameBytes : ℕ := 256
def maxValueBytes : ℕ := 4096
def minTimestampSeconds : ℤ := -62135596800
def maxTimestampSeconds : ℤ := 253402300799

/-- Fail with an error unless the condition holds. -/
def check {E : Type} (condition : Prop) [Decidable condition] (error : E) : Except E Unit :=
  if condition then .ok () else .error error

/-- `bounded`. -/
def bounded (bytes : Bytes) : Except String Unit :=
  check (bytes.length ≤ maxSignedBytes) "signed value is too large"

/-- `require_version`. -/
def requireVersion (v : ℕ) (what : String) : Except String Unit :=
  check (v = version) ("unsupported " ++ what ++ " version")

/-- `key32`. -/
def key32 (bytes : Bytes) (what : String) : Except String Bytes32 :=
  if bytes.length = 32 then .ok (BitVec.ofNat 256 (BigEndian.ofBytes bytes))
  else .error ("invalid " ++ what ++ " length")

/-- `valid_key`. -/
def validKey (f : Foreign) (key : Bytes32) (what : String) : Except String Unit :=
  match f.keyKind key with
  | .invalid => .error ("invalid " ++ what)
  | .weak => .error ("weak " ++ what)
  | .valid => .ok ()

/-- `verify_signature`. -/
def verifySignature (f : Foreign) (key : Bytes32) (domain payload signature : Bytes) :
    Except String Unit := do
  validKey f key "signing key"
  f.verifyStrict key (domain ++ payload) signature

/-- `validate_claims`. -/
def validateClaims (claims : List Claim) : Except String Unit := do
  check (claims.length ≤ maxClaimsPerParty) "too many claims"
  check (∀ claim ∈ claims, claim.name.length ≤ maxNameBytes ∧ claim.value.length ≤ maxValueBytes)
    "claim is too large"

/-- `verify_root_binding_bytes`. -/
def verifyRootBinding (f : Foreign) (bytes : Bytes) : Except String RootBinding := do
  bounded bytes
  match f.decodeSigned bytes with
  | none => .error "invalid root binding envelope"
  | some (payload, signature) =>
    match f.decodeRootBinding payload with
    | none => .error "invalid root binding payload"
    | some value =>
      requireVersion value.version "root binding"
      let root ← key32 value.rootPublicKey "root identity"
      let group ← key32 value.groupId "group id"
      verifySignature f root (utf8 "polyvisor:root-group-binding:v0\x00") payload signature
      return ⟨root, group⟩

/-- `verify_profile_bytes`. -/
def verifyProfile (f : Foreign) (bytes : Bytes) : Except String Profile := do
  bounded bytes
  match f.decodeSigned bytes with
  | none => .error "invalid signed profile envelope"
  | some (payload, signature) =>
    match f.decodeProfile payload with
    | none => .error "invalid profile payload"
    | some value =>
      requireVersion value.version "profile"
      let subject ← key32 value.subjectRoot "profile subject"
      let issuer ← key32 value.issuerRoot "profile issuer"
      check (subject = issuer) "an official self-profile must have identical subject and issuer"
      validateClaims value.claims
      verifySignature f issuer (utf8 "polyvisor:self-profile:v0\x00") payload signature
      return ⟨subject, issuer, value.claims⟩

/-- `SignedRootBinding`: it is only made from bytes that verify, so it carries what they say. -/
structure SignedRootBinding (f : Foreign) where
  bytes : Bytes
  binding : RootBinding
  verified : verifyRootBinding f bytes = .ok binding

/-- `SignedProfile`. -/
structure SignedProfile (f : Foreign) where
  bytes : Bytes
  profile : Profile
  verified : verifyProfile f bytes = .ok profile

/-- `SignedRootBinding::from_bytes`. -/
def SignedRootBinding.fromBytes (f : Foreign) (bytes : Bytes) :
    Except String (SignedRootBinding f) :=
  match h : verifyRootBinding f bytes with
  | .ok binding => .ok ⟨bytes, binding, h⟩
  | .error e => .error e

/-- `SignedProfile::from_bytes`. -/
def SignedProfile.fromBytes (f : Foreign) (bytes : Bytes) : Except String (SignedProfile f) :=
  match h : verifyProfile f bytes with
  | .ok profile => .ok ⟨bytes, profile, h⟩
  | .error e => .error e

/-- `AuthenticatedIdentity`. -/
structure AuthenticatedIdentity (f : Foreign) where
  binding : SignedRootBinding f
  profiles : List (SignedProfile f)
  authorityDevice : Bytes32
  keyhiveAuthorityProof : Bytes

/-- `proto_authenticated_identity`. -/
def AuthenticatedIdentity.wire {f : Foreign} (value : AuthenticatedIdentity f) : IdentityWire where
  rootBinding := value.binding.bytes
  profiles := value.profiles.map SignedProfile.bytes
  authorityDevice := Bytes32.bytes value.authorityDevice
  keyhiveAuthorityProof := value.keyhiveAuthorityProof

/-- `extract_authenticated_identity`. -/
def extractAuthenticatedIdentity (f : Foreign) (value : IdentityWire) :
    Except String (AuthenticatedIdentity f) := do
  return {
    binding := ← SignedRootBinding.fromBytes f value.rootBinding
    profiles := ← value.profiles.mapM (SignedProfile.fromBytes f)
    authorityDevice := ← key32 value.authorityDevice "authority device"
    keyhiveAuthorityProof := value.keyhiveAuthorityProof }

/-- `validate_authenticated_identity`. -/
def validateAuthenticatedIdentity (f : Foreign) (value : AuthenticatedIdentity f) :
    Except String RootBinding := do
  let binding := value.binding.binding
  check (value.profiles ≠ [] ∧ value.keyhiveAuthorityProof ≠ [])
    "authenticated identity lacks profile or authority proof"
  validKey f value.authorityDevice "authority device"
  check (∀ signed ∈ value.profiles,
      signed.profile.subject = binding.root ∧ signed.profile.issuer = binding.root)
    "profile does not match its root binding"
  check (value.profiles.map SignedProfile.bytes).Nodup
    "authenticated identity repeats a profile variant"
  return binding

/-! ## Introductions -/

/-- `ClaimedTime`. -/
structure ClaimedTime where
  seconds : ℤ
  nanos : ℕ
  deriving DecidableEq

/-- `Party`. -/
structure Party where
  publicKey : Bytes32
  observations : List Claim

/-- `Introduction`. -/
structure Introduction (f : Foreign) where
  issuer : AuthenticatedIdentity f
  device : Bytes32
  authenticatedIdentities : List (AuthenticatedIdentity f)
  parties : List Party
  issuedAt : ClaimedTime

/-- `Introduction::all_identities`. -/
def Introduction.allIdentities {f : Foreign} (value : Introduction f) :
    List (AuthenticatedIdentity f) :=
  value.issuer :: value.authenticatedIdentities

/-- The root an identity is bound to. -/
def AuthenticatedIdentity.root {f : Foreign} (value : AuthenticatedIdentity f) : Bytes32 :=
  value.binding.binding.root

/-- `valid_time`. -/
def validTime (time : ClaimedTime) : Except String Unit :=
  check ((minTimestampSeconds ≤ time.seconds ∧ time.seconds ≤ maxTimestampSeconds) ∧
    time.nanos < 1000000000) "invalid introduction time"

/-- The loop of `validate_introduction` over the further identities. -/
def validateIdentities (f : Foreign) (seen : List Bytes32) :
    List (AuthenticatedIdentity f) → Except String Unit
  | [] => .ok ()
  | identity :: rest => do
    let binding ← validateAuthenticatedIdentity f identity
    check (binding.root ∉ seen) "introduction repeats an authenticated identity"
    validateIdentities f (binding.root :: seen) rest

/-- Its loop over the parties. -/
def validateParties (f : Foreign) (seen : List Bytes32) : List Party → Except String Unit
  | [] => .ok ()
  | party :: rest => do
    validKey f party.publicKey "observed party key"
    check (party.publicKey ∉ seen) "introduction repeats a party"
    validateClaims party.observations
    validateParties f (party.publicKey :: seen) rest

/-- `validate_introduction`. -/
def validateIntroduction (f : Foreign) (value : Introduction f) : Except String Unit := do
  validTime value.issuedAt
  check (value.parties.length + 1 ≤ maxParties) "introduction has too many parties"
  validKey f value.device "device signing key"
  let issuer ← validateAuthenticatedIdentity f value.issuer
  check (value.issuer.authorityDevice = value.device)
    "issuer authority device does not match introduction signer"
  validateIdentities f [issuer.root] value.authenticatedIdentities
  validateParties f [issuer.root] value.parties

/-- `VerifiedIntroduction`: `verify_introduction` and `validate_authority` accepted it. Of what they
check, the field says what `validate_introduction` does. -/
structure VerifiedIntroduction (f : Foreign) where
  introduction : Introduction f
  valid : validateIntroduction f introduction = .ok ()

/-- `SelectedIntroduction`. -/
structure SelectedIntroduction (f : Foreign) where
  verified : VerifiedIntroduction f
  roots : List Bytes32
  parties : List ℕ

/-- `VerifiedIntroduction::select`. -/
def VerifiedIntroduction.select {f : Foreign} (value : VerifiedIntroduction f)
    (identityRoots : List Bytes32) (partyIndices : List ℕ) :
    Except String (SelectedIntroduction f) := do
  check (identityRoots.Nodup ∧
      ∀ root ∈ identityRoots, root ∈ value.introduction.allIdentities.map fun i => i.root)
    "identity selection was not present in the verified introduction"
  check (partyIndices.Nodup ∧ ∀ index ∈ partyIndices, index < value.introduction.parties.length)
    "party selection was not present in the verified introduction"
  return ⟨value, identityRoots, partyIndices⟩

/-! ## The document -/

/-- The fields under `contact:<id>:`. -/
inductive ContactField where
  /-- `exists`. -/
  | present
  | petname
  | glyph
  | publicKey
  | retainedIdentity
  | other (name : Bytes)
  deriving DecidableEq

/-- The fields under `meeting:<id>:`. -/
inductive MeetingField where
  | method
  | source
  | sourceKey
  | occurred
  | verified
  deriving DecidableEq

/-- `OBS_FIELDS`. -/
inductive ObservationField where
  | name
  | value
  | provenance
  | issuer
  | claimedSeconds
  | claimedNanos
  | received
  | meeting
  | present
  deriving DecidableEq

/-- A key of the root map, by what its text spells. No id of the source holds a colon. -/
inductive Key where
  /-- `ROOT_BINDING`. -/
  | rootBinding
  /-- `SELF_PROFILE`. -/
  | selfProfile
  | contact (id : Bytes) (field : ContactField)
  | meeting (id : Bytes) (field : MeetingField)
  | observation (id discriminator : Bytes) (field : ObservationField)
  /-- `alias:<source>`. -/
  | alias (source : Bytes)
  /-- `preferred:<id>:<name>`, with the name in hex. -/
  | preferred (id name : Bytes)
  | other (name : Bytes)
  deriving DecidableEq

/-- `Document`. -/
abbrev Document := RootMap Key

/-- The id in a key `contact:<id>:exists`. -/
def Key.presentId? : Key → Option Bytes
  | .contact id .present => some id
  | _ => none

/-- `contact_ids`. -/
def contactIds (doc : Document) : List Bytes :=
  asSet ((doc.history.writes.filterMap fun w => w.key.presentId?).filter fun id =>
    doc.history.shown (.contact id .present) ≠ [])

/-- `local_id`. -/
@[irreducible]
def localId (f : Foreign) (domain : Bytes) (entropy : Bytes32) (actor : Bytes) : Bytes :=
  hex ((Bytes32.bytes (f.sha (domain ++ Bytes32.bytes entropy ++
    (BigEndian.toBytes 8 actor.length).reverse ++ actor))).take 16)

/-- `derived_entropy`. -/
def derivedEntropy (f : Foreign) (entropy : Bytes32) (index : ℕ) : Bytes32 :=
  f.sha (utf8 "polyvisor:forwarded-contact:v0\x00" ++ Bytes32.bytes entropy ++
    BigEndian.toBytes 8 index)

/-! ## The self identity -/

/-- `root_binding`. -/
def rootBinding (f : Foreign) (doc : Document) : Option (SignedRootBinding f) :=
  match allRootBytes doc .rootBinding with
  | [bytes] => (SignedRootBinding.fromBytes f bytes).toOption
  | _ => none

/-- `root_identity`. -/
def rootIdentity (f : Foreign) (doc : Document) : Option Bytes32 :=
  (rootBinding f doc).map fun binding => binding.binding.root

/-- `SelfProfile`. -/
structure SelfProfile (f : Foreign) where
  root : Bytes32
  binding : SignedRootBinding f
  variants : List (SignedProfile f)

/-- The signed profiles that a list of bytes spells. -/
def signedProfiles (f : Foreign) (values : List Bytes) : List (SignedProfile f) :=
  values.filterMap fun bytes => (SignedProfile.fromBytes f bytes).toOption

/-- `self_profile`. -/
def selfProfile (f : Foreign) (doc : Document) : Option (SelfProfile f) := do
  let root ← rootIdentity f doc
  let binding ← rootBinding f doc
  let variants := (signedProfiles f (allRootBytes doc .selfProfile)).filter fun signed =>
    signed.profile.subject = root ∧ signed.profile.issuer = root
  return ⟨root, binding, variants⟩

/-- `bind_root`. -/
def bindRoot (f : Foreign) (doc : Document) (binding : SignedRootBinding f) :
    Except String (Document × Bool) := do
  let bindings := allRootBytes doc .rootBinding
  check (bindings.length ≤ 1) "contacts root binding is conflicted"
  match bindings.head?.bind fun bytes => (SignedRootBinding.fromBytes f bytes).toOption with
  | some existing =>
    if existing.binding = binding.binding ∧ existing.bytes = binding.bytes then return (doc, false)
    else .error "the established root/group binding cannot be replaced"
  | none => return (doc.put .rootBinding (.bytes binding.bytes), true)

/-- `adopt`. -/
def adopt (f : Foreign) (current source : Document) : Except String Document :=
  match selfProfile f source with
  | none => .error "source contacts identity is not ready"
  | some _ =>
    -- the registers are emptied first, so that the merge brings the source's own operations
    .ok (((current.delete .rootBinding).delete .selfProfile).mergeSnapshot source)

/-! ## Contacts -/

/-- `RetainedAuthority`. -/
structure RetainedAuthority where
  device : Bytes32
  keyhiveAuthorityProof : Bytes
  deriving DecidableEq

/-- `RetainedIdentity`. -/
structure RetainedIdentity (f : Foreign) where
  root : Bytes32
  binding : SignedRootBinding f
  profiles : List (SignedProfile f)
  authorities : List RetainedAuthority

/-- An identity as it is stored. -/
def decodeIdentity (f : Foreign) (bytes : Bytes) : Option (AuthenticatedIdentity f) := do
  (extractAuthenticatedIdentity f (← f.decodeIdentity bytes)).toOption

/-- `retained_identity_at`. -/
def retainedIdentityAt (f : Foreign) (doc : Document) (id : Bytes) :
    Option (RetainedIdentity f) := do
  let variants ← (allRootBytes doc (.contact id .retainedIdentity)).mapM (decodeIdentity f)
  let first ← variants.head?
  -- a register whose writes disagree names nobody
  if ∃ identity ∈ variants, ¬ ((validateAuthenticatedIdentity f identity).isOk ∧
      identity.binding.binding = first.binding.binding) then none
  else
    let profiles := variants.flatMap fun identity => identity.profiles
    let authorities := variants.map fun identity =>
      RetainedAuthority.mk identity.authorityDevice identity.keyhiveAuthorityProof
    return {
      root := first.binding.binding.root
      binding := first.binding
      profiles := signedProfiles f (asSet (profiles.map SignedProfile.bytes))
      authorities := authorities.dedup.insertionSort fun a b =>
        a.device < b.device ∨ a.device = b.device ∧
          a.keyhiveAuthorityProof ≤ b.keyhiveAuthorityProof }

/-- `Contact`, without the observations and what is preferred among them. -/
structure Contact (f : Foreign) where
  id : Bytes
  publicKey : Option Bytes32
  petname : Bytes
  glyph : Bytes
  retainedIdentity : Option (RetainedIdentity f)

/-- The key a text spells, if any. -/
def storedKey (text : Option Bytes) : Option Bytes32 :=
  (text.filter fun s => s ≠ []).bind decodeHex32

/-- `contact`. -/
def contact (f : Foreign) (doc : Document) (id : Bytes) : Option (Contact f) :=
  if rootString doc (.contact id .present) ≠ some (utf8 "true") then none
  else some {
    id
    publicKey := storedKey (rootString doc (.contact id .publicKey))
    petname := (rootString doc (.contact id .petname)).getD []
    glyph := (rootString doc (.contact id .glyph)).getD []
    retainedIdentity := retainedIdentityAt f doc id }

/-- `contacts`. -/
def contacts (f : Foreign) (doc : Document) : List (Contact f) :=
  (contactIds doc).filterMap (contact f doc)

/-- `require_contact`. -/
def requireContact (f : Foreign) (doc : Document) (id : Bytes) : Except String Unit :=
  check (contact f doc id).isSome
    ("no contact with id " ++ (String.fromUTF8? ⟨id.toArray⟩).getD "")

/-- `retained_root_contact`. -/
def retainedRootContact (f : Foreign) (doc : Document) (root : Bytes32) : Option Bytes :=
  (contactIds doc).find? fun id =>
    ((retainedIdentityAt f doc id).map fun identity => identity.root) = some root

/-- `contact_with_public_key`. -/
def contactWithPublicKey (f : Foreign) (doc : Document) (key : Bytes32) : Option Bytes :=
  ((contacts f doc).find? fun c => c.publicKey = some key).map fun c => c.id

/-- The check of a contact's key, if it has one. -/
def validContactKey (f : Foreign) : Option Bytes32 → Except String Unit
  | some key => validKey f key "contact public key"
  | none => .ok ()

/-- `create_contact`. -/
def createContact (f : Foreign) (doc : Document) (publicKey : Option Bytes32)
    (petname glyph : Bytes) (entropy : Bytes32) : Except String (Document × Bytes) := do
  validContactKey f publicKey
  let id := localId f (utf8 "polyvisor:local-contact:v0\x00") entropy doc.actor
  check (¬ (contact f doc id).isSome) "contact entropy was reused"
  return (doc.putAll [
    (.contact id .present, .text (utf8 "true")),
    (.contact id .petname, .text petname),
    (.contact id .glyph, .text glyph),
    (.contact id .publicKey, .text ((publicKey.map fun k => hex (Bytes32.bytes k)).getD []))], id)

/-- `retain_identity`. -/
def retainIdentity (f : Foreign) (doc : Document) (id : Bytes)
    (identity : AuthenticatedIdentity f) : Document :=
  doc.put (.contact id .retainedIdentity) (.bytes (f.encodeIdentity identity.wire))

/-! ## Meetings and observations -/

/-- `MeetingRecord`. -/
structure MeetingRecord where
  id : Bytes
  method : Bytes
  source : Bytes
  sourceKey : Option Bytes32
  occurred : ℕ
  verified : Bool

/-- `bool::to_string`. -/
def boolText (b : Bool) : Bytes :=
  utf8 (if b then "true" else "false")

/-- `create_meeting`. -/
def createMeeting (f : Foreign) (doc : Document) (method source : Bytes)
    (sourceKey : Option Bytes32) (occurred : ℕ) (verified : Bool) (entropy : Bytes32) :
    Document × Bytes :=
  let id := localId f (utf8 "polyvisor:meeting:v0\x00") entropy doc.actor
  (doc.putAll [
    (.meeting id .method, .text method),
    (.meeting id .source, .text source),
    (.meeting id .sourceKey, .text ((sourceKey.map fun k => hex (Bytes32.bytes k)).getD [])),
    (.meeting id .occurred, .text (decimal occurred)),
    (.meeting id .verified, .text (boolText verified))], id)

/-- `meeting`. -/
def meeting (doc : Document) (id : Bytes) : Option MeetingRecord := do
  return {
    id
    method := ← rootString doc (.meeting id .method)
    source := (rootString doc (.meeting id .source)).getD []
    sourceKey := storedKey (rootString doc (.meeting id .sourceKey))
    occurred := ← parseU64 (← rootString doc (.meeting id .occurred))
    verified := rootString doc (.meeting id .verified) = some (utf8 "true") }

/-- `Provenance`. -/
inductive Provenance where
  | local
  | imported
  | verified
  deriving DecidableEq

/-- The `Debug` text of a provenance. -/
def Provenance.text : Provenance → Bytes
  | .local => utf8 "Local"
  | .imported => utf8 "Imported"
  | .verified => utf8 "Verified"

/-- `Observation`. -/
structure Observation where
  name : Bytes
  value : Bytes
  provenance : Provenance
  issuer : Option Bytes32
  claimed : Option ClaimedTime
  received : ℕ
  meeting : Bytes

/-- `observation_discriminator`. -/
def observationDiscriminator (f : Foreign) (o : Observation) : Bytes :=
  let fields := [(o.issuer.map Bytes32.bytes).getD [], o.name, o.value, o.meeting]
  hex ((Bytes32.bytes (f.sha (utf8 "polyvisor:observation:v0\x00" ++
    fields.flatMap fun field => BigEndian.toBytes 8 field.length ++ field))).take 16)

/-- `observation_fields`. -/
def observationFields (o : Observation) : List (ObservationField × Bytes) :=
  [(.name, o.name), (.value, o.value), (.provenance, o.provenance.text),
    (.issuer, (o.issuer.map fun k => hex (Bytes32.bytes k)).getD []),
    (.claimedSeconds, (o.claimed.map fun t => utf8 (toString t.seconds)).getD []),
    (.claimedNanos, (o.claimed.map fun t => decimal t.nanos).getD []),
    (.received, decimal o.received), (.meeting, o.meeting), (.present, utf8 "true")]

/-- What an observation may claim beside the meeting it is from. -/
def validProvenance (record : MeetingRecord) (o : Observation) : Except String Unit :=
  match o.provenance with
  | .verified =>
    check ((o.issuer.isSome ∧ o.claimed.isSome) ∧ record.verified ∧ record.sourceKey = o.issuer)
      "verified observation lacks verified provenance"
  | _ =>
    check (o.issuer.isNone ∧ o.claimed.isNone)
      "local/imported observation cannot claim authentication"

/-- `write_observation`. -/
def writeObservation (f : Foreign) (doc : Document) (id : Bytes) (o : Observation) :
    Except String Document := do
  requireContact f doc id
  validateClaims [⟨o.name, o.value⟩]
  match meeting doc o.meeting with
  | none => .error "observation has no meeting"
  | some record =>
    validProvenance record o
    let discriminator := observationDiscriminator f o
    return doc.putAll ((observationFields o).map fun field =>
      (.observation id discriminator field.1, .text field.2))

/-! ## Keeping an introduction -/

/-- The bindings of one root's register that verify, as `ensure_unique_root_group` reads them. -/
def selfBindings (f : Foreign) (doc : Document) : List RootBinding :=
  (allRootBytes doc .rootBinding).filterMap fun bytes =>
    (SignedRootBinding.fromBytes f bytes).toOption.map fun signed => signed.binding

/-- The bindings of what a contact retains. -/
def retainedBindings (f : Foreign) (doc : Document) (id : Bytes) : List RootBinding :=
  (allRootBytes doc (.contact id .retainedIdentity)).filterMap fun bytes =>
    (decodeIdentity f bytes).map fun identity => identity.binding.binding

/-- `ensure_unique_root_group`. -/
def ensureUniqueRootGroup (f : Foreign) (doc : Document) (identity : AuthenticatedIdentity f) :
    Except String Unit := do
  let candidate := identity.binding.binding
  let own := (selfBindings f doc).filter fun binding => binding.root = candidate.root
  check (¬ (1 < (allRootBytes doc .rootBinding).length ∧ own ≠ []))
    "self root binding is conflicted"
  let retained := ((contactIds doc).flatMap (retainedBindings f doc)).filter fun binding =>
    binding.root = candidate.root
  check (∀ binding ∈ own ++ retained, binding.group = candidate.group)
    "that root is already accepted for another group"

def ensureAll (f : Foreign) (doc : Document) : List (AuthenticatedIdentity f) → Except String Unit
  | [] => .ok ()
  | identity :: rest => do
    ensureUniqueRootGroup f doc identity
    ensureAll f doc rest

/-- The labels and the random input of a kept introduction. -/
structure Labels where
  petname : Bytes
  glyph : Bytes
  entropy : Bytes32
  received : ℕ

/-- The contact an identity is retained at: one that retains its root, one that has it as its key,
or a new one. -/
def identityContact (f : Foreign) (labels : Labels) (issuerRoot : Bytes32) (doc : Document)
    (index : ℕ) (root : Bytes32) : Except String (Document × Bytes) :=
  match (retainedRootContact f doc root).or (contactWithPublicKey f doc root) with
  | some id => .ok (doc, id)
  | none =>
    createContact f doc (some root) (if root = issuerRoot then labels.petname else [])
      (if root = issuerRoot then labels.glyph else [])
      (derivedEntropy f labels.entropy (index + 1))

/-- The loop of `persist_verified_introduction` over the identities, from number `index` on. The
last argument is the contact affected first. -/
def retainAll (f : Foreign) (labels : Labels) (issuerRoot : Bytes32) :
    ℕ → List (AuthenticatedIdentity f) → Document → Option Bytes →
      Except String (Document × Option Bytes)
  | _, [], doc, affected => .ok (doc, affected)
  | index, identity :: rest, doc, affected => do
    let (doc, id) ← identityContact f labels issuerRoot doc index identity.root
    retainAll f labels issuerRoot (index + 1) rest (retainIdentity f doc id identity)
      (affected.or (some id))

/-- The contact of a party. -/
def partyContact (f : Foreign) (labels : Labels) (doc : Document) (index : ℕ) (key : Bytes32) :
    Except String (Document × Bytes) :=
  match contactWithPublicKey f doc key with
  | some id => .ok (doc, id)
  | none =>
    createContact f doc (some key) [] [] (derivedEntropy f labels.entropy (index + 1 + maxParties))

/-- What the issuer observed about a party. -/
def observeAll (f : Foreign) (labels : Labels) (issuerRoot : Bytes32) (issuedAt : ClaimedTime)
    (id meeting : Bytes) : List Claim → Document → Except String Document
  | [], doc => .ok doc
  | claim :: rest, doc => do
    let doc ← writeObservation f doc id {
      name := claim.name, value := claim.value, provenance := .verified, issuer := some issuerRoot,
      claimed := some issuedAt, received := labels.received, meeting }
    observeAll f labels issuerRoot issuedAt id meeting rest doc

/-- The loop of `persist_verified_introduction` over the parties, from number `index` on. -/
def introduceAll (f : Foreign) (labels : Labels) (issuerRoot : Bytes32) (issuedAt : ClaimedTime)
    (selected : List ℕ) : ℕ → List Party → Document → Option Bytes →
      Except String (Document × Option Bytes)
  | _, [], doc, affected => .ok (doc, affected)
  | index, party :: rest, doc, affected =>
    if index ∈ selected then do
      let (doc, id) ← partyContact f labels doc index party.publicKey
      let (doc, meeting) := createMeeting f doc (utf8 "verified introduction") []
        (some issuerRoot) labels.received true
        (derivedEntropy f labels.entropy (index + 1 + maxParties * 2))
      let doc ← observeAll f labels issuerRoot issuedAt id meeting party.observations doc
      introduceAll f labels issuerRoot issuedAt selected (index + 1) rest doc
        (affected.or (some id))
    else introduceAll f labels issuerRoot issuedAt selected (index + 1) rest doc affected

/-- The identities a selection keeps. -/
def SelectedIntroduction.identities {f : Foreign} (selected : SelectedIntroduction f) :
    List (AuthenticatedIdentity f) :=
  selected.verified.introduction.allIdentities.filter fun identity =>
    identity.root ∈ selected.roots

/-- `persist_verified_introduction`. -/
def persistVerifiedIntroduction (f : Foreign) (doc : Document) (selected : SelectedIntroduction f)
    (labels : Labels) : Except String (Document × Bytes) := do
  let intro := selected.verified.introduction
  check (¬ (selected.identities = [] ∧ selected.parties = [])) "introduction selection is empty"
  ensureAll f doc selected.identities
  let issuerRoot := intro.issuer.root
  let (doc, affected) ← retainAll f labels issuerRoot 0 selected.identities doc none
  let (doc, affected) ←
    introduceAll f labels issuerRoot intro.issuedAt selected.parties 0 intro.parties doc affected
  match affected with
  | some id => return (doc, id)
  | none => .error "introduction selection is empty"

/-! ## What the document's operations leave -/

/-- A passed check says its condition, and a failed one ends the block. -/
theorem of_check {E T : Type} {condition : Prop} [Decidable condition] {error : E}
    {rest : Except E T} {out : T}
    (h : (check condition error >>= fun _ => rest) = .ok out) : condition ∧ rest = .ok out := by
  by_cases hcond : condition
  · rw [check, if_pos hcond] at h
    exact ⟨hcond, h⟩
  · rw [check, if_neg hcond] at h
    exact nomatch h

/-- A block that goes on had a first result. -/
theorem of_bind {E S T : Type} {first : Except E S} {rest : S → Except E T} {out : T}
    (h : (first >>= rest) = .ok out) : ∃ s, first = .ok s ∧ rest s = .ok out := by
  rcases first with e | s
  · exact nomatch h
  · exact ⟨s, rfl, h⟩

theorem check_eq_ok {E : Type} {condition : Prop} [Decidable condition] {error : E} :
    check condition error = .ok () ↔ condition := by
  by_cases hcond : condition <;> simp [check, hcond]

/-- A contact is listed iff its register `exists` holds anything. -/
theorem mem_contactIds {doc : Document} {id : Bytes} :
    id ∈ contactIds doc ↔ ∃ value, value ∈ doc.history.values (.contact id .present) := by
  rw [contactIds, mem_asSet, List.mem_filter, List.mem_filterMap, decide_eq_true_iff]
  constructor
  · rintro ⟨-, hshown⟩
    obtain ⟨w, hw⟩ := List.exists_mem_of_ne_nil _ hshown
    obtain ⟨value, hvalue⟩ := Option.isSome_iff_exists.1 (Multivalue.History.mem_shown.1 hw).2.2.1
    exact ⟨value, Multivalue.History.mem_values.2 ⟨w, hw, hvalue⟩⟩
  · rintro ⟨value, hvalue⟩
    obtain ⟨w, hw, -⟩ := Multivalue.History.mem_values.1 hvalue
    obtain ⟨hmem, hkey, -⟩ := Multivalue.History.mem_shown.1 hw
    exact ⟨⟨w, hmem, by rw [hkey]; rfl⟩, List.ne_nil_of_mem hw⟩

/-! ## What an identity says once it is stored -/

variable {f : Foreign}

theorem fromBytes_bytes (signed : SignedRootBinding f) :
    SignedRootBinding.fromBytes f signed.bytes = .ok signed := by
  rw [SignedRootBinding.fromBytes]
  split
  · next binding h =>
    obtain rfl := Except.ok.inj (signed.verified.symm.trans h)
    rfl
  · next e h => exact nomatch signed.verified.symm.trans h

theorem profile_fromBytes_bytes (signed : SignedProfile f) :
    SignedProfile.fromBytes f signed.bytes = .ok signed := by
  rw [SignedProfile.fromBytes]
  split
  · next profile h =>
    obtain rfl := Except.ok.inj (signed.verified.symm.trans h)
    rfl
  · next e h => exact nomatch signed.verified.symm.trans h

theorem mapM_profiles (profiles : List (SignedProfile f)) :
    (profiles.map SignedProfile.bytes).mapM (SignedProfile.fromBytes f) = .ok profiles := by
  induction profiles with
  | nil => rfl
  | cons signed rest ih =>
    rw [List.map_cons, List.mapM_cons, profile_fromBytes_bytes, ih]
    rfl

theorem key32_bytes (key : Bytes32) (what : String) : key32 (Bytes32.bytes key) what = .ok key := by
  have hfits : key.toNat < 256 ^ 32 := lt_of_lt_of_eq key.isLt (by decide)
  rw [key32, Bytes32.bytes, if_pos (BigEndian.length_toBytes 32 _),
    BigEndian.ofBytes_toBytes_of_lt hfits, BitVec.ofNat_toNat, BitVec.setWidth_eq]

/-- What is stored is read back as it was. -/
theorem decodeIdentity_encode (hlaw : f.Lawful) (identity : AuthenticatedIdentity f) :
    decodeIdentity f (f.encodeIdentity identity.wire) = some identity := by
  have hextract : extractAuthenticatedIdentity f identity.wire = .ok identity := by
    rw [extractAuthenticatedIdentity, AuthenticatedIdentity.wire]
    dsimp only
    rw [fromBytes_bytes, mapM_profiles, key32_bytes]
    rfl
  rw [decodeIdentity, hlaw]
  show (extractAuthenticatedIdentity f identity.wire).toOption = _
  rw [hextract]
  rfl

/-! ## Root bindings -/

/-- A binding that the document holds: its own, or that of what a contact retains. -/
def Holds (f : Foreign) (doc : Document) (binding : RootBinding) : Prop :=
  binding ∈ selfBindings f doc ∨ ∃ id ∈ contactIds doc, binding ∈ retainedBindings f doc id

/-- Two bindings that name the same root name the same group. -/
def RootBinding.Agrees (a b : RootBinding) : Prop :=
  a.root = b.root → a.group = b.group

/-- All bindings that the document holds agree. -/
def OneGroup (f : Foreign) (doc : Document) : Prop :=
  ∀ a b, Holds f doc a → Holds f doc b → a.Agrees b

theorem RootBinding.Agrees.symm {a b : RootBinding} (h : a.Agrees b) : b.Agrees a :=
  fun hroot => (h hroot.symm).symm

theorem mem_selfBindings {doc : Document} {binding : RootBinding} :
    binding ∈ selfBindings f doc ↔ ∃ bytes, .bytes bytes ∈ doc.history.values .rootBinding ∧
      ((SignedRootBinding.fromBytes f bytes).toOption.map fun signed => signed.binding) =
        some binding := by
  simp only [selfBindings, List.mem_filterMap, mem_allRootBytes]

theorem mem_retainedBindings {doc : Document} {id : Bytes} {binding : RootBinding} :
    binding ∈ retainedBindings f doc id ↔
      ∃ bytes, .bytes bytes ∈ doc.history.values (.contact id .retainedIdentity) ∧
        ((decodeIdentity f bytes).map fun identity => identity.binding.binding) =
          some binding := by
  simp only [retainedBindings, List.mem_filterMap, mem_allRootBytes]

/-- A change of the document that may list one more contact and changes no binding. -/
structure Lists (f : Foreign) (doc doc' : Document) (created : Option Bytes) : Prop where
  actor : doc'.actor = doc.actor
  own : ∀ binding, binding ∈ selfBindings f doc' ↔ binding ∈ selfBindings f doc
  retained : ∀ id binding,
    binding ∈ retainedBindings f doc' id ↔ binding ∈ retainedBindings f doc id
  listed : ∀ id, id ∈ contactIds doc' ↔ id ∈ contactIds doc ∨ created = some id

/-- Writes to keys of contacts' other fields, of meetings and of observations. -/
theorem lists_putAll {doc : Document} {fields : List (Key × Value)}
    (hown : ∀ field ∈ fields, Key.rootBinding ≠ field.1)
    (hretained : ∀ id, ∀ field ∈ fields, Key.contact id .retainedIdentity ≠ field.1)
    (hlisted : ∀ id, ∀ field ∈ fields, Key.contact id .present ≠ field.1) :
    Lists f doc (doc.putAll fields) none where
  actor := doc.putAll_actor fields
  own _ := by simp only [mem_selfBindings, RootMap.mem_values_putAll_of_not_mem hown]
  retained id _ := by
    simp only [mem_retainedBindings, RootMap.mem_values_putAll_of_not_mem (hretained id)]
  listed id := by
    simp only [mem_contactIds, RootMap.mem_values_putAll_of_not_mem (hlisted id), reduceCtorEq,
      or_false]

namespace Lists

variable {doc doc' doc'' : Document} {created : Option Bytes}

theorem refl (f : Foreign) (doc : Document) : Lists f doc doc none :=
  ⟨rfl, fun _ => Iff.rfl, fun _ _ => Iff.rfl, fun _ => by simp⟩

theorem trans (h : Lists f doc doc' created) (h' : Lists f doc' doc'' none) :
    Lists f doc doc'' created where
  actor := h'.actor.trans h.actor
  own binding := (h'.own binding).trans (h.own binding)
  retained id binding := (h'.retained id binding).trans (h.retained id binding)
  listed id := by
    rw [h'.listed, h.listed]
    simp

/-- It holds what it held, and what its new contact had retained before it was listed. -/
theorem of_holds (h : Lists f doc doc' created) {binding : RootBinding}
    (hholds : Holds f doc' binding) :
    Holds f doc binding ∨
      ∃ id, created = some id ∧ id ∉ contactIds doc ∧ binding ∈ retainedBindings f doc id := by
  rcases hholds with hown | ⟨id, hid, hmem⟩
  · exact .inl (.inl ((h.own binding).1 hown))
  · have hbefore := (h.retained id binding).1 hmem
    by_cases hlisted : id ∈ contactIds doc
    · exact .inl (.inr ⟨id, hlisted, hbefore⟩)
    · exact .inr ⟨id, ((h.listed id).1 hid).resolve_left hlisted, hlisted, hbefore⟩

end Lists

/-- The first write of a new contact lists it. -/
theorem lists_putPresent (f : Foreign) (doc : Document) (id : Bytes) (value : Value) :
    Lists f doc (doc.put (.contact id .present) value) (some id) := by
  refine ⟨RootMap.put_actor .., fun _ => ?_, fun other _ => ?_, fun other => ?_⟩
  · have hne : Key.rootBinding ≠ .contact id .present := by simp
    simp only [mem_selfBindings, RootMap.mem_values_put_of_ne hne]
  · have hne : Key.contact other .retainedIdentity ≠ .contact id .present := by simp
    simp only [mem_retainedBindings, RootMap.mem_values_put_of_ne hne]
  · rw [mem_contactIds, mem_contactIds]
    by_cases hsame : other = id
    · subst hsame
      simp [RootMap.mem_values_put]
    · have hne : Key.contact other .present ≠ .contact id .present := by simpa using hsame
      simp [RootMap.mem_values_put_of_ne hne, Ne.symm hsame]

/-- The fields of a new contact list it and change no binding. -/
theorem lists_newContact (f : Foreign) (doc : Document) (id present petname glyph key : Bytes) :
    Lists f doc (doc.putAll [(.contact id .present, .text present),
      (.contact id .petname, .text petname), (.contact id .glyph, .text glyph),
      (.contact id .publicKey, .text key)]) (some id) :=
  (lists_putPresent f doc id (.text present)).trans
    (lists_putAll (by simp) (by simp) (by simp))

/-- `create_contact` lists the contact it draws and changes no binding. -/
theorem lists_createContact {doc doc' : Document} {publicKey : Option Bytes32}
    {petname glyph : Bytes} {entropy : Bytes32} {id : Bytes}
    (h : createContact f doc publicKey petname glyph entropy = .ok (doc', id)) :
    id = localId f (utf8 "polyvisor:local-contact:v0\x00") entropy doc.actor ∧
      Lists f doc doc' (some id) := by
  rw [createContact] at h
  obtain ⟨-, -, h⟩ := of_bind h
  obtain ⟨-, h⟩ := of_check h
  obtain ⟨rfl, rfl⟩ := Prod.mk.inj (Except.ok.inj h)
  exact ⟨rfl, lists_newContact ..⟩

/-- The fields of a meeting list no contact. -/
theorem lists_newMeeting (f : Foreign) (doc : Document)
    (id method source sourceKey occurred verified : Bytes) :
    Lists f doc (doc.putAll [(.meeting id .method, .text method),
      (.meeting id .source, .text source), (.meeting id .sourceKey, .text sourceKey),
      (.meeting id .occurred, .text occurred), (.meeting id .verified, .text verified)]) none :=
  lists_putAll (by simp) (by simp) (by simp)

theorem lists_createMeeting (f : Foreign) (doc : Document) (method source : Bytes)
    (sourceKey : Option Bytes32) (occurred : ℕ) (verified : Bool) (entropy : Bytes32) :
    Lists f doc (createMeeting f doc method source sourceKey occurred verified entropy).1 none := by
  unfold createMeeting
  dsimp only
  exact lists_newMeeting ..

theorem lists_writeObservation {doc doc' : Document} {id : Bytes} {o : Observation}
    (h : writeObservation f doc id o = .ok doc') : Lists f doc doc' none := by
  rw [writeObservation] at h
  obtain ⟨-, -, h⟩ := of_bind h
  obtain ⟨-, -, h⟩ := of_bind h
  have hwrites : Lists f doc (doc.putAll ((observationFields o).map fun field =>
      (.observation id (observationDiscriminator f o) field.1, .text field.2))) none :=
    lists_putAll (List.forall_mem_map.2 fun _ _ => nofun)
      (fun _ => List.forall_mem_map.2 fun _ _ => nofun)
      (fun _ => List.forall_mem_map.2 fun _ _ => nofun)
  dsimp only at h
  rcases hmeeting : meeting doc o.meeting with _ | record
  · rw [hmeeting] at h
    exact nomatch h
  · rw [hmeeting] at h
    obtain ⟨-, -, h⟩ := of_bind h
    obtain rfl := Except.ok.inj h
    exact hwrites

theorem lists_observeAll {labels : Labels} {issuerRoot : Bytes32} {issuedAt : ClaimedTime}
    {id meeting : Bytes} {claims : List Claim} {doc doc' : Document}
    (h : observeAll f labels issuerRoot issuedAt id meeting claims doc = .ok doc') :
    Lists f doc doc' none := by
  induction claims generalizing doc with
  | nil =>
    obtain rfl := Except.ok.inj h
    exact .refl f doc
  | cons claim rest ih =>
    rw [observeAll] at h
    obtain ⟨next, hnext, h⟩ := of_bind h
    exact (lists_writeObservation hnext).trans (ih h)

end Polyvisor.Contacts
