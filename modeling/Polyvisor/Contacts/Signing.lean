import Polyvisor.Contacts.Wire
import Polyvisor.Lib.Course

/-!
# Signed introductions

`sign_introduction` and `verify_introduction` of `contacts-model/src/lib.rs`.
Signing makes a `SignedRootBinding` and a `SignedProfile` of bytes that nothing has verified, so
that here both are just bytes. The wire is that of `Wire`; what comes from `ed25519_dalek` is
`Crypto`.

## Main results

* `validateIntroduction_iff`: what `validate_introduction` accepts.
* `introductions_round_trip`: what is signed verifies, and what verifies can be signed.
-/

namespace Polyvisor.Contacts.Signing

open Wire

/-! ## Keys -/

/-- What comes from `ed25519_dalek`, where a signing key is its seed, and from `sha2`. -/
structure Crypto where
  sha : Sha256
  keyKind : Bytes32 → KeyKind
  /-- `Signature::from_slice` and `verify_strict`. -/
  verifyStrict : Bytes32 → Bytes → Bytes → Except String Unit
  verifyingKey : Bytes32 → Bytes32
  sign : Bytes32 → Bytes → Bytes

/-- A verifying key is valid and no weak one, what its signing key signs verifies, and a signature
has 64 bytes. -/
structure Crypto.Lawful (c : Crypto) : Prop where
  valid : ∀ key, c.keyKind (c.verifyingKey key) = .valid
  verifies : ∀ key message,
    c.verifyStrict (c.verifyingKey key) message (c.sign key message) = .ok ()
  length_sign : ∀ key message, (c.sign key message).length = 64
  length_of_verifies : ∀ key message signature,
    c.verifyStrict key message signature = .ok () → signature.length = 64

/-- A key signs with its own bytes and those of what it signs, cut to 32. -/
def exampleSign (key : Bytes32) (message : Bytes) : Bytes :=
  Bytes32.bytes key ++ Bytes32.bytes (BitVec.ofNat 256 (BigEndian.ofBytes message))

def exampleCrypto : Crypto where
  sha _ := 0
  keyKind _ := .valid
  verifyStrict key message signature :=
    check (signature = exampleSign key message) "signature does not verify"
  verifyingKey key := key
  sign := exampleSign

theorem length_exampleSign (key : Bytes32) (message : Bytes) :
    (exampleSign key message).length = 64 := by
  rw [exampleSign, List.length_append, Bytes32.bytes, Bytes32.bytes, BigEndian.length_toBytes,
    BigEndian.length_toBytes]

theorem exampleCrypto_verifyStrict {key : Bytes32} {message signature : Bytes} :
    exampleCrypto.verifyStrict key message signature = .ok () ↔
      signature = exampleSign key message := by
  simp only [exampleCrypto, check_eq_ok]

theorem exampleCrypto_lawful : exampleCrypto.Lawful where
  valid _ := rfl
  verifies _ _ := exampleCrypto_verifyStrict.2 rfl
  length_sign := length_exampleSign
  length_of_verifies key message signature h := by
    rw [exampleCrypto_verifyStrict.1 h]
    exact length_exampleSign key message

/-- The crate's dependencies: the cryptography, and `prost`. -/
def Crypto.foreign (c : Crypto) : Foreign where
  sha := c.sha
  keyKind := c.keyKind
  verifyStrict := c.verifyStrict
  decodeSigned bytes := (signed.decode recursionLimit bytes).map fun m => (m.payload, m.signature)
  decodeRootBinding bytes := Wire.rootBinding.decode recursionLimit bytes
  decodeProfile bytes := (profile.decode recursionLimit bytes).map fun m =>
    ⟨m.version, m.subjectRoot, m.issuerRoot, m.claims.map TextClaim.claim⟩
  encodeIdentity wire := identity.encode wire
  decodeIdentity bytes := identity.decode recursionLimit bytes

/-! ## Introductions -/

/-- `AuthenticatedIdentity`. -/
structure Identity where
  binding : Bytes
  profiles : List Bytes
  authorityDevice : Bytes32
  keyhiveAuthorityProof : Bytes

/-- `Party`. -/
structure Party where
  publicKey : Bytes32
  observations : List TextClaim

/-- `Introduction`. -/
structure Introduction where
  issuer : Identity
  device : Bytes32
  authenticatedIdentities : List Identity
  parties : List Party
  issuedAt : ClaimedTime

/-- `AuthorityRequest`. -/
structure AuthorityRequest where
  root : Bytes32
  group : Bytes32
  device : Bytes32
  keyhiveAuthorityProof : Bytes

/-- `PendingIntroduction`. -/
structure PendingIntroduction where
  introduction : Introduction
  requests : List AuthorityRequest

/-- `Introduction::all_identities`. -/
def Introduction.allIdentities (value : Introduction) : List Identity :=
  value.issuer :: value.authenticatedIdentities

section Validation

variable (f : Foreign)

/-- The loop of `validate_authenticated_identity`. -/
def validateProfiles (root : Bytes32) (seen : List Bytes) : List Bytes → Except String Unit
  | [] => .ok ()
  | signed :: rest => do
    let profile ← verifyProfile f signed
    check (profile.subject = root ∧ profile.issuer = root) "profile does not match its root binding"
    check (signed ∉ seen) "authenticated identity repeats a profile variant"
    validateProfiles root (signed :: seen) rest

/-- `validate_authenticated_identity`. -/
def validateAuthenticatedIdentity (value : Identity) : Except String RootBinding := do
  let binding ← verifyRootBinding f value.binding
  check (value.profiles ≠ [] ∧ value.keyhiveAuthorityProof ≠ [])
    "authenticated identity lacks profile or authority proof"
  validKey f value.authorityDevice "authority device"
  validateProfiles f binding.root [] value.profiles
  return binding

/-- The loop of `validate_introduction` over the further identities. -/
def validateIdentities (seen : List Bytes32) : List Identity → Except String Unit
  | [] => .ok ()
  | identity :: rest => do
    let binding ← validateAuthenticatedIdentity f identity
    check (binding.root ∉ seen) "introduction repeats an authenticated identity"
    validateIdentities (binding.root :: seen) rest

/-- Its loop over the parties. -/
def validateParties (seen : List Bytes32) : List Party → Except String Unit
  | [] => .ok ()
  | party :: rest => do
    validKey f party.publicKey "observed party key"
    check (party.publicKey ∉ seen) "introduction repeats a party"
    validateClaims (party.observations.map TextClaim.claim)
    validateParties (party.publicKey :: seen) rest

/-- `validate_introduction`. -/
def validateIntroduction (value : Introduction) : Except String Unit := do
  validTime value.issuedAt
  check (value.parties.length + 1 ≤ maxParties) "introduction has too many parties"
  validKey f value.device "device signing key"
  let issuer ← validateAuthenticatedIdentity f value.issuer
  check (value.issuer.authorityDevice = value.device)
    "issuer authority device does not match introduction signer"
  validateIdentities f [issuer.root] value.authenticatedIdentities
  validateParties f [issuer.root] value.parties

/-- `authority_request`. -/
def authorityRequest (value : Identity) : Except String AuthorityRequest := do
  let binding ← validateAuthenticatedIdentity f value
  return ⟨binding.root, binding.group, value.authorityDevice, value.keyhiveAuthorityProof⟩

end Validation

/-! ### On the wire -/

/-- `proto_authenticated_identity`. -/
def Identity.message (value : Identity) : IdentityWire where
  rootBinding := value.binding
  profiles := value.profiles
  authorityDevice := Bytes32.bytes value.authorityDevice
  keyhiveAuthorityProof := value.keyhiveAuthorityProof

def Party.message (value : Party) : PartyMessage where
  publicKey := Bytes32.bytes value.publicKey
  claims := value.observations

/-- `protobuf_introduction`. -/
def Introduction.message (value : Introduction) : IntroductionMessage where
  version := version
  issuer := some value.issuer.message
  deviceSigningKey := Bytes32.bytes value.device
  authenticatedIdentities := value.authenticatedIdentities.map Identity.message
  parties := value.parties.map Party.message
  issuedAt := some ⟨value.issuedAt.seconds, asI32 value.issuedAt.nanos⟩

/-- `extract_authenticated_identity`. -/
def extractIdentity (f : Foreign) (value : IdentityWire) : Except String Identity := do
  -- `SignedRootBinding::from_bytes` and `SignedProfile::from_bytes` keep the bytes
  let _ ← verifyRootBinding f value.rootBinding
  let _ ← value.profiles.mapM (verifyProfile f)
  let device ← key32 value.authorityDevice "authority device"
  return ⟨value.rootBinding, value.profiles, device, value.keyhiveAuthorityProof⟩

def extractParty (value : PartyMessage) : Except String Party := do
  let key ← key32 value.publicKey "observed party key"
  validateClaims (value.claims.map TextClaim.claim)
  return ⟨key, value.claims⟩

/-- The time in `extract_introduction`. -/
def extractTime : Option Timestamp → Except String ClaimedTime
  | none => .error "introduction has no issued time"
  | some time => do
    check (0 ≤ time.nanos) "invalid introduction time"
    validTime ⟨time.seconds, time.nanos.toNat⟩
    return ⟨time.seconds, time.nanos.toNat⟩

/-- The issuer in `extract_introduction`. -/
def extractIssuer (f : Foreign) : Option IdentityWire → Except String Identity
  | none => .error "introduction has no issuer"
  | some issuer => extractIdentity f issuer

/-- `extract_introduction`. -/
def extractIntroduction (f : Foreign) (value : IntroductionMessage) :
    Except String Introduction := do
  requireVersion value.version "introduction"
  let issuedAt ← extractTime value.issuedAt
  let issuer ← extractIssuer f value.issuer
  let device ← key32 value.deviceSigningKey "device signing key"
  let authenticatedIdentities ← value.authenticatedIdentities.mapM (extractIdentity f)
  let parties ← value.parties.mapM extractParty
  return { issuer, device, authenticatedIdentities, parties, issuedAt }

/-! ### Signed and verified -/

/-- `INTRODUCTION_DOMAIN`. -/
def introductionDomain : Bytes := utf8 "polyvisor:introduction:v0\x00"

/-- `sign_introduction`. -/
def signIntroduction (c : Crypto) (value : Introduction) (device : Bytes32) :
    Except String Bytes := do
  validateIntroduction c.foreign value
  check (value.device = c.verifyingKey device) "introduction device key does not match signer"
  let payload := introduction.encode value.message
  let envelope := signed.encode ⟨payload, c.sign device (introductionDomain ++ payload)⟩
  bounded envelope
  return envelope

/-- What `verify_introduction` makes of an envelope. -/
def openEnvelope (c : Crypto) (envelope : Wire.Signed) : Except String PendingIntroduction :=
  match introduction.decode recursionLimit envelope.payload with
  | none => .error "invalid introduction payload"
  | some wire => do
    let introduction ← extractIntroduction c.foreign wire
    validateIntroduction c.foreign introduction
    verifySignature c.foreign introduction.device introductionDomain envelope.payload
      envelope.signature
    let requests ← introduction.allIdentities.mapM (authorityRequest c.foreign)
    return { introduction, requests }

/-- `verify_introduction`. -/
def verifyIntroduction (c : Crypto) (bytes : Bytes) : Except String PendingIntroduction := do
  bounded bytes
  match signed.decode recursionLimit bytes with
  | none => .error "invalid introduction envelope"
  | some envelope => openEnvelope c envelope


/-! ## What is validated -/

/-- An identity whose parts verify and belong together. -/
structure Identity.Valid (f : Foreign) (value : Identity) (binding : RootBinding) : Prop where
  verified : verifyRootBinding f value.binding = .ok binding
  profiles_ne_nil : value.profiles ≠ []
  proof_ne_nil : value.keyhiveAuthorityProof ≠ []
  authorityDevice : f.keyKind value.authorityDevice = .valid
  /-- Every profile verifies, and its subject and its issuer are the root of the binding. -/
  profiles : ∀ signed ∈ value.profiles, ∃ profile, verifyProfile f signed = .ok profile ∧
    profile.subject = binding.root ∧ profile.issuer = binding.root
  nodup : value.profiles.Nodup

variable {f : Foreign}

theorem validKey_eq_ok {key : Bytes32} {what : String} :
    validKey f key what = .ok () ↔ f.keyKind key = .valid := by
  rw [validKey]
  rcases hkind : f.keyKind key with _ | _ | _
  · simp
  · simp
  · simp

theorem unit_bind_eq_ok {first : Except String Unit} {α : Type} {rest : Except String α}
    {out : α} :
    (first >>= fun _ => rest) = .ok out ↔ first = .ok () ∧ rest = .ok out := by
  rw [except_bind_eq_ok]
  constructor
  · rintro ⟨⟨⟩, hfirst, hrest⟩
    exact ⟨hfirst, hrest⟩
  · rintro ⟨hfirst, hrest⟩
    exact ⟨(), hfirst, hrest⟩

theorem validateProfiles_eq_ok {root : Bytes32} {seen profiles : List Bytes} :
    validateProfiles f root seen profiles = .ok () ↔
      (∀ signed ∈ profiles, ∃ profile, verifyProfile f signed = .ok profile ∧
        profile.subject = root ∧ profile.issuer = root) ∧
      profiles.Nodup ∧ ∀ signed ∈ profiles, signed ∉ seen := by
  induction profiles generalizing seen with
  | nil => simp [validateProfiles]
  | cons signed rest ih =>
    rw [validateProfiles, except_bind_eq_ok]
    simp only [unit_bind_eq_ok, check_eq_ok, ih, List.forall_mem_cons, List.nodup_cons]
    simp only [List.mem_cons, not_or]
    constructor
    · rintro ⟨profile, hprofile, hroot, hseen, hrest, hnodup, hnew⟩
      exact ⟨⟨⟨profile, hprofile, hroot⟩, hrest⟩,
        ⟨fun hmem => (hnew signed hmem).1 rfl, hnodup⟩, hseen, fun s hs => (hnew s hs).2⟩
    · rintro ⟨⟨⟨profile, hprofile, hroot⟩, hrest⟩, ⟨hmem, hnodup⟩, hseen, hnew⟩
      refine ⟨profile, hprofile, hroot, hseen, hrest, hnodup, fun s hs => ⟨?_, hnew s hs⟩⟩
      rintro rfl
      exact hmem hs

theorem validateAuthenticatedIdentity_eq_ok {value : Identity} {binding : RootBinding} :
    validateAuthenticatedIdentity f value = .ok binding ↔ value.Valid f binding := by
  rw [validateAuthenticatedIdentity, except_bind_eq_ok]
  simp only [unit_bind_eq_ok, check_eq_ok, validKey_eq_ok, validateProfiles_eq_ok]
  constructor
  · rintro ⟨b, hbinding, ⟨hprofiles, hproof⟩, hdevice, ⟨hverified, hnodup, -⟩, heq⟩
    obtain rfl := Except.ok.inj heq
    exact ⟨hbinding, hprofiles, hproof, hdevice, hverified, hnodup⟩
  · rintro ⟨hbinding, hprofiles, hproof, hdevice, hverified, hnodup⟩
    exact ⟨binding, hbinding, ⟨hprofiles, hproof⟩, hdevice,
      ⟨hverified, hnodup, fun _ _ => List.not_mem_nil⟩, rfl⟩

theorem identity_bind_eq_ok {value : Identity} {α : Type} {rest : RootBinding → Except String α}
    {out : α} : (validateAuthenticatedIdentity f value >>= rest) = .ok out ↔
      ∃ binding, value.Valid f binding ∧ rest binding = .ok out := by
  rw [except_bind_eq_ok]
  simp only [validateAuthenticatedIdentity_eq_ok]

/-- The identities are valid, and each has a root of its own. -/
theorem validateIdentities_eq_ok {seen : List Bytes32} {identities : List Identity} :
    validateIdentities f seen identities = .ok () ↔ ∃ bindings : List RootBinding,
      List.Forall₂ (Identity.Valid f) identities bindings ∧
        (bindings.map RootBinding.root).Nodup ∧ ∀ b ∈ bindings, b.root ∉ seen := by
  induction identities generalizing seen with
  | nil =>
    refine iff_of_true rfl ⟨[], .nil, List.nodup_nil, fun b hb => absurd hb List.not_mem_nil⟩
  | cons identity rest ih =>
    rw [validateIdentities, except_bind_eq_ok]
    simp only [unit_bind_eq_ok, check_eq_ok, validateAuthenticatedIdentity_eq_ok, ih]
    constructor
    · rintro ⟨binding, hvalid, hseen, bindings, hrest, hnodup, hnew⟩
      refine ⟨binding :: bindings, .cons hvalid hrest, ?_, ?_⟩
      · refine List.nodup_cons.2 ⟨fun hmem => ?_, hnodup⟩
        obtain ⟨b, hb, heq⟩ := List.mem_map.1 hmem
        exact hnew b hb (heq ▸ List.mem_cons_self)
      · exact List.forall_mem_cons.2
          ⟨hseen, fun b hb hmem => hnew b hb (List.mem_cons_of_mem _ hmem)⟩
    · rintro ⟨bindings, hall, hnodup, hnew⟩
      rcases hall with _ | ⟨hvalid, hrest⟩
      rename_i binding bindings
      obtain ⟨hroot, hnodup⟩ := List.nodup_cons.1 hnodup
      obtain ⟨hseen, hnew⟩ := List.forall_mem_cons.1 hnew
      refine ⟨binding, hvalid, hseen, bindings, hrest, hnodup, fun b hb hmem => ?_⟩
      rcases List.mem_cons.1 hmem with heq | hmem
      · exact hroot (heq ▸ List.mem_map_of_mem hb)
      · exact hnew b hb hmem

/-- The claims keep to their limits. -/
def ClaimsBounded (claims : List TextClaim) : Prop :=
  claims.length ≤ maxClaimsPerParty ∧ ∀ c ∈ claims,
    (utf8 c.name).length ≤ maxNameBytes ∧ (utf8 c.value).length ≤ maxValueBytes

theorem validateClaims_eq_ok {claims : List TextClaim} :
    validateClaims (claims.map TextClaim.claim) = .ok () ↔ ClaimsBounded claims := by
  rw [validateClaims, unit_bind_eq_ok, check_eq_ok, check_eq_ok, List.length_map,
    List.forall_mem_map]
  rfl

/-- The parties are valid, and each has a key of its own. -/
theorem validateParties_eq_ok {seen : List Bytes32} {parties : List Party} :
    validateParties f seen parties = .ok () ↔
      (∀ p ∈ parties, f.keyKind p.publicKey = .valid ∧ ClaimsBounded p.observations) ∧
      (parties.map Party.publicKey).Nodup ∧ ∀ p ∈ parties, p.publicKey ∉ seen := by
  induction parties generalizing seen with
  | nil => simp [validateParties]
  | cons party rest ih =>
    rw [validateParties]
    simp only [unit_bind_eq_ok, check_eq_ok, validKey_eq_ok, validateClaims_eq_ok, ih,
      List.forall_mem_cons, List.map_cons, List.nodup_cons]
    simp only [List.mem_cons, not_or, List.mem_map, not_exists, not_and]
    constructor
    · rintro ⟨hkey, hseen, hclaims, hrest, hnodup, hnew⟩
      exact ⟨⟨⟨hkey, hclaims⟩, hrest⟩, ⟨fun p hp => (hnew p hp).1, hnodup⟩, hseen,
        fun p hp => (hnew p hp).2⟩
    · rintro ⟨⟨⟨hkey, hclaims⟩, hrest⟩, ⟨hother, hnodup⟩, hseen, hnew⟩
      exact ⟨hkey, hseen, hclaims, hrest, hnodup, fun p hp => ⟨hother p hp, hnew p hp⟩⟩

/-- What `validate_introduction` accepts. -/
structure Introduction.Valid (f : Foreign) (value : Introduction) : Prop where
  time : (minTimestampSeconds ≤ value.issuedAt.seconds ∧
    value.issuedAt.seconds ≤ maxTimestampSeconds) ∧ value.issuedAt.nanos < 1000000000
  parties_length : value.parties.length + 1 ≤ maxParties
  device : f.keyKind value.device = .valid
  authorityDevice : value.issuer.authorityDevice = value.device
  /-- The identities are bound to roots of their own, and so is the key of every party. -/
  roots : ∃ (issuer : RootBinding) (bindings : List RootBinding),
    value.issuer.Valid f issuer ∧
    List.Forall₂ (Identity.Valid f) value.authenticatedIdentities bindings ∧
    ((issuer :: bindings).map RootBinding.root).Nodup ∧
    (issuer.root :: value.parties.map Party.publicKey).Nodup
  parties : ∀ p ∈ value.parties, f.keyKind p.publicKey = .valid ∧ ClaimsBounded p.observations

theorem validateIntroduction_iff {value : Introduction} :
    validateIntroduction f value = .ok () ↔ value.Valid f := by
  rw [validateIntroduction, validTime]
  simp only [unit_bind_eq_ok, check_eq_ok, validKey_eq_ok, identity_bind_eq_ok,
    validateIdentities_eq_ok, validateParties_eq_ok, List.mem_singleton]
  constructor
  · rintro ⟨htime, hlength, hdevice, issuer, hissuer, hauthority, ⟨bindings, hall, hnodup, hnew⟩,
      hparties, hkeys, hother⟩
    refine ⟨htime, hlength, hdevice, hauthority, ⟨issuer, bindings, hissuer, hall, ?_, ?_⟩,
      hparties⟩
    · refine List.nodup_cons.2 ⟨fun hmem => ?_, hnodup⟩
      obtain ⟨b, hb, heq⟩ := List.mem_map.1 hmem
      exact hnew b hb heq
    · refine List.nodup_cons.2 ⟨fun hmem => ?_, hkeys⟩
      obtain ⟨p, hp, heq⟩ := List.mem_map.1 hmem
      exact hother p hp heq
  · rintro ⟨htime, hlength, hdevice, hauthority, ⟨issuer, bindings, hissuer, hall, hroots, hkeys⟩,
      hparties⟩
    obtain ⟨hroot, hnodup⟩ := List.nodup_cons.1 hroots
    obtain ⟨hkey, hkeys⟩ := List.nodup_cons.1 hkeys
    refine ⟨htime, hlength, hdevice, issuer, hissuer, hauthority, ⟨bindings, hall, hnodup, ?_⟩,
      hparties, hkeys, ?_⟩
    · intro b hb heq
      exact hroot (heq ▸ List.mem_map_of_mem hb)
    · intro p hp heq
      exact hkey (heq ▸ List.mem_map_of_mem hp)


/-! ## Read and written -/

theorem mapM_message {α β : Type} {read : β → Except String α} {write : α → β} {values : List α}
    (h : ∀ a ∈ values, read (write a) = .ok a) : (values.map write).mapM read = .ok values := by
  induction values with
  | nil => rfl
  | cons a values ih =>
    obtain ⟨ha, hvalues⟩ := List.forall_mem_cons.1 h
    rw [List.map_cons, List.mapM_cons, ha]
    show ((values.map write).mapM read >>= _) = _
    rw [ih hvalues]
    rfl

/-- What is read of each is written as it was. -/
theorem map_message_of_mapM {α β : Type} {read : β → Except String α} {write : α → β}
    (h : ∀ b a, read b = .ok a → write a = b) {written : List β} {values : List α}
    (hread : written.mapM read = .ok values) : values.map write = written := by
  induction written generalizing values with
  | nil =>
    obtain rfl := Except.ok.inj hread
    rfl
  | cons b written ih =>
    rw [List.mapM_cons, except_bind_eq_ok] at hread
    obtain ⟨a, ha, hread⟩ := hread
    obtain ⟨rest, hrest, heq⟩ := except_bind_eq_ok.1 hread
    obtain rfl := Except.ok.inj heq
    rw [List.map_cons, h b a ha, ih hrest]

theorem mapM_isOk {α β : Type} {read : α → Except String β} {values : List α}
    (h : ∀ a ∈ values, ∃ b, read a = .ok b) : ∃ results, values.mapM read = .ok results := by
  induction values with
  | nil => exact ⟨[], rfl⟩
  | cons a values ih =>
    obtain ⟨⟨b, hb⟩, hvalues⟩ := List.forall_mem_cons.1 h
    obtain ⟨results, hresults⟩ := ih hvalues
    refine ⟨b :: results, ?_⟩
    rw [List.mapM_cons, hb]
    show (values.mapM read >>= _) = _
    rw [hresults]
    rfl

theorem extractIdentity_message {value : Identity} {binding : RootBinding}
    (h : value.Valid f binding) : extractIdentity f value.message = .ok value := by
  obtain ⟨profiles, hprofiles⟩ := mapM_isOk fun signed hsigned =>
    (h.profiles signed hsigned).imp fun _ hprofile => hprofile.1
  rw [extractIdentity]
  simp only [Identity.message, h.verified, hprofiles, key32_bytes]
  rfl

theorem bytes_of_key32 {bytes : Bytes} {what : String} {key : Bytes32}
    (h : key32 bytes what = .ok key) : Bytes32.bytes key = bytes := by
  rw [key32] at h
  split_ifs at h with hlength
  obtain rfl := Except.ok.inj h
  have hlt : BigEndian.ofBytes bytes < 2 ^ 256 := by
    have hbound := BigEndian.ofBytes_lt bytes
    rw [hlength] at hbound
    exact hbound
  rw [Bytes32.bytes, BitVec.toNat_ofNat, Nat.mod_eq_of_lt hlt]
  conv_lhs => rw [← hlength]
  exact BigEndian.toBytes_ofBytes bytes

theorem message_of_extractIdentity {wire : IdentityWire} {value : Identity}
    (h : extractIdentity f wire = .ok value) : value.message = wire := by
  rw [extractIdentity] at h
  obtain ⟨-, -, h⟩ := except_bind_eq_ok.1 h
  obtain ⟨-, -, h⟩ := except_bind_eq_ok.1 h
  obtain ⟨device, hdevice, h⟩ := except_bind_eq_ok.1 h
  obtain rfl := Except.ok.inj h
  simp only [Identity.message, bytes_of_key32 hdevice]

theorem extractParty_message {value : Party} (h : ClaimsBounded value.observations) :
    extractParty value.message = .ok value := by
  simp only [extractParty, Party.message, key32_bytes]
  show (validateClaims (value.observations.map TextClaim.claim) >>= _) = _
  rw [validateClaims_eq_ok.2 h]
  rfl

theorem message_of_extractParty {wire : PartyMessage} {value : Party}
    (h : extractParty wire = .ok value) : value.message = wire := by
  rw [extractParty] at h
  obtain ⟨key, hkey, h⟩ := except_bind_eq_ok.1 h
  obtain ⟨-, h⟩ := unit_bind_eq_ok.1 h
  obtain rfl := Except.ok.inj h
  simp only [Party.message, bytes_of_key32 hkey]

theorem asI32_of_nanos {nanos : ℕ} (h : nanos < 1000000000) : asI32 nanos = nanos := by
  rw [asI32, Nat.mod_eq_of_lt (by omega), if_pos (by omega)]

theorem extractTime_eq_ok {time : Option Timestamp} {issuedAt : ClaimedTime} :
    extractTime time = .ok issuedAt ↔ validTime issuedAt = .ok () ∧
      time = some ⟨issuedAt.seconds, issuedAt.nanos⟩ := by
  rcases time with _ | ⟨seconds, nanos⟩
  · exact iff_of_false (fun h => nomatch h) fun h => nomatch h.2
  rw [extractTime]
  simp only [unit_bind_eq_ok, check_eq_ok]
  constructor
  · rintro ⟨hnanos, hvalid, heq⟩
    obtain rfl := Except.ok.inj heq
    refine ⟨hvalid, ?_⟩
    rw [Int.toNat_of_nonneg hnanos]
  · rintro ⟨hvalid, heq⟩
    obtain ⟨rfl, rfl⟩ := Timestamp.mk.inj (Option.some.inj heq)
    exact ⟨Int.natCast_nonneg _, hvalid, rfl⟩

theorem forall_of_forall₂ {α β : Type} {R : α → β → Prop} {values : List α} {results : List β}
    (h : List.Forall₂ R values results) : ∀ a ∈ values, ∃ b, R a b := by
  intro a ha
  obtain ⟨i, hi, rfl⟩ := List.getElem_of_mem ha
  have hi' : i < results.length := h.length_eq ▸ hi
  exact ⟨results[i], h.get hi hi'⟩

/-- The fields of an introduction are read as they are written. -/
theorem extractIntroduction_message {value : Introduction} (h : value.Valid f) :
    extractIntroduction f value.message = .ok value := by
  obtain ⟨issuer, bindings, hissuer, hall, -, -⟩ := h.roots
  have htime : extractTime value.message.issuedAt = .ok value.issuedAt := by
    refine extractTime_eq_ok.2 ⟨check_eq_ok.2 h.time, ?_⟩
    show some (⟨_, asI32 value.issuedAt.nanos⟩ : Timestamp) = _
    rw [asI32_of_nanos h.time.2]
  have hissuer_read : extractIssuer f value.message.issuer = .ok value.issuer :=
    extractIdentity_message hissuer
  have hidentities : value.message.authenticatedIdentities.mapM (extractIdentity f) =
      .ok value.authenticatedIdentities :=
    mapM_message fun i hi => by
      obtain ⟨binding, hbinding⟩ := forall_of_forall₂ hall i hi
      exact extractIdentity_message hbinding
  have hparties : value.message.parties.mapM extractParty = .ok value.parties :=
    mapM_message fun p hp => extractParty_message (h.parties p hp).2
  have hversion : requireVersion value.message.version "introduction" = .ok () :=
    check_eq_ok.2 rfl
  have hdevice : key32 value.message.deviceSigningKey "device signing key" = .ok value.device :=
    key32_bytes _ _
  rw [extractIntroduction, hversion, htime, hissuer_read, hdevice, hidentities, hparties]
  rfl

/-- And what is read is written again as it was. -/
theorem message_of_extractIntroduction {wire : IntroductionMessage} {value : Introduction}
    (h : extractIntroduction f wire = .ok value) : value.message = wire := by
  rw [extractIntroduction] at h
  obtain ⟨hversion, h⟩ := unit_bind_eq_ok.1 h
  obtain ⟨issuedAt, htime, h⟩ := except_bind_eq_ok.1 h
  obtain ⟨issuer, hissuer, h⟩ := except_bind_eq_ok.1 h
  obtain ⟨device, hdevice, h⟩ := except_bind_eq_ok.1 h
  obtain ⟨identities, hidentities, h⟩ := except_bind_eq_ok.1 h
  obtain ⟨parties, hparties, h⟩ := except_bind_eq_ok.1 h
  obtain rfl := Except.ok.inj h
  obtain ⟨version', issuer', device', identities', parties', issuedAt'⟩ := wire
  obtain ⟨hvalid, htime⟩ := extractTime_eq_ok.1 htime
  have hversion' : version' = version := check_eq_ok.1 hversion
  have hissuer' : some issuer.message = issuer' := by
    rcases issuer' with _ | issuer'
    · exact (nomatch hissuer)
    · rw [message_of_extractIdentity hissuer]
  simp only [Introduction.message]
  rw [hissuer', bytes_of_key32 hdevice,
    map_message_of_mapM (fun _ _ => message_of_extractIdentity) hidentities,
    map_message_of_mapM (fun _ _ => message_of_extractParty) hparties,
    asI32_of_nanos (check_eq_ok.1 hvalid).2, ← htime, hversion']

/-! ## Signed and verified -/

theorem length_blob_mono (tag : ℕ) {bytes bytes' : Bytes} (h : bytes.length ≤ bytes'.length) :
    (Protobuf.encodeFields (Protobuf.blob tag bytes)).length ≤
      (Protobuf.encodeFields (Protobuf.blob tag bytes')).length := by
  by_cases hnil : bytes = []
  · rw [hnil]
    exact Nat.zero_le _
  · have hnil' : bytes' ≠ [] := by
      rintro rfl
      exact hnil (List.length_eq_zero_iff.1 (Nat.le_zero.1 h))
    rw [Protobuf.blob, Protobuf.blob, if_neg hnil, if_neg hnil', Protobuf.encodeFields_singleton,
      Protobuf.encodeFields_singleton, Protobuf.length_encode_bytes, Protobuf.length_encode_bytes]
    exact Protobuf.nestedLength_mono tag h

theorem length_signed_encode (m : Wire.Signed) : (signed.encode m).length =
    (Protobuf.encodeFields (Protobuf.blob 1 m.payload)).length +
      (Protobuf.encodeFields (Protobuf.blob 2 m.signature)).length := by
  simp only [Protobuf.Schema.encode, signed, Protobuf.encodeFields_append, List.length_append]

theorem length_payload_le (m : Wire.Signed) : m.payload.length ≤ (signed.encode m).length := by
  have hpayload := Protobuf.length_le_encode_blob 1 m.payload
  rw [length_signed_encode]
  omega

theorem inRange_of_time {time : ClaimedTime}
    (h : (minTimestampSeconds ≤ time.seconds ∧ time.seconds ≤ maxTimestampSeconds) ∧
      time.nanos < 1000000000) : Timestamp.InRange ⟨time.seconds, asI32 time.nanos⟩ := by
  rw [asI32_of_nanos h.2]
  simp only [minTimestampSeconds, maxTimestampSeconds] at h
  refine ⟨⟨?_, ?_⟩, ?_, ?_⟩
  · show -2 ^ 63 ≤ time.seconds
    omega
  · show time.seconds < 2 ^ 63
    omega
  · show -2 ^ 31 ≤ (time.nanos : ℤ)
    omega
  · show (time.nanos : ℤ) < 2 ^ 31
    omega

theorem bounded_eq_ok {bytes : Bytes} : bounded bytes = .ok () ↔ bytes.length ≤ maxSignedBytes :=
  check_eq_ok

/-- What `sign_introduction` returns verifies, and says what was signed. -/
theorem verifyIntroduction_of_sign {c : Crypto} (hc : c.Lawful) {value : Introduction}
    {device : Bytes32} {bytes : Bytes} (h : signIntroduction c value device = .ok bytes) :
    ∃ pending, verifyIntroduction c bytes = .ok pending ∧ pending.introduction = value := by
  rw [signIntroduction] at h
  simp only [unit_bind_eq_ok, check_eq_ok, bounded_eq_ok] at h
  obtain ⟨hvalidate, hdevice, hbounded, heq⟩ := h
  obtain rfl := Except.ok.inj heq
  have hvalid := validateIntroduction_iff.1 hvalidate
  -- the envelope and the payload are short enough to be read as they were written
  have henvelope : signed.decode recursionLimit (signed.encode ⟨introduction.encode value.message,
      c.sign device (introductionDomain ++ introduction.encode value.message)⟩) = some _ :=
    decode_signed (Nat.lt_of_le_of_lt hbounded (by decide))
  have hpayload : introduction.decode recursionLimit (introduction.encode value.message) =
      some value.message := by
    have hle := length_payload_le ⟨introduction.encode value.message,
      c.sign device (introductionDomain ++ introduction.encode value.message)⟩
    refine decode_introduction (show version < 2 ^ 32 by decide) (fun time htime => ?_) ?_
    · obtain rfl := Option.some.inj htime
      exact inRange_of_time hvalid.time
    · exact Nat.lt_of_le_of_lt (Nat.le_trans hle hbounded) (by decide)
  have hsignature : verifySignature c.foreign value.device introductionDomain
      (introduction.encode value.message)
      (c.sign device (introductionDomain ++ introduction.encode value.message)) = .ok () := by
    rw [verifySignature, validKey_eq_ok.2 hvalid.device, hdevice]
    exact hc.verifies device _
  obtain ⟨issuer, bindings, hissuer, hall, -, -⟩ := hvalid.roots
  have hrequest (i : Identity) (hi : i ∈ value.allIdentities) :
      ∃ request, authorityRequest c.foreign i = .ok request := by
    obtain ⟨binding, hbinding⟩ : ∃ binding, i.Valid c.foreign binding := by
      rcases List.mem_cons.1 hi with rfl | hi
      · exact ⟨issuer, hissuer⟩
      · exact forall_of_forall₂ hall i hi
    exact ⟨_, identity_bind_eq_ok.2 ⟨binding, hbinding, rfl⟩⟩
  obtain ⟨requests, hrequests⟩ := mapM_isOk hrequest
  refine ⟨⟨value, requests⟩, ?_, rfl⟩
  rw [verifyIntroduction, unit_bind_eq_ok, bounded_eq_ok, henvelope]
  refine ⟨hbounded, ?_⟩
  show openEnvelope c _ = _
  rw [openEnvelope, hpayload]
  exact except_bind_eq_ok.2 ⟨value, extractIntroduction_message hvalid,
    unit_bind_eq_ok.2 ⟨hvalidate, unit_bind_eq_ok.2 ⟨hsignature,
      except_bind_eq_ok.2 ⟨requests, hrequests, rfl⟩⟩⟩⟩

/-- What verifies is valid, and who has the device key can sign it. -/
theorem sign_of_verifyIntroduction {c : Crypto} (hc : c.Lawful) {bytes : Bytes}
    {pending : PendingIntroduction} (h : verifyIntroduction c bytes = .ok pending) :
    pending.introduction.Valid c.foreign ∧
      (∃ envelope : Wire.Signed, signed.decode recursionLimit bytes = some envelope ∧
        introduction.decode recursionLimit envelope.payload = some pending.introduction.message ∧
        verifySignature c.foreign pending.introduction.device introductionDomain envelope.payload
          envelope.signature = .ok ()) ∧
      ∀ device, c.verifyingKey device = pending.introduction.device →
        ∃ bytes', signIntroduction c pending.introduction device = .ok bytes' := by
  rw [verifyIntroduction, unit_bind_eq_ok, bounded_eq_ok] at h
  obtain ⟨hbounded, h⟩ := h
  rcases henvelope : signed.decode recursionLimit bytes with _ | envelope
  · rw [henvelope] at h
    exact (nomatch h)
  rw [henvelope] at h
  dsimp only at h
  rw [openEnvelope] at h
  rcases hpayload : introduction.decode recursionLimit envelope.payload with _ | wire
  · rw [hpayload] at h
    exact (nomatch h)
  rw [hpayload] at h
  obtain ⟨value, hextract, h⟩ := except_bind_eq_ok.1 h
  simp only [unit_bind_eq_ok] at h
  obtain ⟨hvalidate, hsignature, h⟩ := h
  obtain ⟨requests, -, heq⟩ := except_bind_eq_ok.1 h
  obtain rfl := Except.ok.inj heq
  have hvalid := validateIntroduction_iff.1 hvalidate
  obtain rfl := message_of_extractIntroduction hextract
  refine ⟨hvalid, ⟨envelope, rfl, hpayload, hsignature⟩, fun device hdevice => ?_⟩
  dsimp only at hdevice ⊢
  -- signed again, it is no longer than it came
  have hpayload_length : (introduction.encode value.message).length ≤ envelope.payload.length :=
    length_encode_introduction_le (fun time htime => by
      obtain rfl := Option.some.inj htime
      rw [asI32_of_nanos hvalid.time.2]
      exact Int.natCast_nonneg _) hpayload
  have hsignature_length : envelope.signature.length = 64 := by
    rw [verifySignature] at hsignature
    exact hc.length_of_verifies _ _ _ (unit_bind_eq_ok.1 hsignature).2
  have hlength : (signed.encode ⟨introduction.encode value.message,
      c.sign device (introductionDomain ++ introduction.encode value.message)⟩).length ≤
        maxSignedBytes := by
    have hreceived := length_encode_signed_le henvelope
    have hblob_payload := length_blob_mono 1 hpayload_length
    have hblob_signature := length_blob_mono 2 (Nat.le_of_eq ((hc.length_sign device
      (introductionDomain ++ introduction.encode value.message)).trans hsignature_length.symm))
    rw [length_signed_encode] at hreceived ⊢
    dsimp only
    omega
  refine ⟨signed.encode ⟨introduction.encode value.message,
    c.sign device (introductionDomain ++ introduction.encode value.message)⟩, ?_⟩
  rw [signIntroduction]
  simp only [unit_bind_eq_ok, check_eq_ok, bounded_eq_ok]
  exact ⟨hvalidate, hdevice.symm, hlength, rfl⟩

/-- Signed introductions round-trip, and exactly what can be signed verifies. -/
theorem introductions_round_trip (c : Crypto) (hc : c.Lawful) :
    (∀ value device bytes, signIntroduction c value device = .ok bytes →
      ∃ pending, verifyIntroduction c bytes = .ok pending ∧ pending.introduction = value) ∧
    ∀ bytes pending, verifyIntroduction c bytes = .ok pending →
      pending.introduction.Valid c.foreign ∧
      (∃ envelope : Wire.Signed, signed.decode recursionLimit bytes = some envelope ∧
        introduction.decode recursionLimit envelope.payload = some pending.introduction.message ∧
        verifySignature c.foreign pending.introduction.device introductionDomain envelope.payload
          envelope.signature = .ok ()) ∧
      ∀ device, c.verifyingKey device = pending.introduction.device →
        ∃ bytes', signIntroduction c pending.introduction device = .ok bytes' :=
  ⟨fun _ _ _ => verifyIntroduction_of_sign hc, fun _ _ => sign_of_verifyIntroduction hc⟩

/-- What the example key of a root signs, in its envelope. -/
def exampleEnvelope (domain : String) (root : Bytes32) (payload : Bytes) : Bytes :=
  signed.encode ⟨payload, exampleSign root (utf8 domain ++ payload)⟩

/-- The root 3 with the group 4, on the device 5. -/
def exampleIdentity : Identity where
  binding := exampleEnvelope "polyvisor:root-group-binding:v0\x00" 3
    (Wire.rootBinding.encode ⟨version, Bytes32.bytes 3, Bytes32.bytes 4⟩)
  profiles := [exampleEnvelope "polyvisor:self-profile:v0\x00" 3
    (Wire.profile.encode ⟨version, Bytes32.bytes 3, Bytes32.bytes 3, [⟨"name", "ada"⟩]⟩)]
  authorityDevice := 5
  keyhiveAuthorityProof := [1]

def exampleIntroduction : Introduction where
  issuer := exampleIdentity
  device := 5
  authenticatedIdentities := []
  parties := [⟨6, [⟨"name", "bob"⟩]⟩]
  issuedAt := ⟨1, 0⟩

/-- The introduction is signed, it verifies, and what verified can be signed again. -/
theorem exampleIntroduction_round_trip : ∃ bytes pending,
    signIntroduction exampleCrypto exampleIntroduction 5 = .ok bytes ∧
      verifyIntroduction exampleCrypto bytes = .ok pending ∧
      pending.introduction = exampleIntroduction ∧
      ∃ bytes', signIntroduction exampleCrypto pending.introduction 5 = .ok bytes' := by
  obtain ⟨hverifies, hsigns⟩ := introductions_round_trip exampleCrypto exampleCrypto_lawful
  have hok : (signIntroduction exampleCrypto exampleIntroduction 5).isOk = true := by
    decide +kernel
  rcases hsigned : signIntroduction exampleCrypto exampleIntroduction 5 with e | bytes
  · rw [hsigned] at hok
    exact nomatch hok
  obtain ⟨pending, hverify, hvalue⟩ := hverifies _ _ _ hsigned
  refine ⟨bytes, pending, rfl, hverify, hvalue, (hsigns bytes pending hverify).2.2 5 ?_⟩
  rw [hvalue]
  rfl

end Polyvisor.Contacts.Signing
