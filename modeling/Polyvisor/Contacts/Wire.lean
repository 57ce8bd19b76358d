import Polyvisor.Contacts.Document
import Polyvisor.Lib.Protobuf
import Mathlib.Algebra.Group.Int.Defs

/-!
# Contacts on the wire

The messages of `proto/introduction.proto` as `prost` writes and reads them: a field that is empty
or zero is left out, the last of two values of a field stands, the parts of a message that comes in
parts are merged, and what has an unknown tag is skipped. A text has to be UTF-8.

## Main results

* `decode_signed`, `decode_profile`, `decode_introduction`: the messages round-trip.
* `length_encode_introduction_le`: an introduction that is read is not shorter than it is written.
-/

namespace Polyvisor.Contacts.Wire

open Protobuf (Field Schema blob uint)

/-! ## Texts and integers -/

def asText (value : Protobuf.Value) : Option String :=
  value.asBytes.bind ofUtf8

/-- `as u64` of an `i64` or an `i32`. -/
def toU64 (n : ℤ) : ℕ := (n % 2 ^ 64).toNat

/-- `as i64` of a `u64`. -/
def asI64 (n : ℕ) : ℤ := if n < 2 ^ 63 then n else n - 2 ^ 64

/-- `as i32` of a `u64`. -/
def asI32 (n : ℕ) : ℤ :=
  if n % 2 ^ 32 < 2 ^ 31 then (n % 2 ^ 32 : ℕ) else (n % 2 ^ 32 : ℕ) - 2 ^ 32

theorem asI64_toU64 {n : ℤ} (h : -2 ^ 63 ≤ n ∧ n < 2 ^ 63) : asI64 (toU64 n) = n := by
  rw [asI64, toU64]
  split_ifs
  · omega
  · omega

theorem asI32_toU64 {n : ℤ} (h : -2 ^ 31 ≤ n ∧ n < 2 ^ 31) : asI32 (toU64 n) = n := by
  rw [asI32, toU64]
  split_ifs
  · omega
  · omega

theorem toU64_asI64_le (n : ℕ) : toU64 (asI64 n) ≤ n := by
  rw [asI64, toU64]
  split_ifs
  · omega
  · omega

theorem toU64_asI32_le {n : ℕ} (h : 0 ≤ asI32 n) : toU64 (asI32 n) ≤ n := by
  rw [asI32] at h ⊢
  rw [toU64]
  split_ifs at h ⊢
  · omega
  · omega

/-! ## The messages -/

/-- `SignedRootBinding`, `SignedProfile` and `SignedIntroduction`: they have the same fields. -/
structure Signed where
  payload : Bytes
  signature : Bytes
  deriving DecidableEq

/-- `Claim`, of texts. -/
structure TextClaim where
  name : String
  value : String
  deriving DecidableEq

/-- The claim as its bytes. -/
def TextClaim.claim (c : TextClaim) : Claim := ⟨utf8 c.name, utf8 c.value⟩

/-- `proto::Profile`. -/
structure ProfileMessage where
  version : ℕ
  subjectRoot : Bytes
  issuerRoot : Bytes
  claims : List TextClaim
  deriving DecidableEq

/-- `proto::Party`. -/
structure PartyMessage where
  publicKey : Bytes
  claims : List TextClaim
  deriving DecidableEq

/-- `Timestamp`. -/
structure Timestamp where
  seconds : ℤ
  nanos : ℤ
  deriving DecidableEq

/-- `proto::Introduction`. -/
structure IntroductionMessage where
  version : ℕ
  issuer : Option IdentityWire
  deviceSigningKey : Bytes
  authenticatedIdentities : List IdentityWire
  parties : List PartyMessage
  issuedAt : Option Timestamp

/-- `RECURSION_LIMIT`. -/
def recursionLimit : ℕ := 100

def signed : Schema Signed where
  empty := ⟨[], []⟩
  fields m := blob 1 m.payload ++ blob 2 m.signature
  merge _ m f :=
    match f.tag with
    | 1 => f.value.asBytes.map fun bytes => { m with payload := bytes }
    | 2 => f.value.asBytes.map fun bytes => { m with signature := bytes }
    | _ => some m

def rootBinding : Schema RootBindingWire where
  empty := ⟨0, [], []⟩
  fields m := uint 1 m.version ++ blob 2 m.rootPublicKey ++ blob 3 m.groupId
  merge _ m f :=
    match f.tag with
    | 1 => f.value.asVarint.map fun n => { m with version := n % 2 ^ 32 }
    | 2 => f.value.asBytes.map fun bytes => { m with rootPublicKey := bytes }
    | 3 => f.value.asBytes.map fun bytes => { m with groupId := bytes }
    | _ => some m

def claim : Schema TextClaim where
  empty := ⟨"", ""⟩
  fields m := blob 1 (utf8 m.name) ++ blob 2 (utf8 m.value)
  merge _ m f :=
    match f.tag with
    | 1 => (asText f.value).map fun text => { m with name := text }
    | 2 => (asText f.value).map fun text => { m with value := text }
    | _ => some m

def profile : Schema ProfileMessage where
  empty := ⟨0, [], [], []⟩
  fields m := uint 1 m.version ++ blob 2 m.subjectRoot ++ blob 3 m.issuerRoot ++
    m.claims.map fun c => ⟨4, .bytes (claim.encode c)⟩
  merge limit m f :=
    match f.tag with
    | 1 => f.value.asVarint.map fun n => { m with version := n % 2 ^ 32 }
    | 2 => f.value.asBytes.map fun bytes => { m with subjectRoot := bytes }
    | 3 => f.value.asBytes.map fun bytes => { m with issuerRoot := bytes }
    | 4 => do
      let c ← claim.decode (limit - 1) (← f.value.asBytes)
      return { m with claims := m.claims ++ [c] }
    | _ => some m

def identity : Schema IdentityWire where
  empty := ⟨[], [], [], []⟩
  fields m := blob 1 m.rootBinding ++ m.profiles.map (fun bytes => ⟨2, .bytes bytes⟩) ++
    blob 3 m.authorityDevice ++ blob 4 m.keyhiveAuthorityProof
  merge _ m f :=
    match f.tag with
    | 1 => f.value.asBytes.map fun bytes => { m with rootBinding := bytes }
    | 2 => f.value.asBytes.map fun bytes => { m with profiles := m.profiles ++ [bytes] }
    | 3 => f.value.asBytes.map fun bytes => { m with authorityDevice := bytes }
    | 4 => f.value.asBytes.map fun bytes => { m with keyhiveAuthorityProof := bytes }
    | _ => some m

def party : Schema PartyMessage where
  empty := ⟨[], []⟩
  fields m := blob 1 m.publicKey ++ m.claims.map fun c => ⟨2, .bytes (claim.encode c)⟩
  merge limit m f :=
    match f.tag with
    | 1 => f.value.asBytes.map fun bytes => { m with publicKey := bytes }
    | 2 => do
      let c ← claim.decode (limit - 1) (← f.value.asBytes)
      return { m with claims := m.claims ++ [c] }
    | _ => some m

def timestamp : Schema Timestamp where
  empty := ⟨0, 0⟩
  fields m := uint 1 (toU64 m.seconds) ++ uint 2 (toU64 m.nanos)
  merge _ m f :=
    match f.tag with
    | 1 => f.value.asVarint.map fun n => { m with seconds := asI64 n }
    | 2 => f.value.asVarint.map fun n => { m with nanos := asI32 n }
    | _ => some m

/-- A message that is there, as a field. -/
def nested {M : Type} (s : Schema M) (tag : ℕ) (m : Option M) : List Field :=
  m.toList.map fun m => ⟨tag, .bytes (s.encode m)⟩

def introduction : Schema IntroductionMessage where
  empty := ⟨0, none, [], [], [], none⟩
  fields m := uint 1 m.version ++ nested identity 2 m.issuer ++ blob 3 m.deviceSigningKey ++
    m.authenticatedIdentities.map (fun i => ⟨4, .bytes (identity.encode i)⟩) ++
    m.parties.map (fun p => ⟨5, .bytes (party.encode p)⟩) ++ nested timestamp 6 m.issuedAt
  merge limit m f :=
    match f.tag with
    | 1 => f.value.asVarint.map fun n => { m with version := n % 2 ^ 32 }
    | 2 => do
      let issuer ← identity.mergeBytes (limit - 1) (m.issuer.getD identity.empty)
        (← f.value.asBytes)
      return { m with issuer := some issuer }
    | 3 => f.value.asBytes.map fun bytes => { m with deviceSigningKey := bytes }
    | 4 => do
      let i ← identity.decode (limit - 1) (← f.value.asBytes)
      return { m with authenticatedIdentities := m.authenticatedIdentities ++ [i] }
    | 5 => do
      let p ← party.decode (limit - 1) (← f.value.asBytes)
      return { m with parties := m.parties ++ [p] }
    | 6 => do
      let time ← timestamp.mergeBytes (limit - 1) (m.issuedAt.getD timestamp.empty)
        (← f.value.asBytes)
      return { m with issuedAt := some time }
    | _ => some m


/-! ## Read again -/

/-- A field can be written if its tag is a small number and what it holds is short. -/
theorem wf_bytes {tag : ℕ} {bytes : Bytes} (htag : 0 < tag ∧ tag < 2 ^ 29)
    (h : bytes.length < 2 ^ 64) : Field.Wf ⟨tag, .bytes bytes⟩ :=
  ⟨htag, h⟩

theorem wf_of_mem_blob {tag : ℕ} {bytes : Bytes} {f : Field} (hf : f ∈ blob tag bytes)
    (htag : 0 < tag ∧ tag < 2 ^ 29) (h : bytes.length < 2 ^ 64) : f.Wf := by
  rw [Protobuf.mem_blob hf]
  exact wf_bytes htag h

theorem wf_of_mem_uint {tag n : ℕ} {f : Field} (hf : f ∈ uint tag n)
    (htag : 0 < tag ∧ tag < 2 ^ 29) (h : n < 2 ^ 64) : f.Wf := by
  rw [Protobuf.mem_uint hf]
  exact ⟨htag, h⟩

theorem decode_signed {limit : ℕ} {m : Signed} (h : (signed.encode m).length < 2 ^ 64) :
    signed.decode limit (signed.encode m) = some m := by
  have hpayload := Protobuf.length_le_encode_blob 1 m.payload
  have hsignature := Protobuf.length_le_encode_blob 2 m.signature
  simp only [Schema.encode, signed, Protobuf.encodeFields_append, List.length_append] at h
  apply Schema.decode_encode
  · intro f hf
    rcases List.mem_append.1 hf with hf | hf
    · exact wf_of_mem_blob hf (by decide) (by omega)
    · exact wf_of_mem_blob hf (by decide) (by omega)
  have hfirst : (blob 1 m.payload).foldlM (signed.merge limit) signed.empty =
      some ⟨m.payload, []⟩ :=
    Protobuf.foldlM_blob (fun h => by rw [h]; rfl) rfl
  have hsecond : (blob 2 m.signature).foldlM (signed.merge limit) ⟨m.payload, []⟩ = some m :=
    Protobuf.foldlM_blob (fun h => by rw [← h]) rfl
  exact (Protobuf.foldlM_append_some hfirst).trans hsecond

theorem asText_bytes (text : String) : asText (.bytes (utf8 text)) = some text :=
  ofUtf8_utf8 text

theorem utf8_eq_nil {text : String} (h : utf8 text = []) : text = "" := by
  apply utf8_injective
  rw [h, utf8_eq]
  rfl

theorem decode_claim {limit : ℕ} {c : TextClaim} (h : (claim.encode c).length < 2 ^ 64) :
    claim.decode limit (claim.encode c) = some c := by
  have hname := Protobuf.length_le_encode_blob 1 (utf8 c.name)
  have hvalue := Protobuf.length_le_encode_blob 2 (utf8 c.value)
  simp only [Schema.encode, claim, Protobuf.encodeFields_append, List.length_append] at h
  apply Schema.decode_encode
  · intro f hf
    rcases List.mem_append.1 hf with hf | hf
    · exact wf_of_mem_blob hf (by decide) (by omega)
    · exact wf_of_mem_blob hf (by decide) (by omega)
  have hfirst : (blob 1 (utf8 c.name)).foldlM (claim.merge limit) claim.empty =
      some ⟨c.name, ""⟩ := by
    refine Protobuf.foldlM_blob (fun h => ?_) ?_
    · rw [utf8_eq_nil h]
      rfl
    · show (asText (.bytes (utf8 c.name))).map _ = _
      rw [asText_bytes]
      rfl
  have hsecond : (blob 2 (utf8 c.value)).foldlM (claim.merge limit) ⟨c.name, ""⟩ = some c := by
    refine Protobuf.foldlM_blob (fun h => ?_) ?_
    · rw [← utf8_eq_nil h]
    · show (asText (.bytes (utf8 c.value))).map _ = _
      rw [asText_bytes]
      rfl
  exact (Protobuf.foldlM_append_some hfirst).trans hsecond

/-- The values of a repeated field can be written if all of it can. -/
theorem length_lt_of_mem {α : Type} {values : List α} (tag : ℕ) {encode : α → Bytes} {bound : ℕ}
    (h : (Protobuf.encodeFields (values.map fun a => ⟨tag, .bytes (encode a)⟩)).length < bound)
    {a : α} (ha : a ∈ values) : (encode a).length < bound := by
  have hmem : (⟨tag, .bytes (encode a)⟩ : Field) ∈
      values.map fun a => ⟨tag, .bytes (encode a)⟩ := List.mem_map_of_mem ha
  have hfield := Protobuf.length_le_of_mem hmem
  have hbytes := Protobuf.length_bytes_le tag (encode a)
  omega

theorem wf_of_mem_map {α : Type} {values : List α} {tag : ℕ} {encode : α → Bytes} {f : Field}
    (hf : f ∈ values.map fun a => ⟨tag, .bytes (encode a)⟩) (htag : 0 < tag ∧ tag < 2 ^ 29)
    (h : (Protobuf.encodeFields (values.map fun a => ⟨tag, .bytes (encode a)⟩)).length < 2 ^ 64) :
    f.Wf := by
  obtain ⟨a, ha, rfl⟩ := List.mem_map.1 hf
  exact wf_bytes htag (length_lt_of_mem tag h ha)

theorem decode_profile {limit : ℕ} {m : ProfileMessage} (hversion : m.version < 2 ^ 32)
    (h : (profile.encode m).length < 2 ^ 64) :
    profile.decode limit (profile.encode m) = some m := by
  have hsubject := Protobuf.length_le_encode_blob 2 m.subjectRoot
  have hissuer := Protobuf.length_le_encode_blob 3 m.issuerRoot
  simp only [Schema.encode, profile, Protobuf.encodeFields_append, List.length_append] at h
  apply Schema.decode_encode
  · intro f hf
    simp only [profile, List.mem_append] at hf
    rcases hf with ((hf | hf) | hf) | hf
    · exact wf_of_mem_uint hf (by decide) (by omega)
    · exact wf_of_mem_blob hf (by decide) (by omega)
    · exact wf_of_mem_blob hf (by decide) (by omega)
    · exact wf_of_mem_map hf (by decide) (by simp only [Schema.encode]; omega)
  have hfirst : (uint 1 m.version).foldlM (profile.merge limit) profile.empty =
      some ⟨m.version, [], [], []⟩ := by
    refine Protobuf.foldlM_uint (fun h => by rw [h]; rfl) ?_
    show some (⟨m.version % 2 ^ 32, [], [], []⟩ : ProfileMessage) = _
    rw [Nat.mod_eq_of_lt hversion]
  have hsecond : (blob 2 m.subjectRoot).foldlM (profile.merge limit) ⟨m.version, [], [], []⟩ =
      some ⟨m.version, m.subjectRoot, [], []⟩ :=
    Protobuf.foldlM_blob (fun h => by rw [h]) rfl
  have hthird : (blob 3 m.issuerRoot).foldlM (profile.merge limit)
      ⟨m.version, m.subjectRoot, [], []⟩ = some ⟨m.version, m.subjectRoot, m.issuerRoot, []⟩ :=
    Protobuf.foldlM_blob (fun h => by rw [h]) rfl
  have hclaims : (m.claims.map fun c => (⟨4, .bytes (claim.encode c)⟩ : Field)).foldlM
      (profile.merge limit) ⟨m.version, m.subjectRoot, m.issuerRoot, []⟩ = some m := by
    refine Protobuf.foldlM_repeated
      (fun claims => (⟨m.version, m.subjectRoot, m.issuerRoot, claims⟩ : ProfileMessage))
      (fun c hc before => ?_) []
    have hdecoded : claim.decode (limit - 1) (claim.encode c) = some c :=
      decode_claim (length_lt_of_mem 4 (by simp only [Schema.encode]; omega) hc)
    show (claim.decode (limit - 1) (claim.encode c) >>= _) = _
    rw [hdecoded]
    rfl
  exact (Protobuf.foldlM_append_some ((Protobuf.foldlM_append_some
    ((Protobuf.foldlM_append_some hfirst).trans hsecond)).trans hthird)).trans hclaims

theorem decode_identity {limit : ℕ} {m : IdentityWire} (h : (identity.encode m).length < 2 ^ 64) :
    identity.decode limit (identity.encode m) = some m := by
  have hbinding := Protobuf.length_le_encode_blob 1 m.rootBinding
  have hdevice := Protobuf.length_le_encode_blob 3 m.authorityDevice
  have hproof := Protobuf.length_le_encode_blob 4 m.keyhiveAuthorityProof
  simp only [Schema.encode, identity, Protobuf.encodeFields_append, List.length_append] at h
  apply Schema.decode_encode
  · intro f hf
    simp only [identity, List.mem_append] at hf
    rcases hf with ((hf | hf) | hf) | hf
    · exact wf_of_mem_blob hf (by decide) (by omega)
    · exact wf_of_mem_map hf (by decide) (by omega)
    · exact wf_of_mem_blob hf (by decide) (by omega)
    · exact wf_of_mem_blob hf (by decide) (by omega)
  have hfirst : (blob 1 m.rootBinding).foldlM (identity.merge limit) identity.empty =
      some ⟨m.rootBinding, [], [], []⟩ :=
    Protobuf.foldlM_blob (fun h => by rw [h]; rfl) rfl
  have hprofiles : (m.profiles.map fun bytes => (⟨2, .bytes bytes⟩ : Field)).foldlM
      (identity.merge limit) ⟨m.rootBinding, [], [], []⟩ =
        some ⟨m.rootBinding, m.profiles, [], []⟩ :=
    Protobuf.foldlM_repeated (fun profiles => (⟨m.rootBinding, profiles, [], []⟩ : IdentityWire))
      (fun _ _ _ => rfl) []
  have hthird : (blob 3 m.authorityDevice).foldlM (identity.merge limit)
      ⟨m.rootBinding, m.profiles, [], []⟩ =
        some ⟨m.rootBinding, m.profiles, m.authorityDevice, []⟩ :=
    Protobuf.foldlM_blob (fun h => by rw [h]) rfl
  have hfourth : (blob 4 m.keyhiveAuthorityProof).foldlM (identity.merge limit)
      ⟨m.rootBinding, m.profiles, m.authorityDevice, []⟩ = some m :=
    Protobuf.foldlM_blob (fun h => by rw [← h]) rfl
  exact (Protobuf.foldlM_append_some ((Protobuf.foldlM_append_some
    ((Protobuf.foldlM_append_some hfirst).trans hprofiles)).trans hthird)).trans hfourth

theorem decode_party {limit : ℕ} {m : PartyMessage} (h : (party.encode m).length < 2 ^ 64) :
    party.decode limit (party.encode m) = some m := by
  have hkey := Protobuf.length_le_encode_blob 1 m.publicKey
  simp only [Schema.encode, party, Protobuf.encodeFields_append, List.length_append] at h
  apply Schema.decode_encode
  · intro f hf
    rcases List.mem_append.1 hf with hf | hf
    · exact wf_of_mem_blob hf (by decide) (by omega)
    · exact wf_of_mem_map hf (by decide) (by simp only [Schema.encode]; omega)
  have hfirst : (blob 1 m.publicKey).foldlM (party.merge limit) party.empty =
      some ⟨m.publicKey, []⟩ :=
    Protobuf.foldlM_blob (fun h => by rw [h]; rfl) rfl
  have hclaims : (m.claims.map fun c => (⟨2, .bytes (claim.encode c)⟩ : Field)).foldlM
      (party.merge limit) ⟨m.publicKey, []⟩ = some m := by
    refine Protobuf.foldlM_repeated (fun claims => (⟨m.publicKey, claims⟩ : PartyMessage))
      (fun c hc before => ?_) []
    have hdecoded : claim.decode (limit - 1) (claim.encode c) = some c :=
      decode_claim (length_lt_of_mem 2 (by simp only [Schema.encode]; omega) hc)
    show (claim.decode (limit - 1) (claim.encode c) >>= _) = _
    rw [hdecoded]
    rfl
  exact (Protobuf.foldlM_append_some hfirst).trans hclaims

/-- The seconds are those of an `i64` and the nanoseconds those of an `i32`. -/
def Timestamp.InRange (m : Timestamp) : Prop :=
  (-2 ^ 63 ≤ m.seconds ∧ m.seconds < 2 ^ 63) ∧ -2 ^ 31 ≤ m.nanos ∧ m.nanos < 2 ^ 31

theorem toU64_lt (n : ℤ) : toU64 n < 2 ^ 64 := by
  rw [toU64]
  omega

theorem decode_timestamp {limit : ℕ} {m : Timestamp} (h : m.InRange) :
    timestamp.decode limit (timestamp.encode m) = some m := by
  apply Schema.decode_encode
  · intro f hf
    rcases List.mem_append.1 hf with hf | hf
    · exact wf_of_mem_uint hf (by decide) (toU64_lt _)
    · exact wf_of_mem_uint hf (by decide) (toU64_lt _)
  have hzero (n : ℤ) (hn : -2 ^ 63 ≤ n ∧ n < 2 ^ 63) (hu : toU64 n = 0) : n = 0 := by
    rw [toU64] at hu
    omega
  have hfirst : (uint 1 (toU64 m.seconds)).foldlM (timestamp.merge limit) timestamp.empty =
      some ⟨m.seconds, 0⟩ := by
    refine Protobuf.foldlM_uint (fun hu => by rw [hzero _ h.1 hu]; rfl) ?_
    show some (⟨asI64 (toU64 m.seconds), 0⟩ : Timestamp) = _
    rw [asI64_toU64 h.1]
  have hsecond : (uint 2 (toU64 m.nanos)).foldlM (timestamp.merge limit) ⟨m.seconds, 0⟩ =
      some m := by
    obtain ⟨-, hlow, hhigh⟩ := h
    refine Protobuf.foldlM_uint (fun hu => by rw [← hzero m.nanos (by omega) hu]) ?_
    show some (⟨m.seconds, asI32 (toU64 m.nanos)⟩ : Timestamp) = _
    rw [asI32_toU64 ⟨hlow, hhigh⟩]
  exact (Protobuf.foldlM_append_some hfirst).trans hsecond

theorem decode_introduction {limit : ℕ} {m : IntroductionMessage} (hversion : m.version < 2 ^ 32)
    (htime : ∀ time, m.issuedAt = some time → time.InRange)
    (h : (introduction.encode m).length < 2 ^ 64) :
    introduction.decode limit (introduction.encode m) = some m := by
  have hdevice := Protobuf.length_le_encode_blob 3 m.deviceSigningKey
  simp only [Schema.encode, introduction, Protobuf.encodeFields_append, List.length_append,
    nested] at h
  apply Schema.decode_encode
  · intro f hf
    simp only [introduction, List.mem_append] at hf
    rcases hf with ((((hf | hf) | hf) | hf) | hf) | hf
    · exact wf_of_mem_uint hf (by decide) (by omega)
    · exact wf_of_mem_map hf (by decide) (by simp only [Schema.encode]; omega)
    · exact wf_of_mem_blob hf (by decide) (by omega)
    · exact wf_of_mem_map hf (by decide) (by simp only [Schema.encode]; omega)
    · exact wf_of_mem_map hf (by decide) (by simp only [Schema.encode]; omega)
    · exact wf_of_mem_map hf (by decide) (by simp only [Schema.encode]; omega)
  have hidentity (i : IdentityWire) (hi : (identity.encode i).length < 2 ^ 64) :
      identity.decode (limit - 1) (identity.encode i) = some i := decode_identity hi
  have hfirst : (uint 1 m.version).foldlM (introduction.merge limit) introduction.empty =
      some ⟨m.version, none, [], [], [], none⟩ := by
    refine Protobuf.foldlM_uint (fun h => by rw [h]; rfl) ?_
    show some (⟨m.version % 2 ^ 32, none, [], [], [], none⟩ : IntroductionMessage) = _
    rw [Nat.mod_eq_of_lt hversion]
  have hissuer : (nested identity 2 m.issuer).foldlM (introduction.merge limit)
      ⟨m.version, none, [], [], [], none⟩ = some ⟨m.version, m.issuer, [], [], [], none⟩ := by
    rcases hi : m.issuer with _ | i
    · rfl
    rw [hi] at h
    have hmem : i ∈ (some i).toList := List.mem_singleton_self i
    have hdecoded := hidentity i (length_lt_of_mem 2 (by simp only [Schema.encode]; omega) hmem)
    show (identity.decode (limit - 1) (identity.encode i) >>= _) >>= _ = _
    rw [hdecoded]
    rfl
  have hthird : (blob 3 m.deviceSigningKey).foldlM (introduction.merge limit)
      ⟨m.version, m.issuer, [], [], [], none⟩ =
        some ⟨m.version, m.issuer, m.deviceSigningKey, [], [], none⟩ :=
    Protobuf.foldlM_blob (fun h => by rw [h]) rfl
  have hidentities : (m.authenticatedIdentities.map fun i =>
      (⟨4, .bytes (identity.encode i)⟩ : Field)).foldlM (introduction.merge limit)
        ⟨m.version, m.issuer, m.deviceSigningKey, [], [], none⟩ =
          some ⟨m.version, m.issuer, m.deviceSigningKey, m.authenticatedIdentities, [], none⟩ := by
    refine Protobuf.foldlM_repeated (fun identities => (⟨m.version, m.issuer, m.deviceSigningKey,
      identities, [], none⟩ : IntroductionMessage)) (fun i hi before => ?_) []
    have hdecoded := hidentity i (length_lt_of_mem 4 (by simp only [Schema.encode]; omega) hi)
    show (identity.decode (limit - 1) (identity.encode i) >>= _) = _
    rw [hdecoded]
    rfl
  have hparties : (m.parties.map fun p => (⟨5, .bytes (party.encode p)⟩ : Field)).foldlM
      (introduction.merge limit)
        ⟨m.version, m.issuer, m.deviceSigningKey, m.authenticatedIdentities, [], none⟩ =
          some ⟨m.version, m.issuer, m.deviceSigningKey, m.authenticatedIdentities, m.parties,
            none⟩ := by
    refine Protobuf.foldlM_repeated (fun parties => (⟨m.version, m.issuer, m.deviceSigningKey,
      m.authenticatedIdentities, parties, none⟩ : IntroductionMessage)) (fun p hp before => ?_) []
    have hdecoded : party.decode (limit - 1) (party.encode p) = some p :=
      decode_party (length_lt_of_mem 5 (by simp only [Schema.encode]; omega) hp)
    show (party.decode (limit - 1) (party.encode p) >>= _) = _
    rw [hdecoded]
    rfl
  have hissuedAt : (nested timestamp 6 m.issuedAt).foldlM (introduction.merge limit)
      ⟨m.version, m.issuer, m.deviceSigningKey, m.authenticatedIdentities, m.parties, none⟩ =
        some m := by
    obtain ⟨version, issuer, deviceSigningKey, identities, parties, issuedAt⟩ := m
    rcases issuedAt with _ | time
    · rfl
    have hdecoded : timestamp.decode (limit - 1) (timestamp.encode time) = some time :=
      decode_timestamp (htime time rfl)
    show (timestamp.decode (limit - 1) (timestamp.encode time) >>= _) >>= _ = _
    rw [hdecoded]
    rfl
  exact (Protobuf.foldlM_append_some ((Protobuf.foldlM_append_some ((Protobuf.foldlM_append_some
    ((Protobuf.foldlM_append_some ((Protobuf.foldlM_append_some hfirst).trans hissuer)).trans
      hthird)).trans hidentities)).trans hparties)).trans hissuedAt


/-! ## How long it is -/

theorem eq_of_asBytes {f : Field} {tag : ℕ} {bytes : Bytes} (htag : f.tag = tag)
    (h : f.value.asBytes = some bytes) : f = ⟨tag, .bytes bytes⟩ := by
  obtain ⟨tag', value⟩ := f
  unfold Protobuf.Value.asBytes at h
  split at h
  next content heq =>
    obtain rfl := Option.some.inj h
    dsimp only at htag heq
    rw [htag, heq]
  · exact (nomatch h)

theorem eq_of_asVarint {f : Field} {tag n : ℕ} (htag : f.tag = tag)
    (h : f.value.asVarint = some n) : f = ⟨tag, .varint n⟩ := by
  obtain ⟨tag', value⟩ := f
  unfold Protobuf.Value.asVarint at h
  split at h
  next content heq =>
    obtain rfl := Option.some.inj h
    dsimp only at htag heq
    rw [htag, heq]
  · exact (nomatch h)

theorem eq_of_asText {f : Field} {tag : ℕ} {text : String} (htag : f.tag = tag)
    (h : asText f.value = some text) : f = ⟨tag, .bytes (utf8 text)⟩ := by
  obtain ⟨bytes, hbytes, htext⟩ := Option.bind_eq_some_iff.1 h
  rw [utf8_of_ofUtf8 htext, eq_of_asBytes htag hbytes]

/-- The length of the values of a repeated message, each in its field. -/
def repeatedLength {α : Type} (tag : ℕ) (weight : α → ℕ) (values : List α) : ℕ :=
  (values.map fun a => Protobuf.nestedLength tag (weight a)).sum

theorem repeatedLength_append_singleton {α : Type} (tag : ℕ) (weight : α → ℕ) (values : List α)
    (a : α) : repeatedLength tag weight (values ++ [a]) =
      repeatedLength tag weight values + Protobuf.nestedLength tag (weight a) := by
  simp [repeatedLength]

theorem length_encode_map {α : Type} (tag : ℕ) (encode : α → Bytes) (values : List α) :
    (Protobuf.encodeFields (values.map fun a => ⟨tag, .bytes (encode a)⟩)).length =
      repeatedLength tag (fun a => (encode a).length) values := by
  induction values with
  | nil => rfl
  | cons a values ih =>
    simp only [Protobuf.encodeFields, repeatedLength, List.map_cons, List.flatMap_cons,
      List.length_append, List.sum_cons, Protobuf.length_encode_bytes] at ih ⊢
    rw [ih]

theorem grows_claim : claim.Grows fun c => (claim.encode c).length := by
  intro limit m f m' h
  simp only [Schema.encode, claim, Protobuf.encodeFields_append, List.length_append] at h ⊢
  split at h
  next htag =>
    obtain ⟨text, htext, rfl⟩ := Option.map_eq_some_iff.1 h
    obtain rfl := eq_of_asText htag htext
    have hname := Protobuf.length_encode_blob_le 1 (utf8 text)
    dsimp only
    omega
  next htag =>
    obtain ⟨text, htext, rfl⟩ := Option.map_eq_some_iff.1 h
    obtain rfl := eq_of_asText htag htext
    have hvalue := Protobuf.length_encode_blob_le 2 (utf8 text)
    dsimp only
    omega
  · obtain rfl := Option.some.inj h
    omega

theorem length_encode_claim_empty : (claim.encode claim.empty).length = 0 := by
  have hempty : utf8 "" = [] := by
    rw [utf8_eq]
    rfl
  show (Protobuf.encodeFields (blob 1 (utf8 "") ++ blob 2 (utf8 ""))).length = 0
  rw [hempty]
  rfl

theorem grows_signed : signed.Grows fun m => (signed.encode m).length := by
  intro limit m f m' h
  simp only [Schema.encode, signed, Protobuf.encodeFields_append, List.length_append] at h ⊢
  split at h
  next htag =>
    obtain ⟨bytes, hbytes, rfl⟩ := Option.map_eq_some_iff.1 h
    obtain rfl := eq_of_asBytes htag hbytes
    have hpayload := Protobuf.length_encode_blob_le 1 bytes
    dsimp only
    omega
  next htag =>
    obtain ⟨bytes, hbytes, rfl⟩ := Option.map_eq_some_iff.1 h
    obtain rfl := eq_of_asBytes htag hbytes
    have hsignature := Protobuf.length_encode_blob_le 2 bytes
    dsimp only
    omega
  · obtain rfl := Option.some.inj h
    omega

theorem grows_identity : identity.Grows fun m => (identity.encode m).length := by
  intro limit m f m' h
  simp only [Schema.encode, identity, Protobuf.encodeFields_append, List.length_append] at h ⊢
  split at h
  next htag =>
    obtain ⟨bytes, hbytes, rfl⟩ := Option.map_eq_some_iff.1 h
    obtain rfl := eq_of_asBytes htag hbytes
    have hbinding := Protobuf.length_encode_blob_le 1 bytes
    dsimp only
    omega
  next htag =>
    obtain ⟨bytes, hbytes, rfl⟩ := Option.map_eq_some_iff.1 h
    obtain rfl := eq_of_asBytes htag hbytes
    simp only [List.map_append, List.map_cons, List.map_nil, Protobuf.encodeFields_append,
      Protobuf.encodeFields_singleton, List.length_append]
    omega
  next htag =>
    obtain ⟨bytes, hbytes, rfl⟩ := Option.map_eq_some_iff.1 h
    obtain rfl := eq_of_asBytes htag hbytes
    have hdevice := Protobuf.length_encode_blob_le 3 bytes
    dsimp only
    omega
  next htag =>
    obtain ⟨bytes, hbytes, rfl⟩ := Option.map_eq_some_iff.1 h
    obtain rfl := eq_of_asBytes htag hbytes
    have hproof := Protobuf.length_encode_blob_le 4 bytes
    dsimp only
    omega
  · obtain rfl := Option.some.inj h
    omega

/-- A part that is decoded takes no more than the field it came in. -/
theorem nestedLength_decode_le (tag : ℕ) {M : Type} {s : Schema M} {weight : M → ℕ}
    (hgrows : s.Grows weight) (hempty : weight s.empty = 0) {limit : ℕ} {m : M} {bytes : Bytes}
    (h : s.decode limit bytes = some m) : Protobuf.nestedLength tag (weight m) ≤
      (Field.encode ⟨tag, .bytes bytes⟩).length := by
  have hweight := hgrows.mergeBytes h
  rw [hempty, Nat.zero_add] at hweight
  rw [Protobuf.length_encode_bytes]
  exact Protobuf.nestedLength_mono tag hweight

theorem grows_party : party.Grows fun m => (party.encode m).length := by
  intro limit m f m' h
  simp only [Schema.encode, party, Protobuf.encodeFields_append, List.length_append] at h ⊢
  split at h
  next htag =>
    obtain ⟨bytes, hbytes, rfl⟩ := Option.map_eq_some_iff.1 h
    obtain rfl := eq_of_asBytes htag hbytes
    have hkey := Protobuf.length_encode_blob_le 1 bytes
    dsimp only
    omega
  next htag =>
    obtain ⟨bytes, hbytes, h⟩ := Option.bind_eq_some_iff.1 h
    obtain ⟨c, hc, heq⟩ := Option.bind_eq_some_iff.1 h
    obtain rfl := Option.some.inj heq
    obtain rfl := eq_of_asBytes htag hbytes
    have hclaim : Protobuf.nestedLength 2 (claim.encode c).length ≤
        (Field.encode ⟨2, .bytes bytes⟩).length :=
      nestedLength_decode_le 2 grows_claim length_encode_claim_empty hc
    rw [← Protobuf.length_encode_bytes] at hclaim
    simp only [List.map_append, List.map_cons, List.map_nil, Protobuf.encodeFields_append,
      Protobuf.encodeFields_singleton, List.length_append]
    simp only [Schema.encode] at hclaim
    omega
  · obtain rfl := Option.some.inj h
    omega

/-- What a timestamp takes, of which negative nanoseconds are refused later. -/
def timestampWeight (m : Timestamp) : ℕ :=
  (Protobuf.encodeFields (uint 1 (toU64 m.seconds))).length +
    if 0 ≤ m.nanos then (Protobuf.encodeFields (uint 2 (toU64 m.nanos))).length else 0

theorem length_encode_varint_mono {tag m n : ℕ} (h : m ≤ n) :
    (Field.encode ⟨tag, .varint m⟩).length ≤ (Field.encode ⟨tag, .varint n⟩).length := by
  have hdigits := Protobuf.length_varint_le h
  simp only [Field.encode, List.length_append]
  omega

theorem length_encode_uint_le_of_le (tag : ℕ) {m n : ℕ} (h : m ≤ n) :
    (Protobuf.encodeFields (uint tag m)).length ≤ (Field.encode ⟨tag, .varint n⟩).length :=
  Nat.le_trans (Protobuf.length_encode_uint_le tag m) (length_encode_varint_mono h)

theorem grows_timestamp : timestamp.Grows timestampWeight := by
  intro limit m f m' h
  simp only [timestamp] at h
  split at h
  next htag =>
    obtain ⟨n, hn, rfl⟩ := Option.map_eq_some_iff.1 h
    obtain rfl := eq_of_asVarint htag hn
    have hseconds := length_encode_uint_le_of_le 1 (toU64_asI64_le n)
    simp only [timestampWeight]
    omega
  next htag =>
    obtain ⟨n, hn, rfl⟩ := Option.map_eq_some_iff.1 h
    obtain rfl := eq_of_asVarint htag hn
    simp only [timestampWeight]
    split_ifs with hnew hold
    · have hnanos := length_encode_uint_le_of_le 2 (toU64_asI32_le hnew)
      omega
    · have hnanos := length_encode_uint_le_of_le 2 (toU64_asI32_le hnew)
      omega
    · omega
    · omega
  · obtain rfl := Option.some.inj h
    omega

/-- What an introduction takes. -/
def introductionWeight (m : IntroductionMessage) : ℕ :=
  (Protobuf.encodeFields (uint 1 m.version)).length +
    repeatedLength 2 (fun i => (identity.encode i).length) m.issuer.toList +
    (Protobuf.encodeFields (blob 3 m.deviceSigningKey)).length +
    repeatedLength 4 (fun i => (identity.encode i).length) m.authenticatedIdentities +
    repeatedLength 5 (fun p => (party.encode p).length) m.parties +
    repeatedLength 6 timestampWeight m.issuedAt.toList

/-- A part that comes in a further field takes no more than the field. -/
theorem repeatedLength_mergeBytes_le (tag : ℕ) {M : Type} {s : Schema M} {weight : M → ℕ}
    (hgrows : s.Grows weight) (hempty : weight s.empty = 0) {limit : ℕ} {before : Option M} {m : M}
    {bytes : Bytes} (h : s.mergeBytes limit (before.getD s.empty) bytes = some m) :
    repeatedLength tag weight [m] ≤ repeatedLength tag weight before.toList +
      (Field.encode ⟨tag, .bytes bytes⟩).length := by
  have hweight := hgrows.mergeBytes h
  rw [Protobuf.length_encode_bytes]
  rcases before with _ | before
  · rw [Option.getD_none, hempty, Nat.zero_add] at hweight
    have hmono := Protobuf.nestedLength_mono tag hweight
    simpa [repeatedLength] using hmono
  · rw [Option.getD_some] at hweight
    have hmono := Protobuf.nestedLength_mono tag hweight
    have hadd := Protobuf.nestedLength_add_le tag (weight before) bytes.length
    simp only [repeatedLength, Option.toList_some, List.map_cons, List.map_nil, List.sum_cons,
      List.sum_nil]
    omega

theorem grows_introduction : introduction.Grows introductionWeight := by
  intro limit m f m' h
  simp only [introduction] at h
  split at h
  next htag =>
    obtain ⟨n, hn, rfl⟩ := Option.map_eq_some_iff.1 h
    obtain rfl := eq_of_asVarint htag hn
    have hversion := length_encode_uint_le_of_le 1 (Nat.mod_le n (2 ^ 32))
    simp only [introductionWeight]
    omega
  next htag =>
    obtain ⟨bytes, hbytes, h⟩ := Option.bind_eq_some_iff.1 h
    obtain ⟨i, hi, heq⟩ := Option.bind_eq_some_iff.1 h
    obtain rfl := Option.some.inj heq
    obtain rfl := eq_of_asBytes htag hbytes
    have hissuer := repeatedLength_mergeBytes_le 2 grows_identity rfl hi
    simp only [introductionWeight, Option.toList_some]
    omega
  next htag =>
    obtain ⟨bytes, hbytes, rfl⟩ := Option.map_eq_some_iff.1 h
    obtain rfl := eq_of_asBytes htag hbytes
    have hdevice := Protobuf.length_encode_blob_le 3 bytes
    simp only [introductionWeight]
    omega
  next htag =>
    obtain ⟨bytes, hbytes, h⟩ := Option.bind_eq_some_iff.1 h
    obtain ⟨i, hi, heq⟩ := Option.bind_eq_some_iff.1 h
    obtain rfl := Option.some.inj heq
    obtain rfl := eq_of_asBytes htag hbytes
    have hidentity := nestedLength_decode_le 4 grows_identity rfl hi
    simp only [introductionWeight, repeatedLength_append_singleton]
    omega
  next htag =>
    obtain ⟨bytes, hbytes, h⟩ := Option.bind_eq_some_iff.1 h
    obtain ⟨p, hp, heq⟩ := Option.bind_eq_some_iff.1 h
    obtain rfl := Option.some.inj heq
    obtain rfl := eq_of_asBytes htag hbytes
    have hparty := nestedLength_decode_le 5 grows_party rfl hp
    simp only [introductionWeight, repeatedLength_append_singleton]
    omega
  next htag =>
    obtain ⟨bytes, hbytes, h⟩ := Option.bind_eq_some_iff.1 h
    obtain ⟨time, htime, heq⟩ := Option.bind_eq_some_iff.1 h
    obtain rfl := Option.some.inj heq
    obtain rfl := eq_of_asBytes htag hbytes
    have hissuedAt := repeatedLength_mergeBytes_le 6 grows_timestamp rfl htime
    simp only [introductionWeight, Option.toList_some]
    omega
  · obtain rfl := Option.some.inj h
    omega

/-- An introduction that is read is not shorter than it is written. -/
theorem length_encode_introduction_le {limit : ℕ} {m : IntroductionMessage} {bytes : Bytes}
    (htime : ∀ time, m.issuedAt = some time → 0 ≤ time.nanos)
    (h : introduction.decode limit bytes = some m) :
    (introduction.encode m).length ≤ bytes.length := by
  have hweight := grows_introduction.mergeBytes h
  have hempty : introductionWeight introduction.empty = 0 := rfl
  rw [hempty, Nat.zero_add] at hweight
  refine Nat.le_trans (Nat.le_of_eq ?_) hweight
  simp only [Schema.encode, introduction, nested, Protobuf.encodeFields_append, List.length_append,
    introductionWeight]
  have htimestamp : repeatedLength 6 (fun time => (timestamp.encode time).length)
      m.issuedAt.toList = repeatedLength 6 timestampWeight m.issuedAt.toList := by
    rcases hissued : m.issuedAt with _ | time
    · rfl
    have hlength : (timestamp.encode time).length = timestampWeight time := by
      rw [Schema.encode, timestampWeight, if_pos (htime time hissued)]
      simp only [timestamp, Protobuf.encodeFields_append, List.length_append]
    simp only [repeatedLength, Option.toList_some, List.map_cons, List.map_nil, hlength]
  rw [← htimestamp]
  simp only [← length_encode_map]
  rfl

theorem length_encode_signed_le {limit : ℕ} {m : Signed} {bytes : Bytes}
    (h : signed.decode limit bytes = some m) : (signed.encode m).length ≤ bytes.length := by
  have hlength := grows_signed.mergeBytes h
  have hempty : (signed.encode signed.empty).length = 0 := rfl
  rwa [hempty, Nat.zero_add] at hlength

end Polyvisor.Contacts.Wire
