import Polyvisor.Engine.Snapshot

/-!
# Sealing

`Dek` of `kernel/src/seal.rs`: the data-encryption key and the authenticated encryption the
checkpoint rides under. `aes_gcm` is a parameter; what is relied on is that decrypting what was
encrypted under the same key, nonce and associated data gives the plaintext back.

The nonce is drawn per call by the caller of `seal` here, and put in front of the ciphertext,
so that a stored blob describes itself.
-/

namespace Polyvisor

/-- `ErrorCode`. -/
inductive ErrorCode where
  | unknownApp
  | unknownSession
  | unavailable
  | refused
  | notFound
  | failed
  deriving DecidableEq, Repr

/-- `Error`. -/
structure Error where
  code : ErrorCode
  message : String
  deriving DecidableEq, Repr

/-- `DEK_LEN`. -/
def dekLen : ℕ := 32

/-- `NONCE_LEN`. -/
def nonceLen : ℕ := 12

/-- Zeros make a nonce. -/
theorem length_zeros : (List.replicate nonceLen (0 : UInt8)).length = nonceLen :=
  List.length_replicate

/-- `[u8; NONCE_LEN]`. -/
structure Nonce where
  bytes : Bytes
  length_eq : bytes.length = nonceLen

/-- `Dek`. -/
structure Dek where
  key : Bytes
  length_eq : key.length = dekLen

/-- `aes_gcm::Aes256Gcm`: key, nonce, message, associated data. -/
structure Aead where
  encrypt : Bytes → Bytes → Bytes → Bytes → Option Bytes
  decrypt : Bytes → Bytes → Bytes → Bytes → Option Bytes

/-- What the seal relies on. -/
structure Aead.Lawful (aead : Aead) : Prop where
  /-- Decryption inverts encryption. -/
  decrypt_encrypt : ∀ {key nonce plain aad ct},
    aead.encrypt key nonce plain aad = some ct → aead.decrypt key nonce ct aad = some plain

/-- `unreadable`. -/
def unreadable : Error := ⟨.failed, "the sealed record did not open"⟩

/-- `decrypt`. -/
def Aead.decryptOr (aead : Aead) (key nonce ct aad : Bytes) : Except Error Bytes :=
  match aead.decrypt key nonce ct aad with
  | some plain => .ok plain
  | none => .error unreadable

/-- `encrypt`. -/
def Aead.encryptOr (aead : Aead) (key nonce plain aad : Bytes) : Except Error Bytes :=
  match aead.encrypt key nonce plain aad with
  | some ct => .ok ct
  | none => .error ⟨.failed, "the state could not be sealed"⟩

namespace Dek

/-- `Dek::decode`. -/
def decode (bytes : Bytes) : Except Error Dek :=
  if h : bytes.length = dekLen then .ok ⟨bytes, h⟩
  else .error ⟨.failed,
    "the stored data key is " ++ toString bytes.length ++ " bytes; it must be " ++
      toString dekLen⟩

/-- `Dek::seal`. -/
def sealed (aead : Aead) (dek : Dek) (nonce : Nonce) (plain aad : Bytes) : Except Error Bytes := do
  let ct ← aead.encryptOr dek.key nonce.bytes plain aad
  return nonce.bytes ++ ct

/-- `Dek::open`. -/
def opened (aead : Aead) (dek : Dek) (blob aad : Bytes) : Except Error Bytes :=
  if blob.length < nonceLen then .error unreadable
  else aead.decryptOr dek.key (blob.take nonceLen) (blob.drop nonceLen) aad

/-- Opening what was sealed gives the plaintext back. -/
theorem opened_sealed {aead : Aead} (haead : aead.Lawful) {dek : Dek} {nonce : Nonce}
    {plain aad blob : Bytes} (h : dek.sealed aead nonce plain aad = .ok blob) :
    dek.opened aead blob aad = .ok plain := by
  rw [sealed, Aead.encryptOr] at h
  rcases hct : aead.encrypt dek.key nonce.bytes plain aad with _ | ct
  · rw [hct] at h
    cases h
  rw [hct] at h
  obtain rfl : nonce.bytes ++ ct = blob := by
    simpa [bind, Except.bind, pure, Except.pure] using h
  have hlen : ¬ (nonce.bytes ++ ct).length < nonceLen := by
    rw [List.length_append, nonce.length_eq]
    omega
  -- the nonce goes in front, so the split recovers both halves
  rw [opened, if_neg hlen, List.take_left' nonce.length_eq, List.drop_left' nonce.length_eq,
    Aead.decryptOr, haead.decrypt_encrypt hct]

end Dek

/-- What a passphrase is turned into a key with: `aes_gcm`, and `derive_kek` over a salt. -/
structure Login where
  aead : Aead
  deriveKek : Bytes → Bytes → Except Error Bytes

/-- `WrappedDek`. -/
structure WrappedDek where
  salt : Bytes
  nonce : Bytes
  ct : Bytes
  deriving DecidableEq

namespace WrappedDek

/-- `WrappedDek::wrap`, with the salt and the nonce it draws. -/
def wrap (login : Login) (salt : Bytes) (nonce : Nonce) (dek : Dek) (passphrase id : Bytes) :
    Except Error WrappedDek := do
  let kek ← login.deriveKek passphrase salt
  let ct ← login.aead.encryptOr kek nonce.bytes dek.key id
  return { salt, nonce := nonce.bytes, ct }

/-- `WrappedDek::unwrap_with`. -/
def unwrapWith (login : Login) (wrapped : WrappedDek) (passphrase id : Bytes) :
    Except Error Dek := do
  let kek ← login.deriveKek passphrase wrapped.salt
  if wrapped.nonce.length ≠ nonceLen then throw unreadable
  let plain ← login.aead.decryptOr kek wrapped.nonce wrapped.ct id
  Dek.decode plain

/-- A wrapped key opens under the passphrase it was wrapped under. -/
theorem unwrapWith_wrap {login : Login} (haead : login.aead.Lawful) {salt : Bytes} {nonce : Nonce}
    {dek : Dek} {passphrase id : Bytes} {wrapped : WrappedDek}
    (h : wrap login salt nonce dek passphrase id = .ok wrapped) :
    wrapped.unwrapWith login passphrase id = .ok dek := by
  rw [wrap] at h
  rcases hkek : login.deriveKek passphrase salt with e | kek <;> rw [hkek] at h
  · exact nomatch h
  rcases hct : login.aead.encrypt kek nonce.bytes dek.key id with _ | ct
  · simp [Aead.encryptOr, hct, bind, Except.bind] at h
  obtain rfl : (⟨salt, nonce.bytes, ct⟩ : WrappedDek) = wrapped := by
    simpa [Aead.encryptOr, hct, bind, Except.bind, pure, Except.pure] using h
  have hdecode : Dek.decode dek.key = .ok dek := dif_pos dek.length_eq
  simp [unwrapWith, hkek, nonce.length_eq, Aead.decryptOr, haead.decrypt_encrypt hct, bind,
    Except.bind, hdecode]

end WrappedDek

end Polyvisor
