import Mathlib.Data.Option.Basic
import Polyvisor.Lib.Aead
import Polyvisor.Lib.BigEndian
import Polyvisor.Lib.Fields
import Polyvisor.Lib.Text

/-!
# Root backups

`root_backup.rs`: the envelope of a root seed under a key derived from a passphrase. Preparing
compares the header with what is expected; opening has the whole header as associated data and
compares the seed's public key with the root. `none` is `Error`, which says nothing more.

## Main results

* `prepareDecrypt_eq_some`: an envelope is prepared iff it has the header for the root and group.
* `openBackup_eq_some`: it opens iff `encrypt` makes it of the seed, for a salt and a nonce.
* `opens_exactly`: round trip, and what an ideal cipher refuses.
-/

namespace Polyvisor.RootBackup

open Fields

abbrev Bytes := List UInt8

/-! ## The format -/

/-- `MAGIC`. -/
def magic : Bytes := utf8 "PVROOTBK"

/-- `VERSION`. -/
def version : UInt8 := 1

/-- `KDF_ARGON2ID_V19`. -/
def kdfArgon2idV19 : UInt8 := 1

/-- `ARGON2_MEMORY_KIB`. -/
def argon2MemoryKib : ℕ := 64 * 1024

/-- `ARGON2_TIME_COST`. -/
def argon2TimeCost : ℕ := 3

/-- `ARGON2_LANES`. -/
def argon2Lanes : ℕ := 1

/-- `HEADER_LEN`. -/
def headerLen : ℕ := 8 + 1 + 1 + 4 + 4 + 4 + 32 + 32 + 16 + 12

/-- `ENCODED_LEN`. -/
def encodedLen : ℕ := headerLen + 32 + 16

/-- The header, field by field. -/
def headerFields (root group : Block 32) (salt : Block 16) (nonce : Block 12) : List Bytes :=
  [magic, [version], [kdfArgon2idV19], BigEndian.toBytes 4 argon2MemoryKib,
    BigEndian.toBytes 4 argon2TimeCost, BigEndian.toBytes 4 argon2Lanes, root.toList, group.toList,
    salt.toList, nonce.toList]

def header (root group : Block 32) (salt : Block 16) (nonce : Block 12) : Bytes :=
  (headerFields root group salt nonce).flatten

/-- The widths of the header's fields. -/
def widths : List ℕ := [8, 1, 1, 4, 4, 4, 32, 32, 16, 12]

theorem map_length_headerFields (root group : Block 32) (salt : Block 16) (nonce : Block 12) :
    (headerFields root group salt nonce).map List.length = widths := by
  have hmagic : magic.length = 8 := by decide +kernel
  simp only [headerFields, List.map_cons, List.map_nil, hmagic, List.length_singleton,
    BigEndian.length_toBytes, List.Vector.toList_length, widths]

theorem length_header (root group : Block 32) (salt : Block 16) (nonce : Block 12) :
    (header root group salt nonce).length = headerLen := by
  rw [header, List.length_flatten, map_length_headerFields]
  rfl

/-- What the module takes from `ed25519_dalek` and `aes_gcm`. -/
structure Primitives where
  /-- `SigningKey::from_bytes(seed).verifying_key()`. -/
  verifyingKey : Block 32 → Block 32
  cipher : Cipher (Block 32)

/-- `PreparedEncryption`. -/
structure PreparedEncryption where
  header : Block headerLen

/-- `PreparedDecryption`. -/
structure PreparedDecryption where
  envelope : Block encodedLen

/-- `prepare_encrypt`. -/
def prepareEncrypt (f : Primitives) (seed group : Block 32) (salt : Block 16) (nonce : Block 12) :
    PreparedEncryption where
  header := ⟨header (f.verifyingKey seed) group salt nonce, length_header _ _ _ _⟩

/-- `encrypt`. -/
def encrypt (f : Primitives) (prepared : PreparedEncryption) (seed key : Block 32) :
    Option Bytes := do
  let header := prepared.header.toList
  guard ((f.verifyingKey seed).toList = slice header 22 54)
  let nonce := slice header 102 114
  let ciphertext ← f.cipher.encrypt key nonce header seed.toList
  return header ++ ciphertext

/-- `prepare_decrypt`. -/
def prepareDecrypt (expectedRoot expectedGroup : Block 32) (envelope : Bytes) :
    Option PreparedDecryption := do
  let envelope ← asBlock encodedLen envelope
  let bytes := envelope.toList
  guard (slice bytes 0 8 = magic)
  guard (bytes.getD 8 0 = version)
  guard (bytes.getD 9 0 = kdfArgon2idV19)
  guard (BigEndian.ofBytes (slice bytes 10 14) = argon2MemoryKib)
  guard (BigEndian.ofBytes (slice bytes 14 18) = argon2TimeCost)
  guard (BigEndian.ofBytes (slice bytes 18 22) = argon2Lanes)
  guard (slice bytes 22 54 = expectedRoot.toList)
  guard (slice bytes 54 86 = expectedGroup.toList)
  return ⟨envelope⟩

/-- `decrypt`. -/
def decrypt (f : Primitives) (prepared : PreparedDecryption) (key : Block 32) :
    Option (Block 32) := do
  let envelope := prepared.envelope.toList
  let nonce := slice envelope 102 headerLen
  let plaintext ← f.cipher.decrypt key nonce (slice envelope 0 headerLen) (envelope.drop headerLen)
  let seed ← asBlock 32 plaintext
  guard ((f.verifyingKey seed).toList = slice envelope 22 54)
  return seed

/-- Both phases of opening a backup. -/
def openBackup (f : Primitives) (root group key : Block 32) (envelope : Bytes) :
    Option (Block 32) :=
  (prepareDecrypt root group envelope).bind fun prepared => decrypt f prepared key

/-! ## The fields of an envelope -/

/-- The fields of an envelope, by their offsets. -/
theorem cut_envelope {bytes : Bytes} (h : bytes.length = 162) :
    cut (widths ++ [48]) bytes = [slice bytes 0 8, [bytes.getD 8 0], [bytes.getD 9 0],
      slice bytes 10 14, slice bytes 14 18, slice bytes 18 22, slice bytes 22 54, slice bytes 54 86,
      slice bytes 86 102, slice bytes 102 114, bytes.drop 114] := by
  have hversion : (bytes.drop 8).take 1 = [bytes.getD 8 0] := take_one_drop (by omega)
  have hkdf : (bytes.drop 9).take 1 = [bytes.getD 9 0] := take_one_drop (by omega)
  have hrest : (bytes.drop 114).take 48 = bytes.drop 114 :=
    List.take_of_length_le (by rw [List.length_drop]; omega)
  simp only [widths, List.cons_append, List.nil_append, cut, List.drop_drop, slice, hversion, hkdf,
    hrest, List.drop_zero]

/-- An envelope is a header and 48 bytes exactly if its fields are those of the header. -/
theorem eq_header_append {bytes : Bytes} (h : bytes.length = 162) {root group : Block 32}
    {salt : Block 16} {nonce : Block 12} {ct : Bytes} (hct : ct.length = 48) :
    bytes = header root group salt nonce ++ ct ↔
      cut (widths ++ [48]) bytes = headerFields root group salt nonce ++ [ct] := by
  have hlengths : (headerFields root group salt nonce ++ [ct]).map List.length =
      widths ++ [48] := by
    rw [List.map_append, map_length_headerFields, List.map_singleton, hct]
  have hflatten : header root group salt nonce ++ ct =
      (headerFields root group salt nonce ++ [ct]).flatten := by
    rw [List.flatten_append, List.flatten_singleton, header]
  constructor
  · rintro rfl
    rw [hflatten, ← hlengths, cut_flatten]
  · intro hcut
    rw [hflatten, ← hcut, flatten_cut h]

theorem ofBytes_slice {bytes : Bytes} {i n : ℕ} (h : i + 4 ≤ bytes.length) (hn : n < 256 ^ 4) :
    BigEndian.ofBytes (slice bytes i (i + 4)) = n ↔
      slice bytes i (i + 4) = BigEndian.toBytes 4 n := by
  have hlength : (slice bytes i (i + 4)).length = 4 := by
    rw [length_slice h]
    omega
  constructor
  · rintro rfl
    have hdigits := BigEndian.toBytes_ofBytes (slice bytes i (i + 4))
    rw [hlength] at hdigits
    exact hdigits.symm
  · intro heq
    rw [heq, BigEndian.ofBytes_toBytes_of_lt hn]

/-- An envelope is prepared iff its header is the one for the root and the group, with any salt and
nonce. -/
theorem prepareDecrypt_eq_some {root group : Block 32} {envelope : Bytes}
    {prepared : PreparedDecryption} : prepareDecrypt root group envelope = some prepared ↔
      prepared.envelope.toList = envelope ∧ ∃ salt nonce ct, ct.length = 48 ∧
        envelope = header root group salt nonce ++ ct := by
  simp only [prepareDecrypt, Option.bind_eq_bind, Option.bind_eq_some_iff, Option.guard_eq_some',
    asBlock_eq_some, Option.pure_def, Option.some_inj]
  constructor
  · rintro ⟨block, rfl, -, hmagic, -, hversion, -, hkdf, -, hmemory, -, htime, -, hlanes, -, hroot,
      -, hgroup, rfl⟩
    have hlength : block.toList.length = 162 := List.Vector.toList_length block
    have hsalt : (slice block.toList 86 102).length = 16 := length_slice (by omega)
    have hnonce : (slice block.toList 102 114).length = 12 := length_slice (by omega)
    have hct : (block.toList.drop 114).length = 48 := by rw [List.length_drop, hlength]
    refine ⟨rfl, ⟨_, hsalt⟩, ⟨_, hnonce⟩, block.toList.drop 114, hct, ?_⟩
    refine (eq_header_append hlength hct).2 ?_
    rw [cut_envelope hlength, hmagic,
      hversion, hkdf, (ofBytes_slice (by omega) (by decide)).1 hmemory,
      (ofBytes_slice (by omega) (by decide)).1 htime,
      (ofBytes_slice (by omega) (by decide)).1 hlanes, hroot, hgroup]
    rfl
  · rintro ⟨hbytes, salt, nonce, ct, hct, henvelope⟩
    have hlength : prepared.envelope.toList.length = 162 := List.Vector.toList_length _
    have henvelope := (eq_header_append hlength hct).1 (hbytes.trans henvelope)
    rw [cut_envelope hlength] at henvelope
    simp only [headerFields, List.cons_append, List.nil_append, List.cons.injEq, and_true]
      at henvelope
    obtain ⟨hmagic, hversion, hkdf, hmemory, htime, hlanes, hroot, hgroup, -, -, -⟩ := henvelope
    exact ⟨prepared.envelope, hbytes, (), hmagic, (), hversion, (), hkdf, (),
      (ofBytes_slice (by omega) (by decide)).2 hmemory, (),
      (ofBytes_slice (by omega) (by decide)).2 htime, (),
      (ofBytes_slice (by omega) (by decide)).2 hlanes, (), hroot, (), hgroup, rfl⟩

/-! ## Sealing and opening -/

variable {f : Primitives} {root group key seed : Block 32} {salt : Block 16} {nonce : Block 12}
  {envelope : Bytes}

theorem slice_root (rest : Bytes) :
    slice (header root group salt nonce ++ rest) 22 54 = root.toList := by
  have hsplit : header root group salt nonce ++ rest =
      [magic, [version], [kdfArgon2idV19], BigEndian.toBytes 4 argon2MemoryKib,
        BigEndian.toBytes 4 argon2TimeCost, BigEndian.toBytes 4 argon2Lanes].flatten ++
        (root.toList ++ (group.toList ++ salt.toList ++ nonce.toList ++ rest)) := by
    simp [header, headerFields]
  rw [hsplit]
  apply slice_append
  · decide +kernel
  · rw [List.Vector.toList_length]

theorem slice_nonce (rest : Bytes) :
    slice (header root group salt nonce ++ rest) 102 114 = nonce.toList := by
  have hsplit : header root group salt nonce ++ rest =
      ([magic, [version], [kdfArgon2idV19], BigEndian.toBytes 4 argon2MemoryKib,
        BigEndian.toBytes 4 argon2TimeCost, BigEndian.toBytes 4 argon2Lanes].flatten ++
          (root.toList ++ group.toList ++ salt.toList)) ++ (nonce.toList ++ rest) := by
    simp [header, headerFields]
  have hfront : [magic, [version], [kdfArgon2idV19], BigEndian.toBytes 4 argon2MemoryKib,
      BigEndian.toBytes 4 argon2TimeCost, BigEndian.toBytes 4 argon2Lanes].flatten.length = 22 := by
    decide +kernel
  rw [hsplit]
  apply slice_append
  · simp only [List.length_append, hfront, List.Vector.toList_length]
  · rw [List.Vector.toList_length]

theorem slice_header (rest : Bytes) :
    slice (header root group salt nonce ++ rest) 0 114 = header root group salt nonce := by
  rw [slice, List.drop_zero]
  exact List.take_left' (length_header root group salt nonce)

theorem drop_header (rest : Bytes) :
    (header root group salt nonce ++ rest).drop 114 = rest :=
  List.drop_left' (length_header root group salt nonce)

/-- The header says which root and group it is for. -/
theorem header_inj {root' group' : Block 32} {salt' : Block 16} {nonce' : Block 12} :
    header root group salt nonce = header root' group' salt' nonce' ↔
      root = root' ∧ group = group' ∧ salt = salt' ∧ nonce = nonce' := by
  constructor
  · intro h
    have hcut := congrArg (cut widths) h
    rw [header, header, ← map_length_headerFields root group salt nonce, cut_flatten,
      map_length_headerFields, ← map_length_headerFields root' group' salt' nonce', cut_flatten]
      at hcut
    simp only [headerFields, List.cons.injEq, true_and, and_true] at hcut
    obtain ⟨hroot, hgroup, hsalt, hnonce⟩ := hcut
    exact ⟨List.Vector.eq _ _ hroot, List.Vector.eq _ _ hgroup, List.Vector.eq _ _ hsalt,
      List.Vector.eq _ _ hnonce⟩
  · rintro ⟨rfl, rfl, rfl, rfl⟩
    rfl

/-- The encryption that `encrypt` makes. -/
def sealing (f : Primitives) (seed group : Block 32) (salt : Block 16) (nonce : Block 12)
    (key : Block 32) : Cipher.Sealing (Block 32) where
  key := key
  nonce := nonce.toList
  aad := header (f.verifyingKey seed) group salt nonce
  message := seed.toList

theorem encrypt_eq_some :
    encrypt f (prepareEncrypt f seed group salt nonce) seed key = some envelope ↔
      ∃ ct, f.cipher.sealed (sealing f seed group salt nonce key) = some ct ∧
        envelope = header (f.verifyingKey seed) group salt nonce ++ ct := by
  have hroot : slice (header (f.verifyingKey seed) group salt nonce) 22 54 =
      (f.verifyingKey seed).toList := by
    rw [← List.append_nil (header _ _ _ _), slice_root]
  have hnonce : slice (header (f.verifyingKey seed) group salt nonce) 102 114 = nonce.toList := by
    rw [← List.append_nil (header _ _ _ _), slice_nonce]
  have hprepared : (prepareEncrypt f seed group salt nonce).header.toList =
      header (f.verifyingKey seed) group salt nonce := rfl
  simp only [encrypt, Option.bind_eq_bind, Option.bind_eq_some_iff, Option.guard_eq_some',
    Option.pure_def, Option.some_inj, hprepared, hroot, hnonce]
  constructor
  · rintro ⟨-, -, ct, hct, rfl⟩
    exact ⟨ct, hct, rfl⟩
  · rintro ⟨ct, hct, rfl⟩
    exact ⟨(), trivial, ct, hct, rfl⟩

/-- A prepared envelope opens to the seeds that it seals and that have its root. -/
theorem decrypt_eq_some (hcipher : f.cipher.Lawful 16 (2 ^ 36)) {prepared : PreparedDecryption}
    {ct : Bytes} (h : prepared.envelope.toList = header root group salt nonce ++ ct) :
    decrypt f prepared key = some seed ↔ f.verifyingKey seed = root ∧
      f.cipher.encrypt key nonce.toList (header root group salt nonce) seed.toList = some ct := by
  have hlen : headerLen = 114 := rfl
  simp only [decrypt, Option.bind_eq_bind, Option.bind_eq_some_iff, Option.guard_eq_some',
    asBlock_eq_some, Option.pure_def, Option.some_inj, h, hlen, slice_root, slice_nonce,
    slice_header, drop_header, hcipher.decrypt_eq_some]
  constructor
  · rintro ⟨_, hct, _, rfl, -, hroot, rfl⟩
    exact ⟨List.Vector.eq _ _ hroot, hct⟩
  · rintro ⟨rfl, hct⟩
    exact ⟨_, hct, seed, rfl, (), rfl, rfl⟩

/-- An envelope opens for a root and a group exactly if `encrypt` makes it of a seed of that root
for that group. -/
theorem openBackup_eq_some (hcipher : f.cipher.Lawful 16 (2 ^ 36)) :
    openBackup f root group key envelope = some seed ↔ f.verifyingKey seed = root ∧
      ∃ salt nonce, encrypt f (prepareEncrypt f seed group salt nonce) seed key =
        some envelope := by
  rw [openBackup, Option.bind_eq_some_iff]
  constructor
  · rintro ⟨prepared, hprepared, hdecrypt⟩
    obtain ⟨hbytes, salt, nonce, ct, -, rfl⟩ := prepareDecrypt_eq_some.1 hprepared
    obtain ⟨rfl, hct⟩ := (decrypt_eq_some hcipher hbytes).1 hdecrypt
    exact ⟨rfl, salt, nonce, encrypt_eq_some.2 ⟨ct, hct, rfl⟩⟩
  · rintro ⟨rfl, salt, nonce, hencrypt⟩
    obtain ⟨ct, hct, rfl⟩ := encrypt_eq_some.1 hencrypt
    have hseed : (sealing f seed group salt nonce key).message.length = 32 :=
      List.Vector.toList_length seed
    have hctLength : ct.length = 48 := by
      rw [hcipher.length_of_encrypt (hseed.trans_le (by decide)) hct, hseed]
    have hlength : (header (f.verifyingKey seed) group salt nonce ++ ct).length = encodedLen := by
      rw [List.length_append, length_header, hctLength]
      rfl
    refine ⟨⟨⟨_, hlength⟩⟩, prepareDecrypt_eq_some.2 ⟨rfl, salt, nonce, ct, hctLength, rfl⟩, ?_⟩
    exact (decrypt_eq_some hcipher rfl).2 ⟨rfl, hct⟩

/-! ## What an ideal cipher refuses -/

/-- The envelope of an encryption. -/
def envelopeOf (f : Primitives) (s : Cipher.Sealing (Block 32)) : Option Bytes :=
  (f.cipher.sealed s).map (s.aad ++ ·)

/-- What an opener of these envelopes hands to the cipher. -/
def handedOver (envelopes : Set Bytes) : Set (Bytes × Bytes × Bytes) :=
  (fun envelope => (slice envelope 102 114, slice envelope 0 114, envelope.drop 114)) '' envelopes

theorem encrypt_eq_envelopeOf :
    encrypt f (prepareEncrypt f seed group salt nonce) seed key =
      envelopeOf f (sealing f seed group salt nonce key) := by
  apply Option.ext
  intro envelope
  rw [encrypt_eq_some, envelopeOf, Option.map_eq_some_iff]
  constructor
  · rintro ⟨ct, hct, rfl⟩
    exact ⟨ct, hct, rfl⟩
  · rintro ⟨ct, hct, rfl⟩
    exact ⟨ct, hct, rfl⟩

/-- What opens is the envelope of an encryption that was made with the key. -/
theorem mem_made_of_openBackup (hcipher : f.cipher.Lawful 16 (2 ^ 36))
    {made : Set (Cipher.Sealing (Block 32))} {envelopes : Set Bytes}
    (hauthentic : f.cipher.Authentic made (handedOver envelopes)) (hgiven : envelope ∈ envelopes)
    (h : openBackup f root group key envelope = some seed) :
    ∃ s ∈ made, s.key = key ∧ envelopeOf f s = some envelope := by
  obtain ⟨-, salt, nonce, hencrypt⟩ := (openBackup_eq_some hcipher).1 h
  obtain ⟨ct, hct, rfl⟩ := encrypt_eq_some.1 hencrypt
  refine ⟨sealing f seed group salt nonce key, ?_, rfl, ?_⟩
  · have hopens := hcipher.decrypt_of_encrypt hct
    refine hauthentic _ _ _ _ ⟨_, hgiven, ?_⟩ _ hopens
    simp only [slice_nonce, slice_header, drop_header]
  · rw [envelopeOf, hct]
    rfl

/-- A backup opens with its key for its root and group. Under another root or group it is not
prepared, and under another key it does not open. No other envelope that is handed over opens with
the key, if the key sealed nothing else; otherwise none but those that it sealed. Whatever opens has
the expected root. -/
theorem opens_exactly (hcipher : f.cipher.Lawful 16 (2 ^ 36))
    {made : Set (Cipher.Sealing (Block 32))} (hseparates : f.cipher.Separates made)
    {envelopes : Set Bytes} (hauthentic : f.cipher.Authentic made (handedOver envelopes)) :
    (∀ seed group salt nonce key, ∃ envelope,
      encrypt f (prepareEncrypt f seed group salt nonce) seed key = some envelope ∧
        openBackup f (f.verifyingKey seed) group key envelope = some seed ∧
        (∀ root' group', root' ≠ f.verifyingKey seed ∨ group' ≠ group →
          prepareDecrypt root' group' envelope = none) ∧
        (sealing f seed group salt nonce key ∈ made → ∀ key', key' ≠ key →
          openBackup f (f.verifyingKey seed) group key' envelope = none) ∧
        ((∀ s ∈ made, s.key = key → s = sealing f seed group salt nonce key) →
          ∀ envelope' ∈ envelopes, envelope' ≠ envelope → ∀ root' group',
            openBackup f root' group' key envelope' = none)) ∧
      (∀ key, ∀ envelope ∈ envelopes,
        (∀ s ∈ made, s.key = key → envelopeOf f s ≠ some envelope) →
          ∀ root group, openBackup f root group key envelope = none) ∧
      ∀ {root group envelope prepared key seed},
        prepareDecrypt root group envelope = some prepared →
        decrypt f prepared key = some seed → f.verifyingKey seed = root := by
  have hunsealed : ∀ key, ∀ envelope ∈ envelopes,
      (∀ s ∈ made, s.key = key → envelopeOf f s ≠ some envelope) →
        ∀ root group, openBackup f root group key envelope = none := by
    intro key envelope hgiven hunmade root group
    rw [Option.eq_none_iff_forall_ne_some]
    intro seed hopen
    obtain ⟨s, hmade, hkey, henvelope⟩ := mem_made_of_openBackup hcipher hauthentic hgiven hopen
    exact hunmade s hmade hkey henvelope
  refine ⟨fun seed group salt nonce key => ?_, hunsealed,
    fun {root group envelope prepared key seed} hprepared hdecrypt => ?_⟩
  · have hseed : (sealing f seed group salt nonce key).message.length = 32 :=
      List.Vector.toList_length seed
    obtain ⟨ct, hct, -⟩ := hcipher.encrypts key nonce.toList
      (header (f.verifyingKey seed) group salt nonce) (hseed.trans_le (by decide))
    have hencrypt : encrypt f (prepareEncrypt f seed group salt nonce) seed key =
        some (header (f.verifyingKey seed) group salt nonce ++ ct) :=
      encrypt_eq_some.2 ⟨ct, hct, rfl⟩
    refine ⟨_, hencrypt, (openBackup_eq_some hcipher).2 ⟨rfl, salt, nonce, hencrypt⟩,
      fun root' group' hother => ?_, fun hmade key' hne => ?_,
      fun honly envelope' hgiven hne =>
        hunsealed key envelope' hgiven fun s hs hkey henvelope => ?_⟩
    · rw [Option.eq_none_iff_forall_ne_some]
      intro prepared hprepared
      -- the header names its root and group
      obtain ⟨-, salt', nonce', ct', -, heq⟩ := prepareDecrypt_eq_some.1 hprepared
      have hheaders := (List.append_inj heq
        ((length_header _ _ _ _).trans (length_header _ _ _ _).symm)).1
      obtain ⟨hroot, hgroup, -, -⟩ := header_inj.1 hheaders
      rcases hother with hother | hother
      · exact hother hroot.symm
      · exact hother hgroup.symm
    · rw [Option.eq_none_iff_forall_ne_some]
      intro seed' hopen
      obtain ⟨-, salt', nonce', hencrypt'⟩ := (openBackup_eq_some hcipher).1 hopen
      obtain ⟨ct', hct', heq⟩ := encrypt_eq_some.1 hencrypt'
      have hcts := (List.append_inj heq
        ((length_header _ _ _ _).trans (length_header _ _ _ _).symm)).2
      have hopens : f.cipher.decrypt key' nonce'.toList
          (header (f.verifyingKey seed') group salt' nonce') ct' = some seed'.toList :=
        hcipher.decrypt_of_encrypt hct'
      rw [← hcts, hseparates _ hmade _ hct _ hne] at hopens
      exact nomatch hopens
    · rw [honly s hs hkey, ← encrypt_eq_envelopeOf, hencrypt] at henvelope
      exact hne (Option.some.inj henvelope).symm
  · obtain ⟨hbytes, salt, nonce, ct, -, rfl⟩ := prepareDecrypt_eq_some.1 hprepared
    exact ((decrypt_eq_some hcipher hbytes).1 hdecrypt).1

/-! ## A backup that is opened, and one that was damaged -/

/-- Primitives under which seeds are their own public keys and one key has a tag of its own. -/
def samplePrimitives : Primitives where
  verifyingKey seed := seed
  cipher := Cipher.tagged (2 ^ 36) fun key =>
    List.Vector.replicate 16 (if key = List.Vector.replicate 32 0 then 1 else 0)

/-- A seed's header. -/
def sampleHeader : Bytes :=
  header (List.Vector.replicate 32 7) (List.Vector.replicate 32 11) (List.Vector.replicate 16 13)
    (List.Vector.replicate 12 17)

/-- The last byte of the tag is another. -/
def damaged : Bytes :=
  sampleHeader ++ (List.replicate 32 7 ++ (List.replicate 15 1 ++ [2]))

theorem decrypt_damaged (k : Block 32) (n a : Bytes) :
    samplePrimitives.cipher.decrypt k n a (damaged.drop 114) = none := by
  have hdrop : damaged.drop 114 = List.replicate 32 7 ++ (List.replicate 15 1 ++ [2]) :=
    drop_header _
  rw [hdrop]
  refine if_neg fun hopens => ?_
  obtain ⟨-, -, htag⟩ := hopens
  have hlast := congrArg List.getLast? htag
  by_cases hk : k = List.Vector.replicate 32 0
  · simp only [if_pos hk] at hlast
    exact absurd hlast (by decide)
  · simp only [if_neg hk] at hlast
    exact absurd hlast (by decide)

theorem opens_exactly_sample : ∃ envelope,
    openBackup samplePrimitives (List.Vector.replicate 32 7) (List.Vector.replicate 32 11)
        (List.Vector.replicate 32 0) envelope = some (List.Vector.replicate 32 7) ∧
      openBackup samplePrimitives (List.Vector.replicate 32 7) (List.Vector.replicate 32 11)
        (List.Vector.replicate 32 1) envelope = none ∧
      openBackup samplePrimitives (List.Vector.replicate 32 7) (List.Vector.replicate 32 11)
        (List.Vector.replicate 32 0) damaged = none := by
  let made : Set (Cipher.Sealing (Block 32)) :=
    {sealing samplePrimitives (List.Vector.replicate 32 7) (List.Vector.replicate 32 11)
      (List.Vector.replicate 16 13) (List.Vector.replicate 12 17) (List.Vector.replicate 32 0)}
  have hseparates : samplePrimitives.cipher.Separates made := by
    apply Cipher.separates_tagged
    rintro s rfl k hk heq
    have hk : k ≠ List.Vector.replicate 32 0 := hk
    simp only [sealing, if_neg hk, if_true] at heq
    exact absurd (congrArg List.Vector.head heq) (by decide)
  have hauthentic : samplePrimitives.cipher.Authentic made (handedOver {damaged}) := by
    rintro k n a c ⟨envelope, rfl, heq⟩ m hm
    obtain ⟨-, heq⟩ := Prod.mk.inj heq
    obtain ⟨-, rfl⟩ := Prod.mk.inj heq
    rw [decrypt_damaged] at hm
    exact nomatch hm
  obtain ⟨hround, -, -⟩ := opens_exactly (Cipher.lawful_tagged _ _) hseparates hauthentic
  obtain ⟨envelope, hencrypt, hopens, -, hkey, honly⟩ := hround (List.Vector.replicate 32 7)
    (List.Vector.replicate 32 11) (List.Vector.replicate 16 13) (List.Vector.replicate 12 17)
    (List.Vector.replicate 32 0)
  refine ⟨envelope, hopens, hkey rfl _ (by decide), honly (fun s hs _ => hs) damaged rfl ?_ _ _⟩
  rintro rfl
  -- the envelope itself opens
  rw [openBackup, Option.bind_eq_some_iff] at hopens
  obtain ⟨prepared, hprepared, hdecrypt⟩ := hopens
  obtain ⟨hbytes, -⟩ := prepareDecrypt_eq_some.1 hprepared
  rw [decrypt, hbytes] at hdecrypt
  have hlen : headerLen = 114 := rfl
  simp only [hlen, decrypt_damaged] at hdecrypt
  exact nomatch hdecrypt

end Polyvisor.RootBackup
