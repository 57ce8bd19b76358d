import Mathlib.Data.Set.Basic
import Mathlib.Data.Vector.Basic

/-!
# Authenticated ciphers

What a format relies on that seals what it carries. A cipher here is deterministic: the nonce is an
argument.

* `Cipher.Lawful`: decrypting is the inverse of encrypting under the same key, nonce and associated
  data, in both directions.
* `Cipher.Separates`: what was sealed under one key opens under no other.
* `Cipher.Authentic`: of the ciphertexts that are handed over, those open that were sealed.
* `Cipher.tagged`: a cipher that hides nothing and puts a tag behind the message. `lawful_tagged`.
-/

/-- An authenticated cipher with associated data. -/
structure Cipher (Key : Type) where
  /-- Key, nonce, associated data, message. It fails on a message that is too long. -/
  encrypt : Key → List UInt8 → List UInt8 → List UInt8 → Option (List UInt8)
  /-- Key, nonce, associated data, ciphertext. -/
  decrypt : Key → List UInt8 → List UInt8 → List UInt8 → Option (List UInt8)

namespace Cipher

variable {Key : Type}

/-- One encryption. -/
structure Sealing (Key : Type) where
  key : Key
  nonce : List UInt8
  aad : List UInt8
  message : List UInt8

/-- The ciphertext of an encryption. -/
def sealed (cipher : Cipher Key) (s : Sealing Key) : Option (List UInt8) :=
  cipher.encrypt s.key s.nonce s.aad s.message

/-- A cipher that adds a tag of `overhead` bytes to messages of up to `limit` bytes. -/
structure Lawful (cipher : Cipher Key) (overhead limit : ℕ) : Prop where
  encrypts : ∀ k n a {m : List UInt8}, m.length ≤ limit →
    ∃ c, cipher.encrypt k n a m = some c ∧ c.length = m.length + overhead
  decrypt_eq_some : ∀ {k n a c m}, cipher.decrypt k n a c = some m ↔ cipher.encrypt k n a m = some c

/-- What was sealed under one key opens under no other, whatever is claimed to go with it. -/
def Separates (cipher : Cipher Key) (made : Set (Sealing Key)) : Prop :=
  ∀ s ∈ made, ∀ c, cipher.sealed s = some c → ∀ k, k ≠ s.key → ∀ n a, cipher.decrypt k n a c = none

/-- What opens of the ciphertexts handed over, each with its nonce and associated data, had been
sealed. -/
def Authentic (cipher : Cipher Key) (made : Set (Sealing Key))
    (given : Set (List UInt8 × List UInt8 × List UInt8)) : Prop :=
  ∀ k n a c, (n, a, c) ∈ given → ∀ m, cipher.decrypt k n a c = some m → ⟨k, n, a, m⟩ ∈ made

variable {cipher : Cipher Key} {overhead limit : ℕ}

theorem Lawful.decrypt_of_encrypt (h : cipher.Lawful overhead limit) {k : Key}
    {n a m c : List UInt8} (hc : cipher.encrypt k n a m = some c) :
    cipher.decrypt k n a c = some m :=
  h.decrypt_eq_some.2 hc

theorem Lawful.length_of_encrypt (h : cipher.Lawful overhead limit) {k : Key}
    {n a m c : List UInt8} (hm : m.length ≤ limit) (hc : cipher.encrypt k n a m = some c) :
    c.length = m.length + overhead := by
  obtain ⟨c', hc', hlength⟩ := h.encrypts k n a hm
  rwa [Option.some.inj (hc.symm.trans hc')]

/-! ## A cipher of that kind -/

/-- The message in the clear, and a tag of 16 bytes behind it. -/
def tagged (limit : ℕ) (tag : Key → List.Vector UInt8 16) : Cipher Key where
  encrypt k _ _ m := if m.length ≤ limit then some (m ++ (tag k).toList) else none
  decrypt k _ _ c :=
    if 16 ≤ c.length ∧ c.length ≤ limit + 16 ∧ c.drop (c.length - 16) = (tag k).toList then
      some (c.take (c.length - 16))
    else none

theorem lawful_tagged (limit : ℕ) (tag : Key → List.Vector UInt8 16) :
    (tagged limit tag).Lawful 16 limit where
  encrypts := fun k _ _ m hm => by
    refine ⟨m ++ (tag k).toList, if_pos hm, ?_⟩
    rw [List.length_append, List.Vector.toList_length]
  decrypt_eq_some := by
    intro k n a c m
    have htag : (tag k).toList.length = 16 := List.Vector.toList_length _
    constructor
    · intro h
      simp only [tagged] at h
      split_ifs at h with hopens
      obtain ⟨hlong, hshort, hdrop⟩ := hopens
      obtain rfl := Option.some.inj h
      have hlength : (c.take (c.length - 16)).length ≤ limit := by
        rw [List.length_take]
        omega
      simp only [tagged]
      rw [if_pos hlength, ← hdrop, List.take_append_drop]
    · intro h
      simp only [tagged] at h
      split_ifs at h with hm
      obtain rfl := Option.some.inj h
      have hlength : (m ++ (tag k).toList).length = m.length + 16 := by
        rw [List.length_append, htag]
      simp only [tagged]
      rw [hlength, Nat.add_sub_cancel, List.drop_left, List.take_left, if_pos]
      exact ⟨by omega, by omega, rfl⟩

/-- It separates what keys of a tag of their own sealed. -/
theorem separates_tagged (limit : ℕ) {tag : Key → List.Vector UInt8 16} {made : Set (Sealing Key)}
    (h : ∀ s ∈ made, ∀ k, k ≠ s.key → tag k ≠ tag s.key) : (tagged limit tag).Separates made := by
  intro s hs c hc k hk n a
  simp only [sealed, tagged] at hc ⊢
  split_ifs at hc with hm
  obtain rfl := Option.some.inj hc
  have htag : (tag s.key).toList.length = 16 := List.Vector.toList_length _
  refine if_neg fun hopens => h s hs k hk ?_
  have hdrop := hopens.2.2
  rw [List.length_append, htag, Nat.add_sub_cancel, List.drop_left] at hdrop
  apply List.Vector.eq
  exact hdrop.symm

end Cipher
