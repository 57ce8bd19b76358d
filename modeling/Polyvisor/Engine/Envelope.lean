import Polyvisor.Engine.Item
import Polyvisor.Lib.Frontier

/-!
# Envelopes and the keys of a frontier

What `engine/src/vault.rs` seals, and `advance_heads`, the one rule by which its head maps move.
Encryption is ideal: a ciphertext carries the key it was sealed under, and opens with that key
and with no other. Keys have type `κ`, plaintexts type `P`.

* `Names stored d c`: the stored envelope of `d` carries a key for `c`.
* `Reads stored heads c k`: following the keys carried in the stored envelopes down from the
  heads gives the key `k` for `c`.
* `Authorship`: what honest sealing means, that every content reference is sealed under one key,
  that an envelope carries the right keys, and that these are for changes below it.
* `reads_iff_reach`: under honest authorship, reading is reaching along `Names`.
-/

namespace Polyvisor

open Std Frontier

variable {κ P : Type}

/-- `Envelope`: a change and the keys of its parents that the author held. The ancestors are a
hash map in the source, and its entries in the order it yields them here. -/
structure Envelope (κ P : Type) where
  plaintext : P
  ancestors : List (Cref × κ)
  deriving DecidableEq

/-- `EncryptedContent`: the reference it was sealed for, the key it was sealed under, and what
`bincode` makes of the plaintext. -/
structure Ciphertext (κ P : Type) where
  contentRef : Cref
  key : κ
  plain : Except String (Envelope κ P)

/-- `try_decrypt`. -/
def Ciphertext.tryDecrypt [DecidableEq κ] (c : Ciphertext κ P) (key : κ) :
    Option (Except String (Envelope κ P)) :=
  if key = c.key then some c.plain else none

/-- A head map: the entry points of one readable frontier. -/
abbrev Heads (κ : Type) := ExtTreeMap Cref κ

/-- The ciphertexts in storage, by content reference. -/
abbrev Stored (κ P : Type) := ExtTreeMap Cref (Ciphertext κ P)

theorem mem_of_lookup {β : Type} {l : List (Cref × β)} {c : Cref} {b : β}
    (h : l.lookup c = some b) : (c, b) ∈ l := by
  obtain ⟨before, after, rfl, -⟩ := List.lookup_eq_some_iff.1 h
  exact List.mem_append_right _ List.mem_cons_self

/-! ## Moving a frontier -/

/-- `advance_heads`: what arrived becomes a head, what is covered stops being one unless it has
just arrived. -/
def advanceHeads (heads : Heads κ) (arrived : List (Cref × κ)) (covered : List Cref) : Heads κ :=
  let heads := arrived.foldl (fun heads (cref, key) => heads.insert cref key) heads
  covered.foldl (fun heads cref =>
    if cref ∈ arrived.map Prod.fst then heads else heads.erase cref) heads

theorem mem_foldl_insert (heads : Heads κ) (arrived : List (Cref × κ)) (c : Cref) :
    c ∈ arrived.foldl (fun heads (cref, key) => heads.insert cref key) heads ↔
      c ∈ arrived.map Prod.fst ∨ c ∈ heads := by
  induction arrived generalizing heads with
  | nil => simp
  | cons entry arrived ih =>
    rw [List.foldl_cons, ih, ExtTreeMap.mem_insert, LawfulEqOrd.compare_eq_iff_eq, List.map_cons,
      List.mem_cons]
    tauto

theorem getElem?_foldl_insert {heads : Heads κ} {arrived : List (Cref × κ)} {c : Cref} {k : κ}
    (h : (arrived.foldl (fun heads (cref, key) => heads.insert cref key) heads)[c]? = some k) :
    (c, k) ∈ arrived ∨ heads[c]? = some k := by
  induction arrived generalizing heads with
  | nil => exact .inr h
  | cons entry arrived ih =>
    obtain ⟨cref, key⟩ := entry
    rcases ih h with hmem | hget
    · exact .inl (List.mem_cons_of_mem _ hmem)
    · rw [ExtTreeMap.getElem?_insert] at hget
      split at hget
      next heq =>
        obtain rfl := LawfulEqOrd.eq_of_compare heq
        cases hget
        exact .inl List.mem_cons_self
      next => exact .inr hget

theorem getElem?_foldl_erase (heads : Heads κ) (fresh covered : List Cref) (c : Cref) :
    (covered.foldl (fun heads cref => if cref ∈ fresh then heads else heads.erase cref)
      heads)[c]? = if c ∈ covered ∧ c ∉ fresh then none else heads[c]? := by
  induction covered generalizing heads with
  | nil => simp
  | cons cref covered ih =>
    rw [List.foldl_cons, ih]
    by_cases hfresh : cref ∈ fresh
    · by_cases hc : c = cref
      · subst hc
        simp [hfresh]
      · simp [hfresh, hc]
    · by_cases hc : c = cref
      · subst hc
        simp [hfresh]
      · have hne : ¬ cref = c := fun h => hc h.symm
        simp [hfresh, hc, ExtTreeMap.getElem?_erase, hne]

/-- What arrived is a head. -/
theorem mem_advanceHeads_of_arrived (heads : Heads κ) {arrived : List (Cref × κ)}
    (covered : List Cref) {c : Cref} (h : c ∈ arrived.map Prod.fst) :
    c ∈ advanceHeads heads arrived covered := by
  rw [← ExtTreeMap.isSome_getElem?_iff_mem, advanceHeads, getElem?_foldl_erase,
    if_neg fun hc => hc.2 h, ExtTreeMap.isSome_getElem?_iff_mem, mem_foldl_insert]
  exact .inl h

/-- A head that is not covered stays one. -/
theorem mem_advanceHeads_of_not_covered {heads : Heads κ} (arrived : List (Cref × κ))
    {covered : List Cref} {c : Cref} (h : c ∈ heads) (hc : c ∉ covered) :
    c ∈ advanceHeads heads arrived covered := by
  rw [← ExtTreeMap.isSome_getElem?_iff_mem, advanceHeads, getElem?_foldl_erase,
    if_neg fun hcov => hc hcov.1, ExtTreeMap.isSome_getElem?_iff_mem, mem_foldl_insert]
  exact .inr h

/-- A head that is gone was covered, and did not arrive. -/
theorem covered_of_not_mem_advanceHeads {heads : Heads κ} {arrived : List (Cref × κ)}
    {covered : List Cref} {c : Cref} (h : c ∈ heads) (hc : c ∉ advanceHeads heads arrived covered) :
    c ∈ covered ∧ c ∉ arrived.map Prod.fst := by
  constructor
  · by_contra hcov
    exact hc (mem_advanceHeads_of_not_covered arrived h hcov)
  · exact fun harr => hc (mem_advanceHeads_of_arrived heads covered harr)

/-- A head's key arrived with it or was there before. -/
theorem getElem?_advanceHeads {heads : Heads κ} {arrived : List (Cref × κ)} {covered : List Cref}
    {c : Cref} {k : κ} (h : (advanceHeads heads arrived covered)[c]? = some k) :
    (c, k) ∈ arrived ∨ heads[c]? = some k := by
  rw [advanceHeads, getElem?_foldl_erase] at h
  split at h
  · cases h
  · exact getElem?_foldl_insert h

/-! ## Reading -/

/-- The stored envelope of `d` carries a key for `c`. -/
def Names (stored : Stored κ P) (d c : Cref) : Prop :=
  ∃ ct env, stored[d]? = some ct ∧ ct.plain = .ok env ∧ c ∈ env.ancestors.map Prod.fst

/-- A key for `c` that the heads and the stored envelopes give. -/
inductive Reads [DecidableEq κ] (stored : Stored κ P) (heads : Heads κ) : Cref → κ → Prop
  | head {c k} (h : heads[c]? = some k) : Reads stored heads c k
  | ancestor {d k ct env c k'} (hd : Reads stored heads d k) (hct : stored[d]? = some ct)
      (hopen : ct.tryDecrypt k = some (.ok env)) (hc : (c, k') ∈ env.ancestors) :
      Reads stored heads c k'

/-- What honest authors agree on: the key each content reference is sealed under, and how deep
in its document's history the change lies. -/
structure Authorship (κ : Type) where
  keyOf : Cref → κ
  rank : Cref → ℕ

/-- A ciphertext an honest author made. -/
structure Ciphertext.Honest (a : Authorship κ) (c : Ciphertext κ P) : Prop where
  key : c.key = a.keyOf c.contentRef
  plain : ∃ env, c.plain = .ok env ∧
    ∀ p k, (p, k) ∈ env.ancestors → k = a.keyOf p ∧ a.rank p < a.rank c.contentRef

/-- Every stored ciphertext is honest and filed under its own reference. -/
def HonestStore (a : Authorship κ) (stored : Stored κ P) : Prop :=
  ∀ (c : Cref) (ct : Ciphertext κ P), stored[c]? = some ct → ct.contentRef = c ∧ ct.Honest a

/-- Every head has the key its reference is sealed under. -/
def HonestHeads (a : Authorship κ) (heads : Heads κ) : Prop :=
  ∀ (c : Cref) (k : κ), heads[c]? = some k → k = a.keyOf c

theorem HonestStore.rank_lt {a : Authorship κ} {stored : Stored κ P} (h : HonestStore a stored)
    {d c : Cref} (hdc : Names stored d c) : a.rank c < a.rank d := by
  obtain ⟨ct, env, hct, hplain, hc⟩ := hdc
  obtain ⟨⟨p, k⟩, hmem, rfl⟩ := List.mem_map.mp hc
  obtain ⟨rfl, hhonest⟩ := h d ct hct
  obtain ⟨env', hplain', hanc⟩ := hhonest.plain
  obtain rfl : env = env' := by
    rw [hplain] at hplain'
    exact Except.ok.inj hplain'
  exact (hanc p k hmem).2

/-- Under honest authorship the keys that can be read are the right ones, for what the heads
reach. -/
theorem reads_iff_reach [DecidableEq κ] {a : Authorship κ} {stored : Stored κ P} {heads : Heads κ}
    (hstored : HonestStore a stored) (hheads : HonestHeads a heads) {c : Cref} {k : κ} :
    Reads stored heads c k ↔ k = a.keyOf c ∧ Reach (Names stored) {x | x ∈ heads} c := by
  constructor
  · intro h
    induction h with
    | @head c k h =>
      refine ⟨hheads c k h, .of_mem ?_⟩
      exact ExtTreeMap.isSome_getElem?_iff_mem.mp (by rw [h]; rfl)
    | @ancestor d k ct env c k' hd hct hopen hc ih =>
      obtain ⟨rfl, hhonest⟩ := hstored d ct hct
      obtain ⟨env', hplain, hanc⟩ := hhonest.plain
      have henv : ct.plain = .ok env := by
        rw [Ciphertext.tryDecrypt] at hopen
        split at hopen
        · exact Option.some.inj hopen
        · cases hopen
      obtain rfl : env = env' := by
        rw [henv] at hplain
        exact Except.ok.inj hplain
      exact ⟨(hanc c k' hc).1, ih.2.tail ⟨ct, env, hct, henv, List.mem_map.mpr ⟨_, hc, rfl⟩⟩⟩
  · rintro ⟨rfl, s, hs, hpath⟩
    induction hpath with
    | refl =>
      have hsome := ExtTreeMap.isSome_getElem?_iff_mem.mpr hs
      obtain ⟨k, hk⟩ := Option.isSome_iff_exists.mp hsome
      rw [← hheads s k hk]
      exact .head hk
    | @tail d c _ hdc ih =>
      obtain ⟨ct, env, hct, hplain, hc⟩ := hdc
      obtain ⟨⟨p, k⟩, hmem, rfl⟩ := List.mem_map.mp hc
      obtain ⟨rfl, hhonest⟩ := hstored d ct hct
      obtain ⟨env', hplain', hanc⟩ := hhonest.plain
      obtain rfl : env = env' := by
        rw [hplain] at hplain'
        exact Except.ok.inj hplain'
      have hopen : ct.tryDecrypt (a.keyOf ct.contentRef) = some (.ok env) := by
        rw [Ciphertext.tryDecrypt, if_pos hhonest.key.symm, hplain]
      rw [← (hanc p k hmem).1]
      exact .ancestor ih hct hopen hmem

end Polyvisor
