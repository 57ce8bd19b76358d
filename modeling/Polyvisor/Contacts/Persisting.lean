import Mathlib.Algebra.Group.Int.Defs
import Polyvisor.Contacts.Merging

/-!
# Persisting an introduction

`persist_verified_introduction` with the document it leaves behind, also where it stops: every
contact, meeting and observation is a transaction of its own. The ids of new contacts are drawn from
the numbers 1, 2, … for the identities and 65, 66, … for the parties.

## Main results

* `persisted_eq_ok`: a call that succeeds is the one of `Document`.
* `retainEach_spec`, `introduceEach_spec`: what the two loops leave.
* `introduced_out`: where they are not disturbed, they keep what was selected and nothing else.
-/

namespace Polyvisor.Contacts

variable {f : Foreign} {doc doc' : Document} {labels : Labels}

/-! ## Numbers as text -/

theorem utf8_toString (n : ℕ) :
    utf8 (toString n) = (Nat.toDigits 10 n).map fun c => UInt8.ofNat c.toNat := by
  have hdigits : ∀ c ∈ Nat.toDigits 10 n, c.toNat < 128 := fun c hc => by
    have hdigit := Nat.isDigit_of_mem_toDigits (by omega) (by omega) hc
    have hval : 48 ≤ c.toNat ∧ c.toNat ≤ 57 := by
      simpa [Char.isDigit, UInt32.le_iff_toNat_le] using hdigit
    omega
  rw [Nat.toString_eq_ofList_toDigits, utf8_ofList hdigits]

/-- Every digit is read as its value. -/
theorem foldlM_digits {chars : List Char} (h : ∀ c ∈ chars, c.isDigit) (init : ℕ) :
    (chars.map fun c => UInt8.ofNat c.toNat).foldlM (fun n c =>
      if 48 ≤ c.toNat ∧ c.toNat < 58 then some (n * 10 + (c.toNat - 48)) else none) init =
        some (Nat.ofDigitChars 10 chars init) := by
  induction chars generalizing init with
  | nil => rfl
  | cons c rest ih =>
    obtain ⟨hc, hrest⟩ := List.forall_mem_cons.1 h
    have hval : 48 ≤ c.toNat ∧ c.toNat ≤ 57 := by
      simpa [Char.isDigit, UInt32.le_iff_toNat_le] using hc
    have hbyte : (UInt8.ofNat c.toNat).toNat = c.toNat := by
      rw [UInt8.toNat_ofNat']
      omega
    rw [List.map_cons, List.foldlM_cons, hbyte, if_pos (by omega), Option.bind_eq_bind,
      Option.bind_some, ih hrest, Nat.ofDigitChars_cons, Nat.mul_comm]
    rfl

theorem parseU64_decimal {n : ℕ} (h : n < 2 ^ 64) : parseU64 (decimal n) = some n := by
  have hdigits : ∀ c ∈ Nat.toDigits 10 n, c.isDigit :=
    fun c hc => Nat.isDigit_of_mem_toDigits (by omega) (by omega) hc
  rw [decimal, utf8_toString, parseU64]
  rcases hchars : Nat.toDigits 10 n with _ | ⟨c, rest⟩
  · exact absurd hchars Nat.toDigits_ne_nil
  · rw [hchars] at hdigits
    have hval : 48 ≤ c.toNat ∧ c.toNat ≤ 57 := by
      simpa [Char.isDigit, UInt32.le_iff_toNat_le] using hdigits c List.mem_cons_self
    have hsign : ((c :: rest).map fun c => UInt8.ofNat c.toNat).head? ≠ some 43 := by
      rw [List.map_cons, List.head?_cons, ne_eq, Option.some_inj]
      intro heq
      have hbyte := congrArg UInt8.toNat heq
      rw [UInt8.toNat_ofNat'] at hbyte
      have h43 : (43 : UInt8).toNat = 43 := rfl
      omega
    rw [if_neg hsign, if_neg (by simp), foldlM_digits hdigits, ← hchars,
      Nat.ofDigitChars_ten_toDigits]
    show (if n < 2 ^ 64 then some n else none) = some n
    rw [if_pos h]

theorem head?_decimal (n : ℕ) : ∃ c rest, decimal n = c :: rest ∧ 48 ≤ c.toNat ∧ c.toNat < 58 := by
  have hdigits : ∀ c ∈ Nat.toDigits 10 n, c.isDigit :=
    fun c hc => Nat.isDigit_of_mem_toDigits (by omega) (by omega) hc
  rw [decimal, utf8_toString]
  rcases hchars : Nat.toDigits 10 n with _ | ⟨c, rest⟩
  · exact absurd hchars Nat.toDigits_ne_nil
  · rw [hchars] at hdigits
    have hval : 48 ≤ c.toNat ∧ c.toNat ≤ 57 := by
      simpa [Char.isDigit, UInt32.le_iff_toNat_le] using hdigits c List.mem_cons_self
    refine ⟨_, _, rfl, ?_⟩
    rw [UInt8.toNat_ofNat']
    omega

theorem parseU32_decimal {n : ℕ} (h : n < 2 ^ 32) : parseU32 (decimal n) = some n := by
  rw [parseU32, parseU64_decimal (by omega), Option.filter_some, if_pos (decide_eq_true h)]

theorem parseI64_toString {z : ℤ} (hmin : -2 ^ 63 ≤ z) (hmax : z < 2 ^ 63) :
    parseI64 (utf8 (toString z)) = some z ∧ utf8 (toString z) ≠ [] := by
  rcases z with n | n
  · have htext : utf8 (toString (Int.ofNat n)) = decimal n := rfl
    obtain ⟨c, rest, heq, hc⟩ := head?_decimal n
    have hn : n < 2 ^ 63 := by
      have : (Int.ofNat n : ℤ) = (n : ℤ) := rfl
      omega
    rw [htext]
    refine ⟨?_, by rw [heq]; exact List.cons_ne_nil _ _⟩
    have hpos : parseI64 (decimal n) =
        (parseU64 (decimal n)).bind fun n => if n < 2 ^ 63 then some (n : ℤ) else none := by
      rw [heq]
      unfold parseI64
      split
      · next digits hcons =>
        have h45 : (45 : UInt8).toNat = 45 := rfl
        rw [(List.cons.inj hcons).1] at hc
        omega
      · rfl
    rw [hpos, parseU64_decimal (by omega), Option.bind_some, if_pos hn]
    rfl
  · have htext : utf8 (toString (Int.negSucc n)) = 45 :: decimal (n + 1) := by
      have happend : toString (Int.negSucc n) = "-" ++ toString (n + 1) := rfl
      have hminus : utf8 "-" = [45] := by decide +kernel
      rw [happend, utf8_eq, String.toByteArray_append, ByteArray.data_append,
        Array.toList_append, ← utf8_eq, ← utf8_eq, hminus]
      rfl
    rw [htext]
    obtain ⟨c, rest, heq, hc⟩ := head?_decimal (n + 1)
    have hn : n + 1 ≤ 2 ^ 63 := by
      rw [Int.negSucc_eq] at hmin
      omega
    refine ⟨?_, List.cons_ne_nil _ _⟩
    have hsign : (decimal (n + 1)).head? ≠ some 43 := by
      rw [heq, List.head?_cons, ne_eq, Option.some_inj]
      rintro rfl
      have h43 : (43 : UInt8).toNat = 43 := rfl
      omega
    show (if (decimal (n + 1)).head? = some 43 then none
      else (parseU64 (decimal (n + 1))).bind fun n =>
        if n ≤ 2 ^ 63 then some (-(n : ℤ)) else none) = _
    rw [if_neg hsign, parseU64_decimal (by omega), Option.bind_some, if_pos hn, Int.negSucc_eq]
    rfl

/-! ## The call, step by step -/

/-- The parties that a selection keeps, with their indices. -/
def SelectedIntroduction.chosen (selected : SelectedIntroduction f) : List (Party × ℕ) :=
  selected.verified.introduction.parties.zipIdx.filter fun p => p.2 ∈ selected.parties

/-- The loop over the identities. -/
def retainEach (f : Foreign) (labels : Labels) (issuerRoot : Bytes32) :
    List (AuthenticatedIdentity f × ℕ) → Document → Option Bytes →
      Document × Except String (Option Bytes)
  | [], doc, affected => (doc, .ok affected)
  | (identity, index) :: rest, doc, affected =>
    match identityContact f labels issuerRoot doc index identity.root with
    | .error e => (doc, .error e)
    | .ok (doc, id) =>
      retainEach f labels issuerRoot rest (retainIdentity f doc id identity)
        (affected.or (some id))

/-- The observation that is written for a claim. -/
def observed (labels : Labels) (issuerRoot : Bytes32) (issuedAt : ClaimedTime) (meeting : Bytes)
    (claim : Claim) : Observation where
  name := claim.name
  value := claim.value
  provenance := .verified
  issuer := some issuerRoot
  claimed := some issuedAt
  received := labels.received
  meeting := meeting

/-- The loop over the claims of a party. -/
def observeEach (f : Foreign) (labels : Labels) (issuerRoot : Bytes32) (issuedAt : ClaimedTime)
    (id meeting : Bytes) : List Claim → Document → Document × Except String Unit
  | [], doc => (doc, .ok ())
  | claim :: rest, doc =>
    match writeObservation f doc id (observed labels issuerRoot issuedAt meeting claim) with
    | .error e => (doc, .error e)
    | .ok doc => observeEach f labels issuerRoot issuedAt id meeting rest doc

/-- The loop over the parties. -/
def introduceEach (f : Foreign) (labels : Labels) (issuerRoot : Bytes32) (issuedAt : ClaimedTime) :
    List (Party × ℕ) → Document → Option Bytes → Document × Except String (Option Bytes)
  | [], doc, affected => (doc, .ok affected)
  | (party, index) :: rest, doc, affected =>
    match partyContact f labels doc index party.publicKey with
    | .error e => (doc, .error e)
    | .ok (doc, id) =>
      let (doc, meeting) := createMeeting f doc (utf8 "verified introduction") []
        (some issuerRoot) labels.received true
        (derivedEntropy f labels.entropy (index + 1 + maxParties * 2))
      match observeEach f labels issuerRoot issuedAt id meeting party.observations doc with
      | (doc, .error e) => (doc, .error e)
      | (doc, .ok ()) =>
        introduceEach f labels issuerRoot issuedAt rest doc (affected.or (some id))

/-- What is checked before anything is written. -/
def admits (f : Foreign) (doc : Document) (selected : SelectedIntroduction f) :
    Except String Unit := do
  check (¬ (selected.identities = [] ∧ selected.parties = [])) "introduction selection is empty"
  ensureAll f doc selected.identities

/-- `persist_verified_introduction`, with the document that it leaves. -/
def persisted (f : Foreign) (doc : Document) (selected : SelectedIntroduction f)
    (labels : Labels) : Document × Except String Bytes :=
  let intro := selected.verified.introduction
  match admits f doc selected with
  | .error e => (doc, .error e)
  | .ok () =>
    match retainEach f labels intro.issuer.root selected.identities.zipIdx doc none with
    | (doc, .error e) => (doc, .error e)
    | (doc, .ok affected) =>
      match introduceEach f labels intro.issuer.root intro.issuedAt selected.chosen doc
        affected with
      | (doc, .error e) => (doc, .error e)
      | (doc, .ok none) => (doc, .error "introduction selection is empty")
      | (doc, .ok (some id)) => (doc, .ok id)

/-! ## Calls that succeed -/

theorem retainEach_eq_ok {issuerRoot : Bytes32} {identities : List (AuthenticatedIdentity f)}
    {index : ℕ} {affected affected' : Option Bytes} :
    retainEach f labels issuerRoot (identities.zipIdx index) doc affected =
        (doc', .ok affected') ↔
      retainAll f labels issuerRoot index identities doc affected = .ok (doc', affected') := by
  induction identities generalizing index doc affected with
  | nil =>
    simp [retainEach, retainAll]
  | cons identity rest ih =>
    rw [List.zipIdx_cons, retainEach, retainAll]
    rcases identityContact f labels issuerRoot doc index identity.root with e | ⟨next, id⟩
    · refine iff_of_false (fun h => ?_) fun h => by cases h
      cases (Prod.mk.inj h).2
    · exact ih

theorem observeEach_eq_ok {issuerRoot : Bytes32} {issuedAt : ClaimedTime} {id meeting : Bytes}
    {claims : List Claim} :
    observeEach f labels issuerRoot issuedAt id meeting claims doc = (doc', .ok ()) ↔
      observeAll f labels issuerRoot issuedAt id meeting claims doc = .ok doc' := by
  induction claims generalizing doc with
  | nil =>
    simp [observeEach, observeAll]
  | cons claim rest ih =>
    rw [observeEach, observeAll]
    show _ ↔ (writeObservation f doc id (observed labels issuerRoot issuedAt meeting claim) >>=
      _) = _
    rcases writeObservation f doc id (observed labels issuerRoot issuedAt meeting claim) with
      e | next
    · refine iff_of_false (fun h => ?_) fun h => by cases h
      cases (Prod.mk.inj h).2
    · exact ih

theorem introduceEach_eq_ok {issuerRoot : Bytes32} {issuedAt : ClaimedTime} {chosen : List ℕ}
    {parties : List Party} {index : ℕ} {affected affected' : Option Bytes} :
    introduceEach f labels issuerRoot issuedAt
        ((parties.zipIdx index).filter fun p => p.2 ∈ chosen) doc affected =
          (doc', .ok affected') ↔
      introduceAll f labels issuerRoot issuedAt chosen index parties doc affected =
        .ok (doc', affected') := by
  induction parties generalizing index doc affected with
  | nil =>
    simp [introduceEach, introduceAll]
  | cons party rest ih =>
    rw [List.zipIdx_cons, introduceAll]
    by_cases hchosen : index ∈ chosen
    · rw [List.filter_cons_of_pos (by simpa using hchosen), if_pos hchosen, introduceEach]
      rcases partyContact f labels doc index party.publicKey with e | ⟨next, id⟩
      · refine iff_of_false (fun h => ?_) fun h => by cases h
        cases (Prod.mk.inj h).2
      · dsimp only [bind, Except.bind]
        generalize createMeeting f next (utf8 "verified introduction") [] (some issuerRoot)
          labels.received true
          (derivedEntropy f labels.entropy (index + 1 + maxParties * 2)) = made
        obtain ⟨made, meeting⟩ := made
        dsimp only
        rcases hobserve : observeAll f labels issuerRoot issuedAt id meeting party.observations
          made with e | written
        · rcases heach : observeEach f labels issuerRoot issuedAt id meeting party.observations
            made with ⟨stopped, e' | done⟩
          · refine iff_of_false (fun h => ?_) fun h => by cases h
            cases (Prod.mk.inj h).2
          · rw [observeEach_eq_ok.1 heach] at hobserve
            cases hobserve
        · rw [observeEach_eq_ok.2 hobserve]
          exact ih
    · rw [List.filter_cons_of_neg (by simpa using hchosen), if_neg hchosen]
      exact ih

/-- A call succeeds exactly when it does without a document to leave, with the same document. -/
theorem persisted_eq_ok {selected : SelectedIntroduction f} {id : Bytes} :
    persisted f doc selected labels = (doc', .ok id) ↔
      persistVerifiedIntroduction f doc selected labels = .ok (doc', id) := by
  unfold persisted persistVerifiedIntroduction admits
  dsimp only [bind, Except.bind]
  rcases check (¬ (selected.identities = [] ∧ selected.parties = []))
    "introduction selection is empty" with e | ⟨⟩
  · simp
  dsimp only
  rcases ensureAll f doc selected.identities with e | ⟨⟩
  · simp
  dsimp only
  rcases hretain : retainAll f labels selected.verified.introduction.issuer.root 0
    selected.identities doc none with e | ⟨retained, affected⟩
  · rcases heach : retainEach f labels selected.verified.introduction.issuer.root
      selected.identities.zipIdx doc none with ⟨stopped, e' | affected⟩
    · simp
    · rw [retainEach_eq_ok.1 heach] at hretain
      exact (nomatch hretain)
  rw [retainEach_eq_ok.2 hretain]
  dsimp only
  rcases hintroduce : introduceAll f labels selected.verified.introduction.issuer.root
    selected.verified.introduction.issuedAt selected.parties 0
    selected.verified.introduction.parties retained affected with e | ⟨introduced, affected'⟩
  · rcases heach : introduceEach f labels selected.verified.introduction.issuer.root
      selected.verified.introduction.issuedAt selected.chosen retained affected with
      ⟨stopped, e' | affected'⟩
    · simp
    · rw [SelectedIntroduction.chosen] at heach
      rw [introduceEach_eq_ok.1 heach] at hintroduce
      exact (nomatch hintroduce)
  have heach := introduceEach_eq_ok.2 hintroduce
  rw [SelectedIntroduction.chosen, heach]
  rcases affected' with _ | id'
  · simp
  · simp [pure, Except.pure]

/-! ## Where a root and a key are found -/

/-- The contact is there and has that key. -/
def HasKey (f : Foreign) (doc : Document) (id : Bytes) (key : Bytes32) : Prop :=
  ∃ c, contact f doc id = some c ∧ c.publicKey = some key

/-- The contact is listed and retains an identity of that root. -/
def Retains (f : Foreign) (doc : Document) (id : Bytes) (root : Bytes32) : Prop :=
  id ∈ contactIds doc ∧
    ((retainedIdentityAt f doc id).map fun identity => identity.root) = some root

theorem hasKey_iff {id : Bytes} {key : Bytes32} : HasKey f doc id key ↔
    rootString doc (.contact id .present) = some (utf8 "true") ∧
      storedKey (rootString doc (.contact id .publicKey)) = some key := by
  rw [HasKey, contact]
  by_cases hpresent : rootString doc (.contact id .present) = some (utf8 "true")
  · rw [if_neg (not_not.2 hpresent)]
    simp [hpresent]
  · rw [if_pos hpresent]
    simp [hpresent]

theorem HasKey.unique {id : Bytes} {key key' : Bytes32} (h : HasKey f doc id key)
    (h' : HasKey f doc id key') : key = key' := by
  obtain ⟨c, hc, hkey⟩ := h
  obtain ⟨c', hc', hkey'⟩ := h'
  rw [hc] at hc'
  rw [Option.some.inj hc', hkey'] at hkey
  exact (Option.some.inj hkey).symm

theorem Retains.unique {id : Bytes} {root root' : Bytes32} (h : Retains f doc id root)
    (h' : Retains f doc id root') : root = root' :=
  Option.some.inj (h.2.symm.trans h'.2)

theorem mem_contactIds_of_rootString {id text : Bytes}
    (h : rootString doc (.contact id .present) = some text) : id ∈ contactIds doc := by
  rw [contactIds, mem_asSet, List.mem_filter, List.mem_filterMap, decide_eq_true_iff]
  have hkey := mem_keys_of_rootString h
  rw [RootMap.keys, List.mem_filter, decide_eq_true_iff, List.mem_map] at hkey
  obtain ⟨⟨w, hw, heq⟩, hshown⟩ := hkey
  exact ⟨⟨w, hw, by rw [heq]; rfl⟩, hshown⟩

theorem HasKey.mem_contactIds {id : Bytes} {key : Bytes32} (h : HasKey f doc id key) :
    id ∈ contactIds doc :=
  mem_contactIds_of_rootString (hasKey_iff.1 h).1

theorem mem_contactIds_congr {id : Bytes} (h : doc'.history.shown (.contact id .present) =
    doc.history.shown (.contact id .present)) : id ∈ contactIds doc' ↔ id ∈ contactIds doc := by
  rw [Polyvisor.Contacts.mem_contactIds, Polyvisor.Contacts.mem_contactIds,
    Multivalue.History.values, Multivalue.History.values, h]

theorem hasKey_congr {id : Bytes} {key : Bytes32} (hpresent :
      doc'.history.shown (.contact id .present) = doc.history.shown (.contact id .present))
    (hkey : doc'.history.shown (.contact id .publicKey) =
      doc.history.shown (.contact id .publicKey)) :
    HasKey f doc' id key ↔ HasKey f doc id key := by
  rw [hasKey_iff, hasKey_iff, rootString_congr hpresent, rootString_congr hkey]

theorem retains_congr {id : Bytes} {root : Bytes32} (hpresent :
      doc'.history.shown (.contact id .present) = doc.history.shown (.contact id .present))
    (hretained : doc'.history.shown (.contact id .retainedIdentity) =
      doc.history.shown (.contact id .retainedIdentity)) :
    Retains f doc' id root ↔ Retains f doc id root := by
  rw [Retains, Retains, mem_contactIds_congr hpresent, retainedIdentityAt, retainedIdentityAt,
    allRootBytes_congr hretained]

/-- In a sorted list the first element found is the least one. -/
theorem find?_eq_some_iff_least {items : List Bytes} (h : items.Pairwise (· ≤ ·))
    {p : Bytes → Bool} {item : Bytes} : items.find? p = some item ↔
      item ∈ items ∧ p item ∧ ∀ other ∈ items, p other → item ≤ other := by
  constructor
  · intro hfind
    obtain ⟨hp, before, after, rfl, hbefore⟩ := List.find?_eq_some_iff_append.1 hfind
    refine ⟨List.mem_append_right _ List.mem_cons_self, hp, fun other hother hpother => ?_⟩
    rcases List.mem_append.1 hother with hin | hin
    · have hnot := hbefore other hin
      rw [hpother] at hnot
      exact Bool.noConfusion hnot
    · rcases List.mem_cons.1 hin with rfl | hin
      · exact List.le_refl other
      · exact (List.pairwise_cons.1 (List.pairwise_append.1 h).2.1).1 other hin
  · rintro ⟨hmem, hp, hleast⟩
    rcases hfind : items.find? p with _ | found
    · exact absurd hp (List.find?_eq_none.1 hfind item hmem)
    · obtain ⟨hpfound, before, after, rfl, hbefore⟩ := List.find?_eq_some_iff_append.1 hfind
      have hle := hleast found (List.mem_append_right _ List.mem_cons_self) hpfound
      rcases List.mem_append.1 hmem with hin | hin
      · have hnot := hbefore item hin
        rw [hp] at hnot
        exact Bool.noConfusion hnot
      · rcases List.mem_cons.1 hin with rfl | hin
        · rfl
        · rw [List.le_antisymm hle
            ((List.pairwise_cons.1 (List.pairwise_append.1 h).2.1).1 item hin)]

theorem contactIds_sorted (doc : Document) : (contactIds doc).Pairwise (· ≤ ·) :=
  List.pairwise_insertionSort _ _

theorem contactWithPublicKey_eq_some {id : Bytes} {key : Bytes32} :
    contactWithPublicKey f doc key = some id ↔
      HasKey f doc id key ∧ ∀ other, HasKey f doc other key → id ≤ other := by
  have hany (other : Bytes) : ((contact f doc other).any fun c => c.publicKey = some key) ↔
      HasKey f doc other key := by
    rw [HasKey, Option.any_eq_true]
    simp
  have hid {other : Bytes} {c : Contact f} (hc : contact f doc other = some c) : c.id = other := by
    rw [contact] at hc
    split_ifs at hc
    rw [← Option.some.inj hc]
  have hfind : contactWithPublicKey f doc key = (contactIds doc).find? fun other =>
      (contact f doc other).any fun c => c.publicKey = some key := by
    rw [contactWithPublicKey, contacts, List.find?_filterMap]
    rcases hfound : (contactIds doc).find? fun other =>
      (contact f doc other).any fun c => c.publicKey = some key with _ | found
    · rw [hfound]
      rfl
    · have hsome := List.find?_some hfound
      obtain ⟨c, hc, -⟩ := (Option.any_eq_true ..).1 hsome
      rw [hfound, Option.bind_some, hc, Option.map_some, hid hc]
  rw [hfind, find?_eq_some_iff_least (contactIds_sorted doc)]
  simp only [hany]
  exact ⟨fun h => ⟨h.2.1, fun other hother => h.2.2 other hother.mem_contactIds hother⟩,
    fun h => ⟨h.1.mem_contactIds, h.1, fun other _ => h.2 other⟩⟩

theorem retainedRootContact_eq_some {id : Bytes} {root : Bytes32} :
    retainedRootContact f doc root = some id ↔
      Retains f doc id root ∧ ∀ other, Retains f doc other root → id ≤ other := by
  rw [retainedRootContact, find?_eq_some_iff_least (contactIds_sorted doc)]
  simp only [decide_eq_true_iff, Retains]
  exact ⟨fun h => ⟨⟨h.1, h.2.1⟩, fun other hother => h.2.2 other hother.1 hother.2⟩,
    fun h => ⟨h.1.1, h.1.2, fun other hlisted hother => h.2 other ⟨hlisted, hother⟩⟩⟩

theorem contactWithPublicKey_congr {key : Bytes32}
    (h : ∀ id, HasKey f doc' id key ↔ HasKey f doc id key) :
    contactWithPublicKey f doc' key = contactWithPublicKey f doc key := by
  refine Option.ext fun id => ?_
  rw [contactWithPublicKey_eq_some, contactWithPublicKey_eq_some]
  simp only [h]

/-- A key that any contact has is found. -/
theorem contactWithPublicKey_eq_none {key : Bytes32} :
    contactWithPublicKey f doc key = none ↔ ∀ id, ¬ HasKey f doc id key := by
  constructor
  · intro h id hid
    rw [contactWithPublicKey, Option.map_eq_none_iff, contacts, List.find?_eq_none] at h
    obtain ⟨c, hc, hkey⟩ := hid
    exact h c (List.mem_filterMap.2 ⟨id, HasKey.mem_contactIds ⟨c, hc, hkey⟩, hc⟩)
      (decide_eq_true hkey)
  · intro h
    rcases hfound : contactWithPublicKey f doc key with _ | id
    · rfl
    · exact absurd (contactWithPublicKey_eq_some.1 hfound).1 (h id)

/-- The contact that an identity is retained at, if the document has one for it. -/
def known (f : Foreign) (doc : Document) (root : Bytes32) : Option Bytes :=
  (retainedRootContact f doc root).or (contactWithPublicKey f doc root)

theorem retainedRootContact_eq_none {root : Bytes32} :
    retainedRootContact f doc root = none ↔ ∀ id, ¬ Retains f doc id root := by
  rw [retainedRootContact, List.find?_eq_none]
  simp only [decide_eq_true_iff, Retains, not_and]

theorem of_known {root : Bytes32} {id : Bytes} (h : known f doc root = some id) :
    Retains f doc id root ∨ HasKey f doc id root ∧ ∀ other, ¬ Retains f doc other root := by
  rcases Option.or_eq_some_iff.1 h with hroot | ⟨hnone, hkey⟩
  · exact .inl (retainedRootContact_eq_some.1 hroot).1
  · exact .inr ⟨(contactWithPublicKey_eq_some.1 hkey).1, retainedRootContact_eq_none.1 hnone⟩

theorem mem_contactIds_of_known {root : Bytes32} {id : Bytes} (h : known f doc root = some id) :
    id ∈ contactIds doc := by
  rcases of_known h with hroot | ⟨hkey, -⟩
  · exact hroot.1
  · exact hkey.mem_contactIds

theorem not_hasKey_of_known {root : Bytes32} (h : known f doc root = none) (id : Bytes) :
    ¬ HasKey f doc id root :=
  contactWithPublicKey_eq_none.1 (Option.or_eq_none_iff.1 h).2 id

/-! ## New contacts -/

/-- The fields of a new contact. -/
def contactFields (id : Bytes) (key : Bytes32) (petname glyph : Bytes) : List (Key × Value) :=
  [(.contact id .present, .text (utf8 "true")), (.contact id .petname, .text petname),
    (.contact id .glyph, .text glyph), (.contact id .publicKey, .text (hex (Bytes32.bytes key)))]

theorem createContact_eq_of_none {key : Bytes32} {petname glyph : Bytes} {entropy : Bytes32}
    {id : Bytes} (hkey : validContactKey f (some key) = .ok ())
    (hid : id = localId f (utf8 "polyvisor:local-contact:v0\x00") entropy doc.actor)
    (hnone : contact f doc id = none) :
    createContact f doc (some key) petname glyph entropy =
      .ok (doc.putAll (contactFields id key petname glyph), id) := by
  have hcheck : check (¬ (contact f doc id).isSome) "contact entropy was reused" = .ok () :=
    check_eq_ok.2 (by simp [hnone])
  rw [createContact, hkey, ← hid]
  dsimp only [bind, Except.bind]
  rw [hcheck, Option.map_some, Option.getD_some]
  simp only [contactFields, pure, Except.pure]

theorem createContact_eq {key : Bytes32} {petname glyph : Bytes} {entropy : Bytes32} {id : Bytes}
    (hkey : validContactKey f (some key) = .ok ())
    (hid : id = localId f (utf8 "polyvisor:local-contact:v0\x00") entropy doc.actor)
    (hunused : id ∉ contactIds doc) :
    createContact f doc (some key) petname glyph entropy =
      .ok (doc.putAll (contactFields id key petname glyph), id) := by
  refine createContact_eq_of_none hkey hid ?_
  rw [contact]
  split_ifs with hpresent
  · rfl
  · exact absurd (mem_contactIds_of_rootString (not_not.1 hpresent)) hunused

theorem hasKey_contactFields (doc : Document) (id : Bytes) (key : Bytes32)
    (petname glyph : Bytes) :
    HasKey f (doc.putAll (contactFields id key petname glyph)) id key := by
  have hnodup : ((contactFields id key petname glyph).map Prod.fst).Nodup := by
    simp [contactFields]
  have htext : rootString (doc.putAll (contactFields id key petname glyph))
      (.contact id .publicKey) = some (hex (Bytes32.bytes key)) :=
    rootString_putAll_of_mem hnodup (by simp [contactFields])
  rw [hasKey_iff, rootString_putAll_of_mem hnodup List.mem_cons_self, htext]
  refine ⟨rfl, ?_⟩
  have hread := storedKey_hex (some key)
  rwa [Option.map_some, Option.getD_some] at hread

theorem shown_contactFields {id : Bytes} {key : Bytes32} {petname glyph : Bytes} {k : Key}
    (hk : ∀ field, k ≠ .contact id field) :
    (doc.putAll (contactFields id key petname glyph)).history.shown k = doc.history.shown k :=
  RootMap.shown_putAll_of_not_mem (by simp [contactFields, hk])

/-! ## The identities -/

/-- What is retained is read back. -/
theorem retained_root (hlaw : f.Lawful) {identity : AuthenticatedIdentity f} {id : Bytes}
    (hvalid : validateAuthenticatedIdentity f identity = .ok identity.binding.binding)
    (h : allRootBytes doc (.contact id .retainedIdentity) = [f.encodeIdentity identity.wire]) :
    ((retainedIdentityAt f doc id).map fun retained => retained.root) = some identity.root := by
  have hmapM : (allRootBytes doc (.contact id .retainedIdentity)).mapM (decodeIdentity f) =
      some [identity] := by
    rw [h, List.mapM_cons, decodeIdentity_encode hlaw]
    rfl
  have hall : ¬ ∃ other ∈ [identity], ¬ ((validateAuthenticatedIdentity f other).isOk ∧
      other.binding.binding = identity.binding.binding) := by
    simp [hvalid, Except.isOk, Except.toBool]
  rw [retainedIdentityAt, hmapM]
  simp only [Option.bind_eq_bind, Option.bind_some, List.head?_cons]
  rw [if_neg hall]
  rfl

/-- The contact that an identity goes to: one that the document has for it, or a new one. -/
def identityHome (f : Foreign) (labels : Labels) (doc : Document)
    (p : AuthenticatedIdentity f × ℕ) : Bytes :=
  (known f doc p.1.root).getD (drawnId f labels doc (p.2 + 1))

/-- What the loop over the identities asks of the document it starts with. -/
structure Placeable (f : Foreign) (labels : Labels) (doc : Document)
    (all : List (AuthenticatedIdentity f × ℕ)) : Prop where
  valid : ∀ p ∈ all, validateAuthenticatedIdentity f p.1 = .ok p.1.binding.binding
  validKey : ∀ p ∈ all, validContactKey f (some p.1.root) = .ok ()
  roots : ∀ p ∈ all, ∀ q ∈ all, p.1.root = q.1.root → p = q
  /-- The ids that are drawn are not listed. -/
  unlisted : ∀ p ∈ all, known f doc p.1.root = none →
    drawnId f labels doc (p.2 + 1) ∉ contactIds doc
  /-- Two identities do not go to one contact. -/
  homes : ∀ p ∈ all, ∀ q ∈ all, identityHome f labels doc p = identityHome f labels doc q → p = q

/-- What the loop has done with the identities so far. -/
structure Kept (f : Foreign) (labels : Labels) (doc cur : Document)
    (done : List (AuthenticatedIdentity f × ℕ)) : Prop where
  actor : cur.actor = doc.actor
  frame : ∀ key, (∀ p ∈ done, ∀ field, key ≠ .contact (identityHome f labels doc p) field) →
    cur.history.shown key = doc.history.shown key
  kept : ∀ id ∈ contactIds doc, ∀ field, field ≠ .retainedIdentity →
    cur.history.shown (.contact id field) = doc.history.shown (.contact id field)
  retained : ∀ p ∈ done, allRootBytes cur (.contact (identityHome f labels doc p)
    .retainedIdentity) = [f.encodeIdentity p.1.wire]
  created : ∀ p ∈ done, known f doc p.1.root = none →
    HasKey f cur (identityHome f labels doc p) p.1.root

section Identities

variable {all done : List (AuthenticatedIdentity f × ℕ)} {cur : Document}

theorem identityHome_of_some (labels : Labels) {p : AuthenticatedIdentity f × ℕ} {id : Bytes}
    (h : known f doc p.1.root = some id) : identityHome f labels doc p = id := by
  rw [identityHome, h, Option.getD_some]

theorem identityHome_of_none (labels : Labels) {p : AuthenticatedIdentity f × ℕ}
    (h : known f doc p.1.root = none) :
    identityHome f labels doc p = drawnId f labels doc (p.2 + 1) := by
  rw [identityHome, h, Option.getD_none]

/-- A contact with a key is one from before, or a new one of an identity. -/
theorem Kept.hasKey_iff (hkept : Kept f labels doc cur done) {id : Bytes} {key : Bytes32} :
    HasKey f cur id key ↔ HasKey f doc id key ∨ ∃ p ∈ done, known f doc p.1.root = none ∧
      identityHome f labels doc p = id ∧ p.1.root = key := by
  have hold (hid : id ∈ contactIds doc) : HasKey f cur id key ↔ HasKey f doc id key :=
    hasKey_congr (hkept.kept id hid _ (by simp)) (hkept.kept id hid _ (by simp))
  constructor
  · intro hkey
    by_cases hid : id ∈ contactIds doc
    · exact .inl ((hold hid).1 hkey)
    by_cases hhome : ∃ p ∈ done, identityHome f labels doc p = id
    · obtain ⟨p, hp, rfl⟩ := hhome
      rcases hknown : known f doc p.1.root with _ | other
      · exact .inr ⟨p, hp, hknown, rfl, (hkept.created p hp hknown).unique hkey⟩
      · rw [identityHome_of_some _ hknown] at hid
        exact absurd (mem_contactIds_of_known hknown) hid
    · have hframe (field : ContactField) : cur.history.shown (.contact id field) =
          doc.history.shown (.contact id field) :=
        hkept.frame _ fun p hp field' heq => hhome ⟨p, hp, (Key.contact.inj heq).1.symm⟩
      exact .inl ((hasKey_congr (hframe _) (hframe _)).1 hkey)
  · rintro (hkey | ⟨p, hp, hknown, rfl, rfl⟩)
    · exact (hold hkey.mem_contactIds).2 hkey
    · exact hkept.created p hp hknown

/-- A root that is still to come is found where it was. -/
theorem Kept.known_eq (h : Placeable f labels doc all) (hdone : ∀ p ∈ done, p ∈ all)
    (hkept : Kept f labels doc cur done) (hlaw : f.Lawful) {p : AuthenticatedIdentity f × ℕ}
    (hp : p ∈ all) (hnew : p ∉ done) : known f cur p.1.root = known f doc p.1.root := by
  have hroot {q : AuthenticatedIdentity f × ℕ} (hq : q ∈ done) : q.1.root ≠ p.1.root :=
    fun heq => hnew (h.roots q (hdone q hq) p hp heq ▸ hq)
  have hkey (id : Bytes) : HasKey f cur id p.1.root ↔ HasKey f doc id p.1.root := by
    rw [hkept.hasKey_iff]
    refine or_iff_left ?_
    rintro ⟨q, hq, -, -, heq⟩
    exact hroot hq heq
  -- the homes of those that came before retain other roots, and nothing else has changed
  have hhome {q : AuthenticatedIdentity f × ℕ} (hq : q ∈ done) :
      ¬ Retains f cur (identityHome f labels doc q) p.1.root := fun hcur =>
    hroot hq (Option.some.inj ((retained_root hlaw (h.valid q (hdone q hq))
      (hkept.retained q hq)).symm.trans hcur.2))
  have hretains (id : Bytes) (hid : ∀ q ∈ done, identityHome f labels doc q ≠ id) :
      Retains f cur id p.1.root ↔ Retains f doc id p.1.root := by
    have hframe (field : ContactField) : cur.history.shown (.contact id field) =
        doc.history.shown (.contact id field) :=
      hkept.frame _ fun q hq field' heq => hid q hq (Key.contact.inj heq).1.symm
    exact retains_congr (hframe _) (hframe _)
  have hold {id : Bytes} (hcur : Retains f cur id p.1.root) : Retains f doc id p.1.root :=
    (hretains id fun _ hq heq => hhome hq (heq ▸ hcur)).1 hcur
  have hretained : retainedRootContact f cur p.1.root = retainedRootContact f doc p.1.root := by
    rcases hfound : retainedRootContact f doc p.1.root with _ | id
    · rw [retainedRootContact_eq_none] at hfound ⊢
      exact fun id hcur => hfound id (hold hcur)
    · -- the contact is this identity's own, so that it still retains the root
      have hknown : known f doc p.1.root = some id := by rw [known, hfound, Option.some_or]
      obtain ⟨hdoc, hleast⟩ := retainedRootContact_eq_some.1 hfound
      refine retainedRootContact_eq_some.2 ⟨(hretains id fun q hq heq => ?_).2 hdoc,
        fun other hother => hleast other (hold hother)⟩
      rw [← identityHome_of_some labels hknown] at heq
      exact hnew (h.homes q (hdone q hq) p hp heq ▸ hq)
  rw [known, known, contactWithPublicKey_congr hkey, hretained]

/-- A register that one value was put to holds that value. -/
theorem allRootBytes_put (doc : Document) (key : Key) (bytes : Bytes) :
    allRootBytes (doc.put key (.bytes bytes)) key = [bytes] := by
  have hsingle : allRootBytes (doc.put key (.bytes bytes)) key = asSet [bytes] := by
    refine asSet_congr fun item => ?_
    rw [List.mem_filterMap, List.mem_singleton]
    simp only [RootMap.mem_values_put]
    constructor
    · rintro ⟨v, rfl, hv⟩
      exact (Option.some.inj hv).symm
    · rintro rfl
      exact ⟨_, rfl, rfl⟩
  rw [hsingle]
  simp [asSet]

/-- One more identity is retained. -/
theorem Kept.retain (hkept : Kept f labels doc cur done) (h : Placeable f labels doc all)
    (hdone : ∀ p ∈ done, p ∈ all) {p : AuthenticatedIdentity f × ℕ} (hp : p ∈ all)
    (hnew : p ∉ done) {next : Document} (hactor : next.actor = cur.actor)
    (hframe : ∀ key, (∀ field, key ≠ .contact (identityHome f labels doc p) field) →
      next.history.shown key = cur.history.shown key)
    (hold : ∀ id, known f doc p.1.root = some id → next = cur)
    (hcreated : known f doc p.1.root = none →
      HasKey f next (identityHome f labels doc p) p.1.root) :
    Kept f labels doc (retainIdentity f next (identityHome f labels doc p) p.1)
      (done ++ [p]) := by
  have hput {key : Key} (hne : key ≠ .contact (identityHome f labels doc p) .retainedIdentity) :
      (retainIdentity f next (identityHome f labels doc p) p.1).history.shown key =
        next.history.shown key :=
    RootMap.shown_put_of_ne hne
  have hother {q : AuthenticatedIdentity f × ℕ} (hq : q ∈ done) :
      identityHome f labels doc q ≠ identityHome f labels doc p :=
    fun heq => hnew (h.homes q (hdone q hq) p hp heq ▸ hq)
  have hsame {q : AuthenticatedIdentity f × ℕ} (hq : q ∈ done) (field : ContactField) :
      (retainIdentity f next (identityHome f labels doc p) p.1).history.shown
          (.contact (identityHome f labels doc q) field) =
        cur.history.shown (.contact (identityHome f labels doc q) field) := by
    rw [hput (by simp [hother hq]), hframe _ (by simp [hother hq])]
  constructor
  · exact (RootMap.put_actor ..).trans (hactor.trans hkept.actor)
  · intro key hkey
    have hself := hkey p (List.mem_append_right _ (List.mem_singleton.2 rfl))
    rw [hput (hself _), hframe key hself]
    exact hkept.frame key fun q hq => hkey q (List.mem_append_left _ hq)
  · intro id hid field hfield
    rw [hput (by simp [hfield]), ← hkept.kept id hid field hfield]
    rcases hknown : known f doc p.1.root with _ | found
    · refine hframe _ fun field' heq => ?_
      rw [(Key.contact.inj heq).1, identityHome_of_none _ hknown] at hid
      exact h.unlisted p hp hknown hid
    · rw [hold found hknown]
  · intro q hq
    rcases List.mem_append.1 hq with hq | hq
    · rw [allRootBytes_congr (hsame hq _)]
      exact hkept.retained q hq
    · obtain rfl := List.mem_singleton.1 hq
      exact allRootBytes_put ..
  · intro q hq hknown
    rcases List.mem_append.1 hq with hq | hq
    · rw [hasKey_congr (hsame hq _) (hsame hq _)]
      exact hkept.created q hq hknown
    · obtain rfl := List.mem_singleton.1 hq
      rw [hasKey_congr (hput (by simp)) (hput (by simp))]
      exact hcreated hknown

/-- The next identity finds its contact, or a new one is made for it. -/
theorem Kept.step (hkept : Kept f labels doc cur done) (h : Placeable f labels doc all)
    (hlaw : f.Lawful) (hdone : ∀ p ∈ done, p ∈ all) {p : AuthenticatedIdentity f × ℕ}
    (hp : p ∈ all) (hnew : p ∉ done) (issuerRoot : Bytes32) : ∃ next,
      identityContact f labels issuerRoot cur p.2 p.1.root =
        .ok (next, identityHome f labels doc p) ∧
      Kept f labels doc (retainIdentity f next (identityHome f labels doc p) p.1)
        (done ++ [p]) := by
  have hfound : (retainedRootContact f cur p.1.root).or (contactWithPublicKey f cur p.1.root) =
      known f doc p.1.root :=
    hkept.known_eq h hdone hlaw hp hnew
  rw [identityContact, hfound]
  rcases hknown : known f doc p.1.root with _ | id
  · -- the drawn id is neither from before nor one of another new contact
    have hhome := identityHome_of_none labels hknown
    have hfresh : identityHome f labels doc p ∉ contactIds cur := by
      intro hmem
      have hnot : ∀ q ∈ done, identityHome f labels doc q ≠ identityHome f labels doc p :=
        fun q hq heq => hnew (h.homes q (hdone q hq) p hp heq ▸ hq)
      have hshown : cur.history.shown (.contact (identityHome f labels doc p) .present) =
          doc.history.shown (.contact (identityHome f labels doc p) .present) :=
        hkept.frame _ fun q hq field heq => hnot q hq (Key.contact.inj heq).1.symm
      rw [mem_contactIds_congr hshown, hhome] at hmem
      exact h.unlisted p hp hknown hmem
    have hid : identityHome f labels doc p = localId f (utf8 "polyvisor:local-contact:v0\x00")
        (derivedEntropy f labels.entropy (p.2 + 1)) cur.actor := by
      rw [hhome, drawnId, hkept.actor]
    refine ⟨_, createContact_eq (h.validKey p hp) hid hfresh, ?_⟩
    exact hkept.retain h hdone hp hnew (RootMap.putAll_actor ..)
      (fun key hkey => shown_contactFields hkey) (fun id hsome => absurd hsome (by simp [hknown]))
      fun _ => hasKey_contactFields ..
  · have hhome := identityHome_of_some labels hknown
    refine ⟨cur, by rw [hhome], ?_⟩
    exact hkept.retain h hdone hp hnew rfl (fun _ _ => rfl) (fun _ _ => rfl)
      fun hnone => absurd hnone (by simp [hknown])

/-- The loop over the identities goes through, and retains all of them. -/
theorem retainEach_spec (h : Placeable f labels doc all) (hlaw : f.Lawful)
    (issuerRoot : Bytes32) {rest : List (AuthenticatedIdentity f × ℕ)}
    (hall : all = done ++ rest) (hnodup : all.Nodup) (hkept : Kept f labels doc cur done)
    (affected : Option Bytes) : ∃ out affected',
      retainEach f labels issuerRoot rest cur affected = (out, .ok affected') ∧
        Kept f labels doc out all ∧ (affected'.isSome ↔ affected.isSome ∨ rest ≠ []) := by
  induction rest generalizing done cur affected with
  | nil =>
    rw [List.append_nil] at hall
    exact ⟨cur, affected, rfl, hall ▸ hkept, by simp⟩
  | cons p rest ih =>
    have hdone : ∀ q ∈ done, q ∈ all := fun q hq => hall ▸ List.mem_append_left _ hq
    have hp : p ∈ all := hall ▸ List.mem_append_right _ List.mem_cons_self
    have hnew : p ∉ done := fun hmem => by
      rw [hall] at hnodup
      exact List.disjoint_of_nodup_append hnodup hmem List.mem_cons_self
    obtain ⟨next, hcontact, hnext⟩ := hkept.step h hlaw hdone hp hnew issuerRoot
    obtain ⟨out, affected', hrest, hout, haffected⟩ :=
      ih (by rw [hall, List.append_assoc, List.singleton_append]) hnext
        (affected.or (some (identityHome f labels doc p)))
    obtain ⟨identity, index⟩ := p
    refine ⟨out, affected', ?_, hout, ?_⟩
    · rw [retainEach, hcontact]
      exact hrest
    · rw [haffected]
      simp

end Identities

/-! ## What is written about a party -/

/-- The fields of an observation spell it, when its numbers fit. -/
theorem observationOf_fields_eq {read : ObservationField → Option Bytes} {o : Observation}
    (h : ∀ field ∈ observationFields o, read field.1 = some field.2)
    (hreceived : o.received < 2 ^ 64)
    (hclaimed : ∀ t, o.claimed = some t →
      (-2 ^ 63 ≤ t.seconds ∧ t.seconds < 2 ^ 63) ∧ t.nanos < 2 ^ 32) :
    observationOf read = some o := by
  simp only [observationFields, List.forall_mem_cons] at h
  obtain ⟨hname, hvalue, hprovenance, hissuer, hseconds, hnanos, hreceivedText, hmeeting, hpresent,
    -⟩ := h
  have htime : storedTime (read .claimedSeconds) (read .claimedNanos) = o.claimed := by
    rw [hseconds, hnanos]
    rcases hclaim : o.claimed with _ | t
    · rfl
    · obtain ⟨⟨hmin, hmax⟩, hsmall⟩ := hclaimed t hclaim
      obtain ⟨hparse, hne⟩ := parseI64_toString hmin hmax
      rw [Option.map_some, Option.getD_some, Option.map_some, Option.getD_some, storedTime,
        Option.filter_some, if_pos (decide_eq_true hne)]
      simp only [Option.bind_eq_bind, Option.bind_some, hparse, parseU32_decimal hsmall]
      rfl
  rw [observationOf, if_neg (not_not.2 hpresent), htime, hprovenance, hname, hvalue, hissuer,
    hmeeting, storedKey_hex, hreceivedText]
  simp only [Option.bind_eq_bind, Option.bind_some, Provenance.ofText_text,
    parseU64_decimal hreceived]
  rfl

theorem writeObservation_isOk {o : Observation} {id : Bytes} {record : MeetingRecord}
    (hcontact : (contact f doc id).isSome) (hclaims : validateClaims [⟨o.name, o.value⟩] = .ok ())
    (hmeeting : meeting doc o.meeting = some record)
    (hprovenance : validProvenance record o = .ok ()) :
    writeObservation f doc id o = .ok (doc.putAll ((observationFields o).map fun field =>
      (.observation id (observationDiscriminator f o) field.1, .text field.2))) := by
  rw [writeObservation, requireContact, check_eq_ok.2 hcontact, hclaims, hmeeting]
  dsimp only [bind, Except.bind]
  rw [hprovenance]
  rfl

/-- A meeting is read back as it was made. -/
theorem meeting_createMeeting (f : Foreign) (doc : Document) (method source : Bytes)
    (sourceKey : Option Bytes32) {occurred : ℕ} (h : occurred < 2 ^ 64) (verified : Bool)
    (entropy : Bytes32) :
    ∃ record, meeting (createMeeting f doc method source sourceKey occurred verified entropy).1
        (createMeeting f doc method source sourceKey occurred verified entropy).2 = some record ∧
      record.sourceKey = sourceKey ∧ record.verified = verified := by
  unfold createMeeting
  dsimp only
  generalize localId f _ entropy doc.actor = id
  generalize hfields : [(Key.meeting id .method, Value.text method),
    (.meeting id .source, .text source), (.meeting id .sourceKey,
      .text ((sourceKey.map fun k => hex (Bytes32.bytes k)).getD [])),
    (.meeting id .occurred, .text (decimal occurred)),
    (.meeting id .verified, .text (boolText verified))] = fields
  have hnodup : (fields.map Prod.fst).Nodup := by
    subst hfields
    simp
  have hread {field : MeetingField} {text : Bytes}
      (hmem : (Key.meeting id field, Value.text text) ∈ fields) :
      rootString (doc.putAll fields) (.meeting id field) = some text :=
    rootString_putAll_of_mem hnodup hmem
  have hmethod : (Key.meeting id .method, Value.text method) ∈ fields := by simp [← hfields]
  have hkey : (Key.meeting id .sourceKey,
      Value.text ((sourceKey.map fun k => hex (Bytes32.bytes k)).getD [])) ∈ fields := by
    rw [← hfields]
    exact List.mem_cons_of_mem _ (List.mem_cons_of_mem _ List.mem_cons_self)
  have hoccurred : (Key.meeting id .occurred, Value.text (decimal occurred)) ∈ fields := by
    simp [← hfields]
  have hverified : (Key.meeting id .verified, Value.text (boolText verified)) ∈ fields := by
    simp [← hfields]
  rw [meeting, hread hmethod, hread hkey, hread hoccurred, hread hverified, storedKey_hex]
  simp only [Option.bind_eq_bind, Option.bind_some, parseU64_decimal h]
  refine ⟨_, rfl, rfl, ?_⟩
  show decide (some (boolText verified) = some (utf8 "true")) = verified
  rcases verified with _ | _ <;> decide +kernel

section Observing

variable {issuerRoot : Bytes32} {issuedAt : ClaimedTime}

/-- The numbers of what is observed fit. -/
theorem observed_fits (hreceived : labels.received < 2 ^ 64) (htime : validTime issuedAt = .ok ())
    (meeting : Bytes) (claim : Claim) :
    (observed labels issuerRoot issuedAt meeting claim).received < 2 ^ 64 ∧
      ∀ t, (observed labels issuerRoot issuedAt meeting claim).claimed = some t →
        (-2 ^ 63 ≤ t.seconds ∧ t.seconds < 2 ^ 63) ∧ t.nanos < 2 ^ 32 := by
  refine ⟨hreceived, fun t ht => ?_⟩
  obtain rfl := Option.some.inj ht
  obtain ⟨⟨hmin, hmax⟩, hnanos⟩ := check_eq_ok.1 htime
  simp only [minTimestampSeconds, maxTimestampSeconds] at hmin hmax
  omega

/-- The loop over the claims goes through, and stores an observation for each. -/
theorem observeEach_spec {home m : Bytes} {record : MeetingRecord} {claims : List Claim}
    {cur : Document} (hreceived : labels.received < 2 ^ 64) (htime : validTime issuedAt = .ok ())
    (hcontact : (contact f cur home).isSome) (hmeeting : meeting cur m = some record)
    (hkey : record.sourceKey = some issuerRoot) (hverified : record.verified = true)
    (hclaims : ∀ claim ∈ claims, validateClaims [claim] = .ok ()) : ∃ out,
      observeEach f labels issuerRoot issuedAt home m claims cur = (out, .ok ()) ∧
      out.actor = cur.actor ∧ cur.Grows out ∧
      (out = cur ↔ ∀ claim ∈ claims,
        ∀ field ∈ observationFields (observed labels issuerRoot issuedAt m claim),
          cur.history.values (.observation home (observationDiscriminator f
            (observed labels issuerRoot issuedAt m claim)) field.1) = [.text field.2]) ∧
      (∀ key, (∀ claim ∈ claims, ∀ field, key ≠ .observation home
          (observationDiscriminator f (observed labels issuerRoot issuedAt m claim)) field) →
        out.history.shown key = cur.history.shown key) ∧
      ∀ claim ∈ claims, (∀ other ∈ claims,
          observationDiscriminator f (observed labels issuerRoot issuedAt m other) =
            observationDiscriminator f (observed labels issuerRoot issuedAt m claim) →
          other = claim) →
        storedObservation out home
          (observationDiscriminator f (observed labels issuerRoot issuedAt m claim)) =
            some (observed labels issuerRoot issuedAt m claim) := by
  induction claims generalizing cur with
  | nil =>
    exact ⟨cur, rfl, rfl, .refl cur, ⟨fun _ claim hclaim => absurd hclaim List.not_mem_nil,
      fun _ => rfl⟩, fun _ _ => rfl, fun claim hclaim => absurd hclaim List.not_mem_nil⟩
  | cons first rest ih =>
    obtain ⟨hfirst, hrest⟩ := List.forall_mem_cons.1 hclaims
    have hprovenance : validProvenance record (observed labels issuerRoot issuedAt m first) =
        .ok () :=
      check_eq_ok.2 ⟨⟨rfl, rfl⟩, hverified, hkey⟩
    have hwrite := writeObservation_isOk (o := observed labels issuerRoot issuedAt m first)
      hcontact hfirst hmeeting hprovenance
    obtain ⟨next, hnext⟩ : ∃ next, next = cur.putAll ((observationFields
        (observed labels issuerRoot issuedAt m first)).map fun field =>
      (Key.observation home (observationDiscriminator f
        (observed labels issuerRoot issuedAt m first)) field.1, Value.text field.2)) :=
      ⟨_, rfl⟩
    rw [← hnext] at hwrite
    obtain ⟨-, hfields, hframe⟩ := written hwrite
    have hgrows : cur.Grows next := hnext ▸ RootMap.grows_putAll ..
    have hactor : next.actor = cur.actor := hnext ▸ RootMap.putAll_actor ..
    have hcontact' : (contact f next home).isSome := by
      rw [contact_congr fun field => hframe _ (by simp)]
      exact hcontact
    have hmeeting' : meeting next m = some record := by
      rw [← hmeeting, meeting, meeting]
      simp only [rootString_congr (hframe (.meeting m _) (by simp))]
    obtain ⟨out, hout, hactor', hgrows', hheld, hframe', hstored⟩ := ih hcontact' hmeeting' hrest
    have hfirst_held : next = cur ↔ ∀ field ∈ observationFields
        (observed labels issuerRoot issuedAt m first), cur.history.values (.observation home
          (observationDiscriminator f (observed labels issuerRoot issuedAt m first)) field.1) =
            [.text field.2] := by
      rw [hnext, RootMap.putAll_eq_self_iff, List.forall_mem_map]
    refine ⟨out, ?_, hactor'.trans hactor, hgrows.trans hgrows', ?_, fun key hne => ?_,
      fun claim hclaim hunique => ?_⟩
    · rw [observeEach, hwrite]
      exact hout
    · -- nothing is written, neither now nor later
      rw [List.forall_mem_cons, ← hfirst_held]
      constructor
      · intro hsame
        have hnow := hgrows.eq_of_eq hgrows' hsame
        rw [hnow] at hheld
        exact ⟨hnow, hheld.1 hsame⟩
      · rintro ⟨hnow, hlater⟩
        rw [hnow] at hheld
        exact hheld.2 hlater
    · rw [hframe' key fun claim hclaim => hne claim (List.mem_cons_of_mem _ hclaim),
        hframe key (hne first List.mem_cons_self)]
    · by_cases hlater : claim ∈ rest
      · exact hstored claim hlater fun other hother => hunique other (List.mem_cons_of_mem _ hother)
      · -- the first claim, which none of the others writes over
        obtain rfl := (List.mem_cons.1 hclaim).resolve_right hlater
        have hsame : storedObservation out home
            (observationDiscriminator f (observed labels issuerRoot issuedAt m claim)) =
              storedObservation next home
                (observationDiscriminator f (observed labels issuerRoot issuedAt m claim)) :=
          storedObservation_congr fun field => hframe' _ fun other hother field' heq => hlater
            (hunique other (List.mem_cons_of_mem _ hother)
              (Key.observation.inj heq).2.1.symm ▸ hother)
        obtain ⟨hfit, hfit'⟩ := observed_fits hreceived htime m claim
        rw [hsame]
        exact observationOf_fields_eq hfields hfit hfit'

end Observing

/-! ## The parties -/

/-- The contact of a party: the one with its key, or a new one. -/
def partyHome (f : Foreign) (labels : Labels) (doc : Document) (p : Party × ℕ) : Bytes :=
  (contactWithPublicKey f doc p.1.publicKey).getD
    (drawnId f labels doc (p.2 + 1 + maxParties))

/-- The id of the meeting that is made for a party. -/
def partyMeeting (f : Foreign) (labels : Labels) (doc : Document) (p : Party × ℕ) : Bytes :=
  localId f (utf8 "polyvisor:meeting:v0\x00")
    (derivedEntropy f labels.entropy (p.2 + 1 + maxParties * 2)) doc.actor

/-- The registers of that meeting. -/
def meetingFields (f : Foreign) (labels : Labels) (issuerRoot : Bytes32) (doc : Document)
    (p : Party × ℕ) : List (Key × Value) :=
  [(.meeting (partyMeeting f labels doc p) .method, .text (utf8 "verified introduction")),
    (.meeting (partyMeeting f labels doc p) .source, .text []),
    (.meeting (partyMeeting f labels doc p) .sourceKey, .text (hex (Bytes32.bytes issuerRoot))),
    (.meeting (partyMeeting f labels doc p) .occurred, .text (decimal labels.received)),
    (.meeting (partyMeeting f labels doc p) .verified, .text (boolText true))]

section Parties

variable {issuerRoot : Bytes32} {issuedAt : ClaimedTime} {all done : List (Party × ℕ)}
  {cur : Document}

/-- What is observed about a party. -/
def told (f : Foreign) (labels : Labels) (issuerRoot : Bytes32) (issuedAt : ClaimedTime)
    (doc : Document) (p : Party × ℕ) (claim : Claim) : Observation :=
  observed labels issuerRoot issuedAt (partyMeeting f labels doc p) claim

/-- The discriminator it is stored under. -/
def digest (f : Foreign) (labels : Labels) (issuerRoot : Bytes32) (issuedAt : ClaimedTime)
    (doc : Document) (p : Party × ℕ) (claim : Claim) : Bytes :=
  observationDiscriminator f (told f labels issuerRoot issuedAt doc p claim)

/-- What the loop over the parties asks of the document it starts with. -/
structure Introducible (f : Foreign) (labels : Labels) (issuerRoot : Bytes32)
    (issuedAt : ClaimedTime) (doc : Document) (all : List (Party × ℕ)) : Prop where
  received : labels.received < 2 ^ 64
  time : validTime issuedAt = .ok ()
  validKey : ∀ p ∈ all, validContactKey f (some p.1.publicKey) = .ok ()
  claims : ∀ p ∈ all, ∀ claim ∈ p.1.observations, validateClaims [claim] = .ok ()
  keys : ∀ p ∈ all, ∀ q ∈ all, p.1.publicKey = q.1.publicKey → p = q
  /-- The ids that are drawn are not listed. -/
  unlisted : ∀ p ∈ all, contactWithPublicKey f doc p.1.publicKey = none →
    drawnId f labels doc (p.2 + 1 + maxParties) ∉ contactIds doc
  /-- No id is drawn twice. -/
  distinct : ∀ p ∈ all, ∀ q ∈ all, contactWithPublicKey f doc p.1.publicKey = none →
    contactWithPublicKey f doc q.1.publicKey = none →
    drawnId f labels doc (p.2 + 1 + maxParties) = drawnId f labels doc (q.2 + 1 + maxParties) →
    p = q
  /-- Different claims about a party have different discriminators. -/
  digests : ∀ p ∈ all, ∀ claim ∈ p.1.observations, ∀ other ∈ p.1.observations,
    digest f labels issuerRoot issuedAt doc p other =
      digest f labels issuerRoot issuedAt doc p claim → other = claim

/-- What the loop has done with the parties so far. -/
structure Told (f : Foreign) (labels : Labels) (issuerRoot : Bytes32) (issuedAt : ClaimedTime)
    (doc cur : Document) (done : List (Party × ℕ)) : Prop where
  actor : cur.actor = doc.actor
  frame : ∀ key, (∀ p ∈ done, (∀ field, key ≠ .contact (partyHome f labels doc p) field) ∧
      (∀ claim ∈ p.1.observations, ∀ field, key ≠ .observation (partyHome f labels doc p)
        (digest f labels issuerRoot issuedAt doc p claim) field) ∧
      -- a meeting that is there already is not written again
      ∀ pair ∈ meetingFields f labels issuerRoot doc p, pair.1 = key →
        doc.history.values key = [pair.2]) →
    cur.history.shown key = doc.history.shown key
  kept : ∀ id ∈ contactIds doc, ∀ field,
    cur.history.shown (.contact id field) = doc.history.shown (.contact id field)
  unretained : ∀ id, cur.history.shown (.contact id .retainedIdentity) =
    doc.history.shown (.contact id .retainedIdentity)
  created : ∀ p ∈ done, HasKey f cur (partyHome f labels doc p) p.1.publicKey
  stored : ∀ p ∈ done, ∀ claim ∈ p.1.observations,
    storedObservation cur (partyHome f labels doc p)
      (digest f labels issuerRoot issuedAt doc p claim) =
        some (told f labels issuerRoot issuedAt doc p claim)

theorem key_of_mem_meetingFields {p : Party × ℕ} {pair : Key × Value}
    (h : pair ∈ meetingFields f labels issuerRoot doc p) :
    ∃ field, pair.1 = .meeting (partyMeeting f labels doc p) field := by
  simp only [meetingFields, List.mem_cons, List.not_mem_nil, or_false] at h
  rcases h with rfl | rfl | rfl | rfl | rfl
  all_goals exact ⟨_, rfl⟩

/-- Only keys of meetings are put. -/
theorem held_of_ne_meeting {p : Party × ℕ} {key : Key} {cur : Document}
    (h : ∀ id field, key ≠ .meeting id field) :
    ∀ pair ∈ meetingFields f labels issuerRoot doc p, pair.1 = key →
      cur.history.values key = [pair.2] := by
  intro pair hpair heq
  obtain ⟨field, hkey⟩ := key_of_mem_meetingFields hpair
  exact absurd (heq.symm.trans hkey) (h _ field)

/-- The meeting of a party is put register by register. -/
theorem createMeeting_eq {cur : Document} {p : Party × ℕ}
    (hid : localId f (utf8 "polyvisor:meeting:v0\x00")
      (derivedEntropy f labels.entropy (p.2 + 1 + maxParties * 2)) cur.actor =
        partyMeeting f labels doc p) :
    createMeeting f cur (utf8 "verified introduction") [] (some issuerRoot) labels.received true
      (derivedEntropy f labels.entropy (p.2 + 1 + maxParties * 2)) =
        (cur.putAll (meetingFields f labels issuerRoot doc p), partyMeeting f labels doc p) := by
  unfold createMeeting
  dsimp only
  rw [hid, meetingFields, Option.map_some, Option.getD_some]

theorem partyHome_of_some (labels : Labels) {p : Party × ℕ} {id : Bytes}
    (h : contactWithPublicKey f doc p.1.publicKey = some id) : partyHome f labels doc p = id := by
  rw [partyHome, h, Option.getD_some]

theorem partyHome_of_none (labels : Labels) {p : Party × ℕ}
    (h : contactWithPublicKey f doc p.1.publicKey = none) :
    partyHome f labels doc p = drawnId f labels doc (p.2 + 1 + maxParties) := by
  rw [partyHome, h, Option.getD_none]

theorem mem_contactIds_of_contactWithPublicKey {key : Bytes32} {id : Bytes}
    (h : contactWithPublicKey f doc key = some id) : id ∈ contactIds doc :=
  (contactWithPublicKey_eq_some.1 h).1.mem_contactIds

/-- Two parties do not have one contact. -/
theorem Introducible.home_inj (h : Introducible f labels issuerRoot issuedAt doc all)
    {p q : Party × ℕ} (hp : p ∈ all) (hq : q ∈ all)
    (heq : partyHome f labels doc p = partyHome f labels doc q) : p = q := by
  rcases hknown : contactWithPublicKey f doc p.1.publicKey with _ | id
  · rcases hknown' : contactWithPublicKey f doc q.1.publicKey with _ | id'
    · rw [partyHome_of_none _ hknown, partyHome_of_none _ hknown'] at heq
      exact h.distinct p hp q hq hknown hknown' heq
    · rw [partyHome_of_none _ hknown, partyHome_of_some _ hknown'] at heq
      exact absurd (heq ▸ mem_contactIds_of_contactWithPublicKey hknown')
        (h.unlisted p hp hknown)
  · rcases hknown' : contactWithPublicKey f doc q.1.publicKey with _ | id'
    · rw [partyHome_of_some _ hknown, partyHome_of_none _ hknown'] at heq
      exact absurd (heq ▸ mem_contactIds_of_contactWithPublicKey hknown)
        (h.unlisted q hq hknown')
    · rw [partyHome_of_some _ hknown, partyHome_of_some _ hknown'] at heq
      subst heq
      exact h.keys p hp q hq ((contactWithPublicKey_eq_some.1 hknown).1.unique
        (contactWithPublicKey_eq_some.1 hknown').1)

/-- A contact with a key is one from before, or that of a party. -/
theorem Told.hasKey_iff (htold : Told f labels issuerRoot issuedAt doc cur done) {id : Bytes}
    {key : Bytes32} : HasKey f cur id key ↔ HasKey f doc id key ∨
      ∃ p ∈ done, partyHome f labels doc p = id ∧ p.1.publicKey = key := by
  have hold (hid : id ∈ contactIds doc) : HasKey f cur id key ↔ HasKey f doc id key :=
    hasKey_congr (htold.kept id hid _) (htold.kept id hid _)
  constructor
  · intro hkey
    by_cases hhome : ∃ p ∈ done, partyHome f labels doc p = id
    · obtain ⟨p, hp, rfl⟩ := hhome
      exact .inr ⟨p, hp, rfl, (htold.created p hp).unique hkey⟩
    · have hframe (field : ContactField) : cur.history.shown (.contact id field) =
          doc.history.shown (.contact id field) :=
        htold.frame _ fun p hp => ⟨fun field' heq => hhome ⟨p, hp, (Key.contact.inj heq).1.symm⟩,
          fun _ _ _ => by simp, held_of_ne_meeting (by simp)⟩
      exact .inl ((hasKey_congr (hframe _) (hframe _)).1 hkey)
  · rintro (hkey | ⟨p, hp, rfl, rfl⟩)
    · exact (hold hkey.mem_contactIds).2 hkey
    · exact htold.created p hp

/-- A key that is still to come is found where it was. -/
theorem Told.contactWithPublicKey_eq (h : Introducible f labels issuerRoot issuedAt doc all)
    (hdone : ∀ p ∈ done, p ∈ all) (htold : Told f labels issuerRoot issuedAt doc cur done)
    {p : Party × ℕ} (hp : p ∈ all) (hnew : p ∉ done) :
    contactWithPublicKey f cur p.1.publicKey = contactWithPublicKey f doc p.1.publicKey := by
  refine contactWithPublicKey_congr fun id => ?_
  rw [htold.hasKey_iff]
  refine or_iff_left ?_
  rintro ⟨q, hq, -, heq⟩
  exact hnew (h.keys q (hdone q hq) p hp heq ▸ hq)

/-- The next party finds its contact, or a new one is made for it; then what was observed about it
is stored there. -/
theorem Told.step (htold : Told f labels issuerRoot issuedAt doc cur done)
    (h : Introducible f labels issuerRoot issuedAt doc all) (hdone : ∀ p ∈ done, p ∈ all)
    {p : Party × ℕ} (hp : p ∈ all) (hnew : p ∉ done) : ∃ next out,
      partyContact f labels cur p.2 p.1.publicKey = .ok (next, partyHome f labels doc p) ∧
      observeEach f labels issuerRoot issuedAt (partyHome f labels doc p)
        (createMeeting f next (utf8 "verified introduction") [] (some issuerRoot) labels.received
          true (derivedEntropy f labels.entropy (p.2 + 1 + maxParties * 2))).2 p.1.observations
        (createMeeting f next (utf8 "verified introduction") [] (some issuerRoot) labels.received
          true (derivedEntropy f labels.entropy (p.2 + 1 + maxParties * 2))).1 = (out, .ok ()) ∧
      Told f labels issuerRoot issuedAt doc out (done ++ [p]) := by
  have hfound := Told.contactWithPublicKey_eq h hdone htold hp hnew
  have hothers : ∀ q ∈ done, partyHome f labels doc q ≠ partyHome f labels doc p :=
    fun q hq heq => hnew (h.home_inj (hdone q hq) hp heq ▸ hq)
  -- the contact
  have hcontact : ∃ next, partyContact f labels cur p.2 p.1.publicKey =
        .ok (next, partyHome f labels doc p) ∧ next.actor = cur.actor ∧
      HasKey f next (partyHome f labels doc p) p.1.publicKey ∧
      (∀ key, (∀ field, key ≠ .contact (partyHome f labels doc p) field) →
        next.history.shown key = cur.history.shown key) ∧
      (∀ id ∈ contactIds doc, ∀ field,
        next.history.shown (.contact id field) = cur.history.shown (.contact id field)) ∧
      ∀ id, next.history.shown (.contact id .retainedIdentity) =
        cur.history.shown (.contact id .retainedIdentity) := by
    rw [partyContact, hfound]
    rcases hknown : contactWithPublicKey f doc p.1.publicKey with _ | id
    · have hhome := partyHome_of_none labels hknown
      have hunlisted := h.unlisted p hp hknown
      rw [← hhome] at hunlisted
      have hfresh : partyHome f labels doc p ∉ contactIds cur := by
        rw [mem_contactIds_congr (htold.frame _ fun q hq =>
          ⟨fun field heq => hothers q hq (Key.contact.inj heq).1.symm, fun _ _ _ => by simp,
            held_of_ne_meeting (by simp)⟩)]
        exact hunlisted
      have hid : partyHome f labels doc p = localId f (utf8 "polyvisor:local-contact:v0\x00")
          (derivedEntropy f labels.entropy (p.2 + 1 + maxParties)) cur.actor := by
        rw [hhome, drawnId, htold.actor]
      refine ⟨_, createContact_eq (h.validKey p hp) hid hfresh, RootMap.putAll_actor ..,
        hasKey_contactFields .., fun key hkey => shown_contactFields hkey,
        fun id hlisted field => ?_, fun id => ?_⟩
      · refine shown_contactFields fun field' heq => hunlisted ?_
        rw [← (Key.contact.inj heq).1]
        exact hlisted
      · exact RootMap.shown_putAll_of_not_mem (by simp [contactFields])
    · have hhome := partyHome_of_some labels hknown
      refine ⟨cur, by rw [hhome], rfl, ?_, fun _ _ => rfl, fun _ _ _ => rfl, fun _ => rfl⟩
      rw [hhome, htold.hasKey_iff]
      exact .inl (contactWithPublicKey_eq_some.1 hknown).1
  obtain ⟨next, hnext, hactor, hkey, hframe, hlisted, hunretained⟩ := hcontact
  have hm : localId f (utf8 "polyvisor:meeting:v0\x00")
      (derivedEntropy f labels.entropy (p.2 + 1 + maxParties * 2)) next.actor =
        partyMeeting f labels doc p := by
    rw [partyMeeting, hactor, htold.actor]
  obtain ⟨record, hrecord, hsource, hverified⟩ := meeting_createMeeting f next
    (utf8 "verified introduction") [] (some issuerRoot) h.received true
    (derivedEntropy f labels.entropy (p.2 + 1 + maxParties * 2))
  refine ⟨next, ?_⟩
  rw [createMeeting_eq hm] at hrecord ⊢
  dsimp only at hrecord ⊢
  obtain ⟨made, hmade_eq⟩ : ∃ made, made = next.putAll (meetingFields f labels issuerRoot doc p) :=
    ⟨_, rfl⟩
  rw [← hmade_eq] at hrecord ⊢
  have hmade {key : Key} (hheld : ∀ pair ∈ meetingFields f labels issuerRoot doc p,
      pair.1 = key → next.history.values key = [pair.2]) :
      made.history.shown key = next.history.shown key :=
    hmade_eq ▸ RootMap.shown_putAll_of_held hheld
  have hmade_contact : (contact f made (partyHome f labels doc p)).isSome := by
    obtain ⟨c, hc, -⟩ := hkey
    rw [contact_congr fun field => hmade (held_of_ne_meeting (by simp)), hc]
    rfl
  obtain ⟨out, hout, hactor', -, -, hframe', hstored⟩ := observeEach_spec h.received h.time
    hmade_contact hrecord hsource hverified (h.claims p hp)
  -- a key that is neither of the contact nor of the meeting nor of a claim
  have hall {key : Key} (hhome : ∀ field, key ≠ .contact (partyHome f labels doc p) field)
      (hclaim : ∀ claim ∈ p.1.observations, ∀ field, key ≠ .observation
        (partyHome f labels doc p) (digest f labels issuerRoot issuedAt doc p claim) field)
      (hmeeting : ∀ pair ∈ meetingFields f labels issuerRoot doc p, pair.1 = key →
        cur.history.values key = [pair.2]) :
      out.history.shown key = cur.history.shown key := by
    have hnext := hframe key hhome
    rw [hframe' key hclaim, hmade fun pair hpair heq => ?_, hnext]
    rw [Multivalue.History.values, hnext]
    exact hmeeting pair hpair heq
  have hfields (id : Bytes) (field : ContactField) : out.history.shown (.contact id field) =
      next.history.shown (.contact id field) := by
    rw [hframe' _ (fun _ _ _ => by simp), hmade (held_of_ne_meeting (by simp))]
  have hother {q : Party × ℕ} (hq : q ∈ done) (field : ContactField) :
      out.history.shown (.contact (partyHome f labels doc q) field) =
        cur.history.shown (.contact (partyHome f labels doc q) field) := by
    rw [hfields, hframe _ fun field' heq => hothers q hq (Key.contact.inj heq).1]
  refine ⟨out, hnext, hout, ?_⟩
  constructor
  · rw [hactor', hmade_eq, RootMap.putAll_actor, hactor, htold.actor]
  · intro key hne
    obtain ⟨hhome, hclaim, hmeeting⟩ := hne p (List.mem_append_right _ (List.mem_singleton.2 rfl))
    have hcur := htold.frame key fun q hq => hne q (List.mem_append_left _ hq)
    rw [hall hhome hclaim fun pair hpair heq => ?_, hcur]
    rw [Multivalue.History.values, hcur]
    exact hmeeting pair hpair heq
  · intro id hid field
    rw [hfields, hlisted id hid, htold.kept id hid]
  · intro id
    rw [hfields, hunretained, htold.unretained]
  · intro q hq
    rcases List.mem_append.1 hq with hq | hq
    · rw [hasKey_congr (hother hq _) (hother hq _)]
      exact htold.created q hq
    · obtain rfl := List.mem_singleton.1 hq
      rw [hasKey_congr (hfields _ _) (hfields _ _)]
      exact hkey
  · intro q hq claim hclaim
    rcases List.mem_append.1 hq with hq | hq
    · rw [← htold.stored q hq claim hclaim]
      refine storedObservation_congr fun field =>
        hall (by simp) (fun _ _ field' heq => ?_) (held_of_ne_meeting (by simp))
      exact hothers q hq (Key.observation.inj heq).1
    · obtain rfl := List.mem_singleton.1 hq
      exact hstored claim hclaim (h.digests q hp claim hclaim)

/-- The loop over the parties goes through, and stores what was observed about all of them. -/
theorem introduceEach_spec (h : Introducible f labels issuerRoot issuedAt doc all)
    {rest : List (Party × ℕ)} (hall : all = done ++ rest) (hnodup : all.Nodup)
    (htold : Told f labels issuerRoot issuedAt doc cur done) (affected : Option Bytes) :
    ∃ out affected', introduceEach f labels issuerRoot issuedAt rest cur affected =
        (out, .ok affected') ∧
      Told f labels issuerRoot issuedAt doc out all ∧
      (affected'.isSome ↔ affected.isSome ∨ rest ≠ []) := by
  induction rest generalizing done cur affected with
  | nil =>
    rw [List.append_nil] at hall
    exact ⟨cur, affected, rfl, hall ▸ htold, by simp⟩
  | cons p rest ih =>
    have hdone : ∀ q ∈ done, q ∈ all := fun q hq => hall ▸ List.mem_append_left _ hq
    have hp : p ∈ all := hall ▸ List.mem_append_right _ List.mem_cons_self
    have hnew : p ∉ done := fun hmem => by
      rw [hall] at hnodup
      exact List.disjoint_of_nodup_append hnodup hmem List.mem_cons_self
    obtain ⟨next, out, hcontact, hobserve, hout⟩ := htold.step h hdone hp hnew
    obtain ⟨last, affected', hrest, hlast, haffected⟩ :=
      ih (by rw [hall, List.append_assoc, List.singleton_append]) hout
        (affected.or (some (partyHome f labels doc p)))
    obtain ⟨party, index⟩ := p
    refine ⟨last, affected', ?_, hlast, ?_⟩
    · rw [introduceEach, hcontact]
      dsimp only
      rw [hobserve]
      exact hrest
    · rw [haffected]
      simp

end Parties

/-! ## What a contact shows in addition -/

/-- New copies under a contact, of discriminators that none of its sources has, are shown beside
what it showed before. -/
theorem observations_extend {home : Bytes} {news : List (Bytes × Observation)}
    (hnodup : (news.map Prod.fst).Nodup)
    (hsources : observationSources doc' home = observationSources doc home)
    (hold : ∀ source ∈ observationSources doc home, ∀ discriminator ∉ news.map Prod.fst,
      ∀ field, doc'.history.shown (.observation source discriminator field) =
        doc.history.shown (.observation source discriminator field))
    (hfresh : ∀ source ∈ observationSources doc home, ∀ discriminator ∈ news.map Prod.fst,
      ∀ field, doc.history.shown (.observation source discriminator field) = [])
    (hother : ∀ source ∈ observationSources doc home, source ≠ home →
      ∀ discriminator ∈ news.map Prod.fst, ∀ field,
        doc'.history.shown (.observation source discriminator field) = [])
    (hstored : ∀ new ∈ news, storedObservation doc' home new.1 = some new.2) :
    (observations doc' home).Perm (observations doc home ++ news.map Prod.snd) := by
  have hmem_old {source discriminator : Bytes} (hnew : discriminator ∉ news.map Prod.fst) :
      (source, discriminator) ∈ prefixes doc' home ↔
        (source, discriminator) ∈ prefixes doc home := by
    rw [mem_prefixes, mem_prefixes, hsources]
    refine and_congr_right fun hsource => ?_
    rw [mem_observationPrefixes, mem_observationPrefixes]
    simp only [hold source hsource discriminator hnew]
  have hmem_new {source discriminator : Bytes} (hnew : discriminator ∈ news.map Prod.fst) :
      (source, discriminator) ∉ prefixes doc home ∧
        ((source, discriminator) ∈ prefixes doc' home ↔ source = home) := by
    constructor
    · intro hmem
      obtain ⟨hsource, hprefix⟩ := mem_prefixes.1 hmem
      obtain ⟨field, hshown⟩ := mem_observationPrefixes.1 hprefix
      exact hshown (hfresh source hsource discriminator hnew field)
    · rw [mem_prefixes, hsources]
      constructor
      · rintro ⟨hsource, hprefix⟩
        by_contra hne
        obtain ⟨field, hshown⟩ := mem_observationPrefixes.1 hprefix
        exact hshown (hother source hsource hne discriminator hnew field)
      · rintro rfl
        obtain ⟨new, hmem, rfl⟩ := List.mem_map.1 hnew
        exact ⟨self_mem_observationSources doc source, mem_observationPrefixes_of_complete
          (Option.isSome_iff_exists.2 ⟨_, hstored new hmem⟩)⟩
  have hread : (readCopies doc' home).Perm
      (readCopies doc home ++ news.map fun new => ((home, new.1), new.2)) := by
    have hnodup_read (d : Document) : (readCopies d home).Nodup :=
      (nodup_readCopies d home).of_map _
    refine (List.perm_ext_iff_of_nodup (hnodup_read doc') ?_).2 fun c => ?_
    · refine List.nodup_append'.2 ⟨hnodup_read doc, ?_, fun c hc hc' => ?_⟩
      · refine List.Nodup.of_map (fun c => c.1.2) ?_
        rw [List.map_map]
        exact hnodup
      · obtain ⟨new, hnew, rfl⟩ := List.mem_map.1 hc'
        have hfind := (mem_readCopies.1 hc).1
        exact (hmem_new (List.mem_map.2 ⟨new, hnew, rfl⟩)).1 (List.mem_of_find?_eq_some hfind)
    · obtain ⟨⟨source, discriminator⟩, o⟩ := c
      rw [List.mem_append, mem_readCopies, mem_readCopies, find?_prefixes, find?_prefixes]
      dsimp only
      by_cases hnew : discriminator ∈ news.map Prod.fst
      · have hright : ((source, discriminator), o) ∈ news.map (fun new => ((home, new.1), new.2)) ↔
            source = home ∧ storedObservation doc' source discriminator = some o := by
          rw [List.mem_map]
          constructor
          · rintro ⟨new, hmem, heq⟩
            obtain ⟨⟨rfl, rfl⟩, rfl⟩ := by simpa only [Prod.mk.injEq] using heq
            exact ⟨rfl, hstored new hmem⟩
          · rintro ⟨rfl, ho⟩
            obtain ⟨new, hmem, rfl⟩ := List.mem_map.1 hnew
            rw [hstored new hmem] at ho
            exact ⟨new, hmem, by rw [Option.some.inj ho]⟩
        rw [hright, (hmem_new hnew).2]
        constructor
        · rintro ⟨⟨rfl, -⟩, ho⟩
          exact .inr ⟨rfl, ho⟩
        · rintro (⟨⟨hmem, -⟩, -⟩ | ⟨rfl, ho⟩)
          · exact absurd hmem (hmem_new hnew).1
          · refine ⟨⟨rfl, fun source' hmem => ?_⟩, ho⟩
            rw [(hmem_new hnew).2.1 hmem]
            exact List.le_refl source
      · have hright : ((source, discriminator), o) ∉
            news.map (fun new => ((home, new.1), new.2)) := by
          intro hmem
          obtain ⟨new, hin, heq⟩ := List.mem_map.1 hmem
          rw [Prod.mk.injEq, Prod.mk.injEq] at heq
          exact hnew (List.mem_map.2 ⟨new, hin, heq.1.2⟩)
        simp only [hmem_old hnew]
        rw [or_iff_left hright]
        refine and_congr_right fun hfirst => ?_
        rw [storedObservation_congr (hold source (mem_prefixes.1 hfirst.1).1 discriminator hnew)]
  have hperm := (observations_perm doc' home).symm.trans (hread.map Prod.snd)
  rw [List.map_append, List.map_map] at hperm
  exact hperm.trans ((observations_perm doc home).append_right _)

/-! ## What a verified introduction says -/

theorem validContactKey_of_validKey {key : Bytes32} {what : String}
    (h : validKey f key what = .ok ()) : validContactKey f (some key) = .ok () := by
  rw [validKey] at h
  rw [validContactKey, validKey]
  rcases hkind : f.keyKind key with _ | _ | _
  · rw [hkind] at h
    exact (nomatch h)
  · rw [hkind] at h
    exact (nomatch h)
  · rfl

theorem validKey_of_fromBytes (signed : SignedRootBinding f) :
    validContactKey f (some signed.binding.root) = .ok () := by
  have h := signed.verified
  rw [verifyRootBinding] at h
  obtain ⟨-, -, h⟩ := of_bind h
  split at h
  · exact (nomatch h)
  split at h
  · exact (nomatch h)
  obtain ⟨-, -, h⟩ := of_bind h
  obtain ⟨root, -, h⟩ := of_bind h
  obtain ⟨group, -, h⟩ := of_bind h
  obtain ⟨⟨⟩, hverify, h⟩ := of_bind h
  rw [← Except.ok.inj h]
  unfold verifySignature at hverify
  obtain ⟨⟨⟩, hkey, -⟩ := of_bind hverify
  exact validContactKey_of_validKey hkey

theorem valid_of_validateIdentities {seen : List Bytes32}
    {identities : List (AuthenticatedIdentity f)}
    (h : validateIdentities f seen identities = .ok ()) : ∀ identity ∈ identities,
    validateAuthenticatedIdentity f identity = .ok identity.binding.binding := by
  induction identities generalizing seen with
  | nil => exact fun _ hidentity => absurd hidentity List.not_mem_nil
  | cons first rest ih =>
    rw [validateIdentities] at h
    obtain ⟨binding, hbinding, h⟩ := of_bind h
    obtain ⟨-, h⟩ := of_check h
    refine List.forall_mem_cons.2 ⟨?_, ih h⟩
    rw [hbinding, binding_of_validate hbinding]

theorem of_validateParties {seen : List Bytes32} {parties : List Party}
    (h : validateParties f seen parties = .ok ()) :
    (parties.map Party.publicKey).Nodup ∧ (∀ party ∈ parties, party.publicKey ∉ seen) ∧
      ∀ party ∈ parties, validKey f party.publicKey "observed party key" = .ok () ∧
        validateClaims party.observations = .ok () := by
  induction parties generalizing seen with
  | nil =>
    exact ⟨List.nodup_nil, fun _ h => absurd h List.not_mem_nil,
      fun _ h => absurd h List.not_mem_nil⟩
  | cons first rest ih =>
    rw [validateParties] at h
    obtain ⟨⟨⟩, hkey, h⟩ := of_bind h
    obtain ⟨hnew, h⟩ := of_check h
    obtain ⟨⟨⟩, hclaims, h⟩ := of_bind h
    obtain ⟨hnodup, hseen, hrest⟩ := ih h
    refine ⟨List.nodup_cons.2 ⟨fun hmem => ?_, hnodup⟩, List.forall_mem_cons.2 ⟨hnew, ?_⟩,
      List.forall_mem_cons.2 ⟨⟨hkey, hclaims⟩, hrest⟩⟩
    · obtain ⟨later, hlater, heq⟩ := List.mem_map.1 hmem
      exact hseen later hlater (heq ▸ List.mem_cons_self)
    · exact fun party hparty hmem => hseen party hparty (List.mem_cons_of_mem _ hmem)

/-- What `validate_introduction` has checked. -/
structure Checked (f : Foreign) (value : Introduction f) : Prop where
  time : validTime value.issuedAt = .ok ()
  identities : ∀ identity ∈ value.allIdentities,
    validateAuthenticatedIdentity f identity = .ok identity.binding.binding
  keys : (value.parties.map Party.publicKey).Nodup
  parties : ∀ party ∈ value.parties, validKey f party.publicKey "observed party key" = .ok () ∧
    validateClaims party.observations = .ok ()

theorem VerifiedIntroduction.checked (value : VerifiedIntroduction f) :
    Checked f value.introduction := by
  have h := value.valid
  rw [validateIntroduction] at h
  obtain ⟨⟨⟩, htime, h⟩ := of_bind h
  obtain ⟨-, h⟩ := of_check h
  obtain ⟨-, -, h⟩ := of_bind h
  obtain ⟨issuer, hissuer, h⟩ := of_bind h
  obtain ⟨-, h⟩ := of_check h
  obtain ⟨⟨⟩, hidentities, hparties⟩ := of_bind h
  obtain ⟨hkeys, -, hchecked⟩ := of_validateParties hparties
  refine ⟨htime, List.forall_mem_cons.2 ⟨?_, valid_of_validateIdentities hidentities⟩, hkeys,
    hchecked⟩
  rw [hissuer, binding_of_validate hissuer]

theorem validateClaims_singleton {claims : List Claim} (h : validateClaims claims = .ok ())
    {claim : Claim} (hclaim : claim ∈ claims) : validateClaims [claim] = .ok () := by
  rw [validateClaims] at h ⊢
  obtain ⟨-, h⟩ := of_check h
  have hall := check_eq_ok.1 h
  show (check _ _ >>= fun _ => check _ _) = _
  rw [check_eq_ok.2 (by simp [maxClaimsPerParty]), check]
  simp only [List.forall_mem_singleton, bind, Except.bind]
  rw [if_pos (hall claim hclaim)]

/-! ## A call that is not disturbed -/

section Selection

variable (f doc labels) (selected : SelectedIntroduction f)

/-- Neither the document nor a new identity has a contact for the party. -/
def SelectedIntroduction.IsNew (p : Party × ℕ) : Prop :=
  contactWithPublicKey f doc p.1.publicKey = none ∧ ∀ identity ∈ selected.identities,
    identity.root = p.1.publicKey → known f doc identity.root ≠ none

instance (p : Party × ℕ) : Decidable (selected.IsNew f doc p) :=
  inferInstanceAs (Decidable (_ ∧ _))

/-- The numbers that new contacts are drawn from: those of the identities that the document has no
contact for, and of the parties that have none even after these. -/
def draws : List ℕ :=
  ((selected.identities.zipIdx.filter fun p => known f doc p.1.root = none).map fun p => p.2 + 1) ++
    (selected.chosen.filter fun p => selected.IsNew f doc p).map fun p => p.2 + 1 + maxParties

/-- The contact of a party: the one with its key, that of a new identity, or a new one. -/
def partyPlace (p : Party × ℕ) : Bytes :=
  (contactWithPublicKey f doc p.1.publicKey).getD
    (((selected.identities.zipIdx.find? fun q => q.1.root = p.1.publicKey ∧
      known f doc q.1.root = none).map fun q => drawnId f labels doc (q.2 + 1)).getD
        (drawnId f labels doc (p.2 + 1 + maxParties)))

/-- The observation of a selected party. -/
def SelectedIntroduction.told (p : Party × ℕ) (claim : Claim) : Observation :=
  observed labels selected.verified.introduction.issuer.root
    selected.verified.introduction.issuedAt (partyMeeting f labels doc p) claim

/-- Its discriminator. -/
def SelectedIntroduction.digest (p : Party × ℕ) (claim : Claim) : Bytes :=
  observationDiscriminator f (selected.told f doc labels p claim)

/-- The contacts and meetings of a call are clear of those that are there. -/
structure Clear : Prop where
  /-- No id that is drawn is a contact's. -/
  unlisted : ∀ n ∈ draws f doc selected, drawnId f labels doc n ∉ contactIds doc
  /-- No id is drawn twice. -/
  distinct : ((draws f doc selected).map (drawnId f labels doc)).Nodup
  /-- Two identities are not found at one contact. -/
  homes : ∀ identity ∈ selected.identities, ∀ other ∈ selected.identities, ∀ id,
    known f doc identity.root = some id → known f doc other.root = some id → identity = other
  /-- Every contact that retains a selected root is one where a selected identity is found. -/
  covered : ∀ identity ∈ selected.identities, ∀ id, Retains f doc id identity.root →
    ∃ other ∈ selected.identities, known f doc other.root = some id
  /-- No selected root is left under the id that is drawn for a party. -/
  unretained : ∀ p ∈ selected.chosen, selected.IsNew f doc p →
    ∀ identity ∈ selected.identities, ((retainedIdentityAt f doc
      (drawnId f labels doc (p.2 + 1 + maxParties))).map fun retained => retained.root) ≠
        some identity.root
  /-- The meetings are not there, or are the same. -/
  meetings : ∀ p ∈ selected.chosen, ∀ pair ∈ meetingFields f labels
    selected.verified.introduction.issuer.root doc p,
      doc.history.shown pair.1 = [] ∨ doc.history.values pair.1 = [pair.2]

/-- What is shown of the parties is not mixed with anything else. -/
structure Unmixed : Prop where
  /-- No party's contact was merged into another's. -/
  apart : ∀ p ∈ selected.chosen, ∀ q ∈ selected.chosen, q ≠ p → q.1.observations ≠ [] →
    rootString doc (.alias (partyPlace f doc labels selected q)) ≠
      some (partyPlace f doc labels selected p)
  /-- Different claims about a party have different discriminators. -/
  digests : ∀ p ∈ selected.chosen, ∀ claim ∈ p.1.observations, ∀ other ∈ p.1.observations,
    selected.digest f doc labels p other = selected.digest f doc labels p claim → other = claim
  /-- None of them is in use at the party's contact. -/
  fresh : ∀ p ∈ selected.chosen, ∀ claim ∈ p.1.observations,
    ∀ source ∈ observationSources doc (partyPlace f doc labels selected p), ∀ field,
      doc.history.shown (.observation source (selected.digest f doc labels p claim) field) = []
  /-- No observation is left under the id of a new contact. -/
  bare : ∀ p ∈ selected.chosen, contactWithPublicKey f doc p.1.publicKey = none →
    observations doc (partyPlace f doc labels selected p) = []

/-- What the contact showed, if there was one. -/
def shownBefore (id : Bytes) : List Observation :=
  ((card f doc id).map Card.observations).getD []

/-- What a successful call has done. -/
structure Introduced (doc' : Document) : Prop where
  touched : ∀ key, doc'.history.shown key ≠ doc.history.shown key →
    (∃ identity ∈ selected.identities, ∃ id field,
      Retains f doc' id identity.root ∧ key = .contact id field) ∨
    (∃ p ∈ selected.chosen, ∃ id, contactWithPublicKey f doc' p.1.publicKey = some id ∧
      ((id ∉ contactIds doc ∧ ∃ field, key = .contact id field) ∨
        ∃ claim ∈ p.1.observations, ∃ field,
          key = .observation id (selected.digest f doc labels p claim) field)) ∨
    ∃ p ∈ selected.chosen, ∃ field, key = .meeting (partyMeeting f labels doc p) field ∧
      doc.history.shown key = []
  kept : ∀ id ∈ contactIds doc, ∀ field, field ≠ .retainedIdentity →
    doc'.history.shown (.contact id field) = doc.history.shown (.contact id field)
  retained : ∀ identity ∈ selected.identities, ∃ id,
    (∀ other, Retains f doc' other identity.root ↔ other = id) ∧
      allRootBytes doc' (.contact id .retainedIdentity) = [f.encodeIdentity identity.wire] ∧
      ∀ found, known f doc identity.root = some found → id = found
  told : ∀ p ∈ selected.chosen, ∃ id, contactWithPublicKey f doc' p.1.publicKey = some id ∧
    (observations doc' id).Perm (shownBefore f doc id ++
      p.1.observations.dedup.map (selected.told f doc labels p)) ∧
    ∀ found, contactWithPublicKey f doc p.1.publicKey = some found → id = found

/-- A call changes nothing when it fails, keeps what is selected when it succeeds, and does not
depend on anything else that the introduction says. -/
structure Persists : Prop where
  unchanged : ∀ e, (persisted f doc selected labels).2 = .error e →
    (persisted f doc selected labels).1 = doc
  introduced : ∀ id, (persisted f doc selected labels).2 = .ok id →
    Introduced f doc labels selected (persisted f doc selected labels).1
  untraced : ∀ other : SelectedIntroduction f, other.identities = selected.identities →
    other.parties = selected.parties → other.chosen = selected.chosen →
    other.verified.introduction.issuer.root = selected.verified.introduction.issuer.root →
    other.verified.introduction.issuedAt = selected.verified.introduction.issuedAt →
    persisted f doc other labels = persisted f doc selected labels

end Selection

/-! ## The call as a whole -/

theorem mem_zipIdx_inj {α β : Type} {items : List α} {g : α → β} (h : (items.map g).Nodup)
    {p q : α × ℕ} (hp : p ∈ items.zipIdx) (hq : q ∈ items.zipIdx) (heq : g p.1 = g q.1) :
    p = q := by
  have hnodup : (items.zipIdx.map fun p => g p.1).Nodup := by
    rw [show (fun p : α × ℕ => g p.1) = g ∘ Prod.fst from rfl, ← List.map_map, List.zipIdx_map_fst]
    exact h
  exact List.inj_on_of_nodup_map hnodup hp hq heq

theorem fst_mem_of_mem_zipIdx {α : Type} {items : List α} {p : α × ℕ} (h : p ∈ items.zipIdx) :
    p.1 ∈ items := by
  obtain ⟨-, hget⟩ := List.mem_zipIdx' h
  exact hget ▸ List.getElem_mem _

theorem snd_inj_of_mem_zipIdx {α : Type} {items : List α} {p q : α × ℕ} (hp : p ∈ items.zipIdx)
    (hq : q ∈ items.zipIdx) (heq : p.2 = q.2) : p = q := by
  obtain ⟨-, hget⟩ := List.mem_zipIdx' hp
  obtain ⟨-, hget'⟩ := List.mem_zipIdx' hq
  refine Prod.ext ?_ heq
  rw [hget, hget']
  simp only [heq]

section Call

variable {selected : SelectedIntroduction f} {mid : Document}

theorem mem_of_mem_identities {identity : AuthenticatedIdentity f}
    (h : identity ∈ selected.identities) :
    identity ∈ selected.verified.introduction.allIdentities :=
  (List.mem_filter.1 h).1

theorem nodup_identities (selected : SelectedIntroduction f) :
    (selected.identities.map AuthenticatedIdentity.root).Nodup :=
  selected.verified.nodup.sublist (List.filter_sublist.map _)

theorem mem_of_mem_chosen {p : Party × ℕ} (h : p ∈ selected.chosen) :
    p ∈ selected.verified.introduction.parties.zipIdx :=
  (List.mem_filter.1 h).1

/-- The numbers of new identities are drawn. -/
theorem mem_draws_of_identity {p : AuthenticatedIdentity f × ℕ}
    (hp : p ∈ selected.identities.zipIdx) (hknown : known f doc p.1.root = none) :
    p.2 + 1 ∈ ((selected.identities.zipIdx.filter fun p => known f doc p.1.root = none).map
      fun p => p.2 + 1) :=
  List.mem_map.2 ⟨p, List.mem_filter.2 ⟨hp, decide_eq_true hknown⟩, rfl⟩

/-- The numbers of new parties are drawn. -/
theorem mem_draws_of_party {p : Party × ℕ} (hp : p ∈ selected.chosen)
    (hnew : selected.IsNew f doc p) : p.2 + 1 + maxParties ∈
      ((selected.chosen.filter fun p => selected.IsNew f doc p).map
        fun p => p.2 + 1 + maxParties) :=
  List.mem_map.2 ⟨p, List.mem_filter.2 ⟨hp, decide_eq_true hnew⟩, rfl⟩

/-- An identity that is selected has a number. -/
theorem exists_mem_zipIdx {identity : AuthenticatedIdentity f}
    (h : identity ∈ selected.identities) :
    ∃ index, (identity, index) ∈ selected.identities.zipIdx := by
  obtain ⟨index, hlt, hget⟩ := List.mem_iff_getElem.1 h
  exact ⟨index, List.mk_mem_zipIdx_iff_getElem?.2 (by rw [List.getElem?_eq_getElem hlt, hget])⟩

theorem Clear.placeable (h : Clear f doc labels selected) :
    Placeable f labels doc selected.identities.zipIdx := by
  have hroots {p q : AuthenticatedIdentity f × ℕ} (hp : p ∈ selected.identities.zipIdx)
      (hq : q ∈ selected.identities.zipIdx) (heq : p.1.root = q.1.root) : p = q :=
    mem_zipIdx_inj (nodup_identities selected) hp hq heq
  refine
    { valid := fun p hp => selected.verified.checked.identities p.1
        (mem_of_mem_identities (fst_mem_of_mem_zipIdx hp))
      validKey := fun p _ => validKey_of_fromBytes p.1.binding
      roots := fun p hp q hq => hroots hp hq
      unlisted := fun p hp hknown => h.unlisted _ (List.mem_append_left _
        (mem_draws_of_identity hp hknown))
      homes := fun p hp q hq heq => ?_ }
  rcases hknown : known f doc p.1.root with _ | id
  · rcases hknown' : known f doc q.1.root with _ | id'
    · rw [identityHome_of_none _ hknown, identityHome_of_none _ hknown'] at heq
      have hdistinct := h.distinct
      rw [draws, List.map_append] at hdistinct
      -- the numbers are different, and so the indices are
      have hnumber := List.inj_on_of_nodup_map (List.nodup_append'.1 hdistinct).1
        (mem_draws_of_identity hp hknown) (mem_draws_of_identity hq hknown') heq
      exact snd_inj_of_mem_zipIdx hp hq (by omega)
    · rw [identityHome_of_none _ hknown, identityHome_of_some _ hknown'] at heq
      exact absurd (heq ▸ mem_contactIds_of_known hknown') (h.unlisted _
        (List.mem_append_left _ (mem_draws_of_identity hp hknown)))
  · rcases hknown' : known f doc q.1.root with _ | id'
    · rw [identityHome_of_some _ hknown, identityHome_of_none _ hknown'] at heq
      exact absurd (heq ▸ mem_contactIds_of_known hknown) (h.unlisted _
        (List.mem_append_left _ (mem_draws_of_identity hq hknown')))
    · rw [identityHome_of_some _ hknown, identityHome_of_some _ hknown'] at heq
      exact hroots hp hq (congrArg _ (h.homes p.1 (fst_mem_of_mem_zipIdx hp) q.1
        (fst_mem_of_mem_zipIdx hq) id hknown (heq ▸ hknown')))

variable (hkept : Kept f labels doc mid selected.identities.zipIdx)
include hkept

theorem mem_contactIds_mid {id : Bytes} (hid : id ∈ contactIds doc) : id ∈ contactIds mid := by
  rw [mem_contactIds_congr (hkept.kept id hid _ (by simp))]
  exact hid

theorem mem_contactIds_home {p : AuthenticatedIdentity f × ℕ}
    (hp : p ∈ selected.identities.zipIdx) : identityHome f labels doc p ∈ contactIds mid := by
  rcases hknown : known f doc p.1.root with _ | id
  · exact (hkept.created p hp hknown).mem_contactIds
  · rw [identityHome_of_some labels hknown]
    exact mem_contactIds_mid hkept (mem_contactIds_of_known hknown)

/-- A contact that is listed after the identities was listed before, or is a new one of theirs. -/
theorem mem_contactIds_of_mid {id : Bytes} (hid : id ∈ contactIds mid) :
    id ∈ contactIds doc ∨ ∃ p ∈ selected.identities.zipIdx, known f doc p.1.root = none ∧
      id = drawnId f labels doc (p.2 + 1) := by
  by_cases hhome : ∃ p ∈ selected.identities.zipIdx, identityHome f labels doc p = id
  · obtain ⟨p, hp, rfl⟩ := hhome
    rcases hknown : known f doc p.1.root with _ | other
    · exact .inr ⟨p, hp, hknown, identityHome_of_none labels hknown⟩
    · rw [identityHome_of_some labels hknown]
      exact .inl (mem_contactIds_of_known hknown)
  · rw [mem_contactIds_congr (hkept.frame _ fun p hp field heq =>
      hhome ⟨p, hp, (Key.contact.inj heq).1.symm⟩)] at hid
    exact .inl hid

/-- The parties that have no contact even after the identities are the new ones. -/
theorem isNew_iff {p : Party × ℕ} :
    selected.IsNew f doc p ↔ contactWithPublicKey f mid p.1.publicKey = none := by
  rw [SelectedIntroduction.IsNew, contactWithPublicKey_eq_none, contactWithPublicKey_eq_none]
  constructor
  · rintro ⟨hnone, hidentities⟩ id hkey
    rcases hkept.hasKey_iff.1 hkey with hkey | ⟨q, hq, hknown, -, heq⟩
    · exact hnone id hkey
    · exact hidentities q.1 (fst_mem_of_mem_zipIdx hq) heq hknown
  · intro hmid
    refine ⟨fun id hid => hmid id (hkept.hasKey_iff.2 (.inl hid)), ?_⟩
    intro identity hin heq hknown
    obtain ⟨index, hmem⟩ := exists_mem_zipIdx hin
    refine hmid (identityHome f labels doc (identity, index)) ?_
    rw [← heq]
    exact hkept.created _ hmem hknown

/-- The contact of a party is known before the identities are retained. -/
theorem partyHome_mid (p : Party × ℕ) :
    partyHome f labels mid p = partyPlace f doc labels selected p := by
  rw [partyPlace]
  rcases hfound : contactWithPublicKey f doc p.1.publicKey with _ | id
  · rw [Option.getD_none]
    have hnone := contactWithPublicKey_eq_none.1 hfound
    rcases hidentity : selected.identities.zipIdx.find? fun q => q.1.root = p.1.publicKey ∧
      known f doc q.1.root = none with _ | q
    · -- nobody has made a contact for it
      have hnew : selected.IsNew f doc p := by
        refine ⟨hfound, fun identity hin heq hknown => ?_⟩
        obtain ⟨index, hmem⟩ := exists_mem_zipIdx hin
        exact List.find?_eq_none.1 hidentity _ hmem (decide_eq_true ⟨heq, hknown⟩)
      rw [partyHome_of_none labels ((isNew_iff hkept).1 hnew), hidentity, drawnId, drawnId,
        hkept.actor]
      rfl
    · obtain ⟨heq, hknown⟩ : q.1.root = p.1.publicKey ∧ known f doc q.1.root = none := by
        simpa using List.find?_some hidentity
      have hq := List.mem_of_find?_eq_some hidentity
      have hmid : contactWithPublicKey f mid p.1.publicKey =
          some (identityHome f labels doc q) := by
        refine contactWithPublicKey_eq_some.2 ⟨heq ▸ hkept.created q hq hknown,
          fun other hother => ?_⟩
        rcases hkept.hasKey_iff.1 hother with hkey | ⟨r, hr, -, rfl, hroot⟩
        · exact absurd hkey (hnone other)
        · rw [mem_zipIdx_inj (nodup_identities selected) hr hq (hroot.trans heq.symm)]
          exact List.le_refl _
      rw [partyHome_of_some labels hmid, identityHome_of_none labels hknown, hidentity]
      rfl
  · have hsame : contactWithPublicKey f mid p.1.publicKey =
        contactWithPublicKey f doc p.1.publicKey := by
      refine contactWithPublicKey_congr fun other => ?_
      rw [hkept.hasKey_iff]
      refine or_iff_left ?_
      rintro ⟨q, -, hknown, -, heq⟩
      rw [heq] at hknown
      exact not_hasKey_of_known hknown id (contactWithPublicKey_eq_some.1 hfound).1
    rw [partyHome_of_some labels (hsame.trans hfound), Option.getD_some]

theorem partyMeeting_mid (p : Party × ℕ) :
    partyMeeting f labels mid p = partyMeeting f labels doc p := by
  rw [partyMeeting, partyMeeting, hkept.actor]

theorem meetingFields_mid (p : Party × ℕ) (issuerRoot : Bytes32) :
    meetingFields f labels issuerRoot mid p = meetingFields f labels issuerRoot doc p := by
  rw [meetingFields, meetingFields, partyMeeting_mid hkept]

variable (h : Clear f doc labels selected)
include h

/-- The contact of a party was there before, or was not listed. -/
theorem partyPlace_cases {p : Party × ℕ} (hp : p ∈ selected.chosen) :
    contactWithPublicKey f doc p.1.publicKey = some (partyPlace f doc labels selected p) ∨
      contactWithPublicKey f doc p.1.publicKey = none ∧
        partyPlace f doc labels selected p ∉ contactIds doc := by
  rw [← partyHome_mid hkept]
  rcases hfound : contactWithPublicKey f doc p.1.publicKey with _ | id
  · refine .inr ⟨rfl, ?_⟩
    rcases hmid : contactWithPublicKey f mid p.1.publicKey with _ | id
    · rw [partyHome_of_none labels hmid, drawnId, hkept.actor]
      exact h.unlisted _ (List.mem_append_right _
        (mem_draws_of_party hp ((isNew_iff hkept).2 hmid)))
    · rw [partyHome_of_some labels hmid]
      rcases hkept.hasKey_iff.1 (contactWithPublicKey_eq_some.1 hmid).1 with
        hkey | ⟨q, hq, hknown, rfl, -⟩
      · exact absurd hkey (contactWithPublicKey_eq_none.1 hfound id)
      · rw [identityHome_of_none labels hknown]
        exact h.placeable.unlisted q hq hknown
  · rw [partyHome_mid hkept, partyPlace, hfound, Option.getD_some]
    exact .inl rfl

theorem Clear.introducible (hreceived : labels.received < 2 ^ 64)
    (hdigests : ∀ p ∈ selected.chosen, ∀ claim ∈ p.1.observations, ∀ other ∈ p.1.observations,
      selected.digest f doc labels p other = selected.digest f doc labels p claim →
        other = claim) :
    Introducible f labels selected.verified.introduction.issuer.root
      selected.verified.introduction.issuedAt mid selected.chosen := by
  have hchecked := selected.verified.checked
  have hdistinct := h.distinct
  rw [draws, List.map_append] at hdistinct
  obtain ⟨-, hparties, hdisjoint⟩ := List.nodup_append'.1 hdistinct
  have hdrawn (n : ℕ) : drawnId f labels mid n = drawnId f labels doc n := by
    rw [drawnId, drawnId, hkept.actor]
  have hparty {p : Party × ℕ} (hp : p ∈ selected.chosen) :
      p.1 ∈ selected.verified.introduction.parties :=
    fst_mem_of_mem_zipIdx (mem_of_mem_chosen hp)
  have hdraw {p : Party × ℕ} (hp : p ∈ selected.chosen)
      (hnone : contactWithPublicKey f mid p.1.publicKey = none) :=
    mem_draws_of_party hp ((isNew_iff hkept).2 hnone)
  refine
    { received := hreceived
      time := hchecked.time
      validKey := fun p hp => validContactKey_of_validKey (hchecked.parties p.1 (hparty hp)).1
      claims := fun p hp claim hclaim =>
        validateClaims_singleton (hchecked.parties p.1 (hparty hp)).2 hclaim
      keys := fun p hp q hq =>
        mem_zipIdx_inj hchecked.keys (mem_of_mem_chosen hp) (mem_of_mem_chosen hq)
      unlisted := fun p hp hnone hmem => ?_
      distinct := fun p hp q hq hnone hnone' heq => ?_
      digests := fun p hp claim hclaim other hother heq => ?_ }
  · rw [hdrawn] at hmem
    rcases mem_contactIds_of_mid hkept hmem with hold | ⟨q, hq, hknown, heq⟩
    · exact h.unlisted _ (List.mem_append_right _ (hdraw hp hnone)) hold
    · exact hdisjoint (List.mem_map_of_mem (mem_draws_of_identity hq hknown))
        (heq ▸ List.mem_map_of_mem (hdraw hp hnone))
  · rw [hdrawn, hdrawn] at heq
    have hnumber := List.inj_on_of_nodup_map hparties (hdraw hp hnone) (hdraw hq hnone') heq
    exact snd_inj_of_mem_zipIdx (mem_of_mem_chosen hp) (mem_of_mem_chosen hq) (by omega)
  · refine hdigests p hp claim hclaim other hother ?_
    rw [digest, digest, Contacts.told, Contacts.told, partyMeeting_mid hkept] at heq
    exact heq

section Result

variable {out : Document}
  (htold : Told f labels selected.verified.introduction.issuer.root
    selected.verified.introduction.issuedAt mid out selected.chosen)
include htold

/-- The loop over the parties leaves a selected root where it is. -/
theorem retains_out {id : Bytes} {identity : AuthenticatedIdentity f}
    (hidentity : identity ∈ selected.identities) :
    Retains f out id identity.root ↔ Retains f mid id identity.root := by
  by_cases hid : id ∈ contactIds mid
  · exact retains_congr (htold.kept id hid _) (htold.kept id hid _)
  refine iff_of_false (fun hretains => ?_) fun hretains => hid hretains.1
  by_cases hhome : ∃ p ∈ selected.chosen, partyHome f labels mid p = id
  · obtain ⟨p, hp, rfl⟩ := hhome
    rcases hfound : contactWithPublicKey f mid p.1.publicKey with _ | found
    · -- the contact is new, so that its register is as it was before
      rw [partyHome_of_none labels hfound, drawnId, hkept.actor] at hretains hid
      refine h.unretained p hp ((isNew_iff hkept).2 hfound) identity hidentity ?_
      rw [← hretains.2, drawnId, retainedIdentityAt, retainedIdentityAt, allRootBytes_congr]
      rw [htold.unretained, hkept.frame _ fun q hq field heq => hid ?_]
      rw [(Key.contact.inj heq).1]
      exact mem_contactIds_home hkept hq
    · rw [partyHome_of_some labels hfound] at hid
      exact hid (mem_contactIds_of_contactWithPublicKey hfound)
  · have hlisted := hretains.1
    rw [mem_contactIds_congr (htold.frame _ fun p hp =>
      ⟨fun field heq => hhome ⟨p, hp, (Key.contact.inj heq).1.symm⟩, fun _ _ _ => by simp,
        held_of_ne_meeting (by simp)⟩)] at hlisted
    exact hid hlisted

/-- A selected identity is retained at its contact and nowhere else. -/
theorem retains_iff (hlaw : f.Lawful) {p : AuthenticatedIdentity f × ℕ}
    (hp : p ∈ selected.identities.zipIdx) {id : Bytes} :
    Retains f out id p.1.root ↔ id = identityHome f labels doc p := by
  rw [retains_out hkept h htold (fst_mem_of_mem_zipIdx hp)]
  have hretained := retained_root hlaw (h.placeable.valid p hp) (hkept.retained p hp)
  constructor
  · intro hretains
    by_cases hhome : ∃ q ∈ selected.identities.zipIdx, identityHome f labels doc q = id
    · obtain ⟨q, hq, rfl⟩ := hhome
      have hroot := retained_root hlaw (h.placeable.valid q hq) (hkept.retained q hq)
      rw [h.placeable.roots p hp q hq (Option.some.inj (hretains.2.symm.trans hroot))]
    · -- it was retained there before, where an identity is found
      have hframe (field : ContactField) : mid.history.shown (.contact id field) =
          doc.history.shown (.contact id field) :=
        hkept.frame _ fun q hq field' heq => hhome ⟨q, hq, (Key.contact.inj heq).1.symm⟩
      rw [retains_congr (hframe _) (hframe _)] at hretains
      obtain ⟨other, hother, hknown⟩ := h.covered p.1 (fst_mem_of_mem_zipIdx hp) id hretains
      obtain ⟨index, hmem⟩ := exists_mem_zipIdx hother
      exact absurd ⟨_, hmem, identityHome_of_some labels hknown⟩ hhome
  · rintro rfl
    exact ⟨mem_contactIds_home hkept hp, hretained⟩

omit hkept h in
/-- The contact of a party is the one that is found by its key. -/
theorem contactWithPublicKey_out (hkeys : ∀ p ∈ selected.chosen, ∀ q ∈ selected.chosen,
      p.1.publicKey = q.1.publicKey → p = q) {p : Party × ℕ} (hp : p ∈ selected.chosen) :
    contactWithPublicKey f out p.1.publicKey = some (partyHome f labels mid p) := by
  rw [contactWithPublicKey_eq_some]
  refine ⟨htold.created p hp, fun other hother => ?_⟩
  rcases htold.hasKey_iff.1 hother with hmid | ⟨q, hq, rfl, heq⟩
  · rcases hfound : contactWithPublicKey f mid p.1.publicKey with _ | id
    · exact absurd hmid (contactWithPublicKey_eq_none.1 hfound other)
    · rw [partyHome_of_some labels hfound]
      exact (contactWithPublicKey_eq_some.1 hfound).2 other hmid
  · rw [hkeys q hq p hp heq]
    exact List.le_refl _

end Result

/-! What is shown of a party's contact: the old observations, and the new ones beside them. -/

omit h in
theorem digest_mid (q : Party × ℕ) (claim : Claim) :
    digest f labels selected.verified.introduction.issuer.root
      selected.verified.introduction.issuedAt mid q claim =
        selected.digest f doc labels q claim := by
  rw [digest, Contacts.told, partyMeeting_mid hkept, SelectedIntroduction.digest,
    SelectedIntroduction.told]

/-- No party's contact is a source of another's. -/
theorem eq_of_mem_observationSources (hunmixed : Unmixed f doc labels selected)
    (hreceived : labels.received < 2 ^ 64) {p q : Party × ℕ} (hp : p ∈ selected.chosen)
    (hq : q ∈ selected.chosen) {claim : Claim} (hclaim : claim ∈ q.1.observations)
    (hmem : partyPlace f doc labels selected q ∈
      observationSources doc (partyPlace f doc labels selected p)) : q = p := by
  by_contra hne
  rcases mem_observationSources.1 hmem with heq | ha
  · rw [← partyHome_mid hkept, ← partyHome_mid hkept] at heq
    exact hne ((h.introducible hkept hreceived hunmixed.digests).home_inj hq hp heq)
  · exact hunmixed.apart p hp q hq hne (List.ne_nil_of_mem hclaim) ha

/-- A contact that is not there has nothing to show. -/
theorem shownBefore_partyPlace (hunmixed : Unmixed f doc labels selected) {p : Party × ℕ}
    (hp : p ∈ selected.chosen) : shownBefore f doc (partyPlace f doc labels selected p) =
      observations doc (partyPlace f doc labels selected p) := by
  rcases partyPlace_cases hkept h hp with hfound | ⟨hnone, hunlisted⟩
  · obtain ⟨c, hc, -⟩ := (contactWithPublicKey_eq_some.1 hfound).1
    rw [shownBefore, card, hc]
    rfl
  · rw [hunmixed.bare p hp hnone, shownBefore, card, contact, if_pos]
    · rfl
    · exact fun hpresent => hunlisted (mem_contactIds_of_rootString hpresent)

section Result

variable {out : Document}
  (htold : Told f labels selected.verified.introduction.issuer.root
    selected.verified.introduction.issuedAt mid out selected.chosen)
include htold

omit h in
theorem observationSources_out (id : Bytes) :
    observationSources out id = observationSources doc id := by
  refine observationSources_congr fun source => ?_
  rw [rootString_congr (htold.frame _ fun _ _ => ⟨fun _ => by simp, fun _ _ _ => by simp,
    held_of_ne_meeting (by simp)⟩), rootString_congr (hkept.frame _ fun _ _ _ => by simp)]

/-- Every observation that is not one of the new ones stays as it was. -/
theorem shown_observation_out (hunmixed : Unmixed f doc labels selected)
    (hreceived : labels.received < 2 ^ 64) {p : Party × ℕ} (hp : p ∈ selected.chosen)
    {source : Bytes} (hin : source ∈ observationSources doc (partyPlace f doc labels selected p))
    {discriminator : Bytes} (hne : source = partyPlace f doc labels selected p →
      ∀ claim ∈ p.1.observations, discriminator ≠ selected.digest f doc labels p claim)
    (field : ObservationField) : out.history.shown (.observation source discriminator field) =
      doc.history.shown (.observation source discriminator field) := by
  rw [← hkept.frame (.observation source discriminator field) fun _ _ _ => by simp]
  refine htold.frame _ fun q hq => ⟨fun _ => by simp, fun claim hclaim field' heq => ?_,
    held_of_ne_meeting (by simp)⟩
  obtain ⟨hsame, hnumber, -⟩ := Key.observation.inj heq
  rw [partyHome_mid hkept] at hsame
  have hqp : q = p :=
    eq_of_mem_observationSources hkept h hunmixed hreceived hp hq hclaim (hsame ▸ hin)
  rw [hqp] at hsame hclaim
  refine hne hsame claim hclaim (hnumber.trans ?_)
  rw [hqp, digest_mid hkept]

/-- The contact of a party shows what was observed about it in addition. -/
theorem observations_out (hunmixed : Unmixed f doc labels selected)
    (hreceived : labels.received < 2 ^ 64) {p : Party × ℕ} (hp : p ∈ selected.chosen) :
    (observations out (partyPlace f doc labels selected p)).Perm
      (shownBefore f doc (partyPlace f doc labels selected p) ++
        p.1.observations.dedup.map (selected.told f doc labels p)) := by
  rw [shownBefore_partyPlace hkept h hunmixed hp]
  -- the new copies
  obtain ⟨news, hnews⟩ : ∃ news, news = p.1.observations.dedup.map fun claim =>
      (selected.digest f doc labels p claim, selected.told f doc labels p claim) :=
    ⟨_, rfl⟩
  have hfst : news.map Prod.fst =
      p.1.observations.dedup.map (selected.digest f doc labels p) := by
    simp only [hnews, List.map_map, Function.comp_def]
  have hsnd : news.map Prod.snd = p.1.observations.dedup.map (selected.told f doc labels p) := by
    simp only [hnews, List.map_map, Function.comp_def]
  have hclaim {discriminator : Bytes} : discriminator ∈ news.map Prod.fst ↔
      ∃ claim ∈ p.1.observations, selected.digest f doc labels p claim = discriminator := by
    rw [hfst, List.mem_map]
    simp only [List.mem_dedup]
  rw [← hsnd]
  refine observations_extend ?_ (observationSources_out hkept htold _) ?_ ?_ ?_ ?_
  · rw [hfst]
    refine (List.nodup_dedup _).map_on fun claim hin other hother heq => ?_
    exact hunmixed.digests p hp other (List.mem_dedup.1 hother) claim (List.mem_dedup.1 hin) heq
  · intro source hin discriminator hnot field
    exact shown_observation_out hkept h htold hunmixed hreceived hp hin
      (fun _ claim hmem heq => hnot (hclaim.2 ⟨claim, hmem, heq.symm⟩)) field
  · intro source hin discriminator hnew field
    obtain ⟨claim, hmem, rfl⟩ := hclaim.1 hnew
    exact hunmixed.fresh p hp claim hmem source hin field
  · intro source hin hne discriminator hnew field
    obtain ⟨claim, hmem, rfl⟩ := hclaim.1 hnew
    rw [shown_observation_out hkept h htold hunmixed hreceived hp hin fun heq => absurd heq hne]
    exact hunmixed.fresh p hp claim hmem source hin field
  · intro new hnew
    rw [hnews] at hnew
    obtain ⟨claim, hmem, rfl⟩ := List.mem_map.1 hnew
    have hstored := htold.stored p hp claim (List.mem_dedup.1 hmem)
    rw [partyHome_mid hkept, digest_mid hkept, Contacts.told, partyMeeting_mid hkept] at hstored
    dsimp only
    rw [hstored, SelectedIntroduction.told]

end Result

end Call

/-! ## What a call that is not disturbed does -/

section Persists

variable {selected : SelectedIntroduction f} {mid out : Document}
  (hkept : Kept f labels doc mid selected.identities.zipIdx) (h : Clear f doc labels selected)
  (hunmixed : Unmixed f doc labels selected) (hlaw : f.Lawful)
  (hreceived : labels.received < 2 ^ 64)
  (htold : Told f labels selected.verified.introduction.issuer.root
    selected.verified.introduction.issuedAt mid out selected.chosen)
include hkept h hunmixed hlaw hreceived htold

/-- Only what is selected is touched. -/
theorem touched_out {key : Key} (hne : out.history.shown key ≠ doc.history.shown key) :
    (∃ identity ∈ selected.identities, ∃ id field,
      Retains f out id identity.root ∧ key = .contact id field) ∨
    (∃ p ∈ selected.chosen, ∃ id, contactWithPublicKey f out p.1.publicKey = some id ∧
      ((id ∉ contactIds doc ∧ ∃ field, key = .contact id field) ∨
        ∃ claim ∈ p.1.observations, ∃ field,
          key = .observation id (selected.digest f doc labels p claim) field)) ∨
    ∃ p ∈ selected.chosen, ∃ field, key = .meeting (partyMeeting f labels doc p) field ∧
      doc.history.shown key = [] := by
  have hkeys := (h.introducible hkept hreceived hunmixed.digests).keys
  by_cases hidentity : ∃ p ∈ selected.identities.zipIdx, ∃ field,
      key = .contact (identityHome f labels doc p) field
  · obtain ⟨p, hp, field, rfl⟩ := hidentity
    exact .inl ⟨p.1, fst_mem_of_mem_zipIdx hp, _, field,
      (retains_iff hkept h htold hlaw hp).2 rfl, rfl⟩
  push Not at hidentity
  -- so that the identities have left it alone
  rw [← hkept.frame key hidentity] at hne
  by_cases hparty : ∃ p ∈ selected.chosen, ∃ field, key = .contact (partyHome f labels mid p) field
  · obtain ⟨p, hp, field, rfl⟩ := hparty
    refine .inr (.inl ⟨p, hp, _, contactWithPublicKey_out htold hkeys hp,
      .inl ⟨fun hmem => hne ?_, field, rfl⟩⟩)
    exact htold.kept _ (mem_contactIds_mid hkept hmem) field
  by_cases hobservation : ∃ p ∈ selected.chosen, ∃ claim ∈ p.1.observations, ∃ field,
      key = .observation (partyHome f labels mid p) (selected.digest f doc labels p claim) field
  · obtain ⟨p, hp, claim, hclaim, field, heq⟩ := hobservation
    exact .inr (.inl ⟨p, hp, _, contactWithPublicKey_out htold hkeys hp,
      .inr ⟨claim, hclaim, field, heq⟩⟩)
  by_cases hmeeting : ∃ p ∈ selected.chosen, ∃ pair ∈ meetingFields f labels
      selected.verified.introduction.issuer.root doc p,
      pair.1 = key ∧ doc.history.values key ≠ [pair.2]
  · obtain ⟨p, hp, pair, hpair, rfl, hvalue⟩ := hmeeting
    obtain ⟨field, hfield⟩ := key_of_mem_meetingFields hpair
    exact .inr (.inr ⟨p, hp, field, hfield, (h.meetings p hp pair hpair).resolve_right hvalue⟩)
  push Not at hparty hobservation hmeeting
  refine absurd (htold.frame key fun p hp => ⟨hparty p hp, fun claim hclaim field => ?_,
    fun pair hpair heq => ?_⟩) hne
  · rw [digest_mid hkept]
    exact hobservation p hp claim hclaim field
  · rw [meetingFields_mid hkept] at hpair
    rw [Multivalue.History.values, hkept.frame key hidentity]
    exact hmeeting p hp pair hpair heq

theorem introduced_out : Introduced f doc labels selected out := by
  have hkeys := (h.introducible hkept hreceived hunmixed.digests).keys
  refine
    { touched := fun key hne => touched_out hkept h hunmixed hlaw hreceived htold hne
      kept := fun id hid field hfield => ?_
      retained := fun identity hidentity => ?_
      told := fun p hp => ?_ }
  · rw [htold.kept id (mem_contactIds_mid hkept hid), hkept.kept id hid field hfield]
  · obtain ⟨index, hmem⟩ := exists_mem_zipIdx hidentity
    refine ⟨identityHome f labels doc (identity, index),
      fun other => retains_iff hkept h htold hlaw hmem, ?_,
      fun found hfound => identityHome_of_some labels hfound⟩
    rw [allRootBytes_congr (htold.unretained _)]
    exact hkept.retained _ hmem
  · refine ⟨partyPlace f doc labels selected p, ?_,
      observations_out hkept h htold hunmixed hreceived hp, fun found hfound => ?_⟩
    · rw [← partyHome_mid hkept]
      exact contactWithPublicKey_out htold hkeys hp
    · rw [partyPlace, hfound, Option.getD_some]

end Persists

theorem Kept.refl (f : Foreign) (labels : Labels) (doc : Document) : Kept f labels doc doc [] :=
  ⟨rfl, fun _ _ => rfl, fun _ _ _ _ => rfl, fun _ h => absurd h List.not_mem_nil,
    fun _ h => absurd h List.not_mem_nil⟩

theorem Told.refl (f : Foreign) (labels : Labels) (issuerRoot : Bytes32) (issuedAt : ClaimedTime)
    (doc : Document) : Told f labels issuerRoot issuedAt doc doc [] :=
  ⟨rfl, fun _ _ => rfl, fun _ _ _ => rfl, fun _ => rfl, fun _ h => absurd h List.not_mem_nil,
    fun _ h => absurd h List.not_mem_nil⟩

/-- A call that is admitted and not disturbed succeeds. -/
theorem persisted_of_admits {selected : SelectedIntroduction f}
    (h : Clear f doc labels selected)
    (hdigests : ∀ p ∈ selected.chosen, ∀ claim ∈ p.1.observations, ∀ other ∈ p.1.observations,
      selected.digest f doc labels p other = selected.digest f doc labels p claim →
        other = claim) (hlaw : f.Lawful)
    (hreceived : labels.received < 2 ^ 64) (hadmits : admits f doc selected = .ok ()) :
    ∃ mid out affected, Kept f labels doc mid selected.identities.zipIdx ∧
      Told f labels selected.verified.introduction.issuer.root
        selected.verified.introduction.issuedAt mid out selected.chosen ∧
      ((affected.isSome ↔ selected.identities ≠ [] ∨ selected.chosen ≠ []) ∧
      persisted f doc selected labels = (out, match affected with
        | none => .error "introduction selection is empty"
        | some id => .ok id)) := by
  have hidentities : selected.identities.zipIdx.Nodup := by
    refine List.Nodup.of_map Prod.snd ?_
    rw [List.zipIdx_map_snd]
    exact List.nodup_range'
  have hchosen : selected.chosen.Nodup := by
    refine List.Nodup.filter _ (List.Nodup.of_map Prod.snd ?_)
    rw [List.zipIdx_map_snd]
    exact List.nodup_range'
  obtain ⟨mid, first, hretain, hkept, hfirst⟩ := retainEach_spec h.placeable hlaw
    selected.verified.introduction.issuer.root rfl hidentities (Kept.refl f labels doc) none
  obtain ⟨out, affected, hintroduce, htold, haffected⟩ :
      ∃ out affected, introduceEach f labels selected.verified.introduction.issuer.root
        selected.verified.introduction.issuedAt selected.chosen mid first = (out, .ok affected) ∧
      Told f labels selected.verified.introduction.issuer.root
        selected.verified.introduction.issuedAt mid out selected.chosen ∧
      (affected.isSome ↔ first.isSome ∨ selected.chosen ≠ []) :=
    introduceEach_spec (h.introducible hkept hreceived hdigests) (List.nil_append _).symm hchosen
      (Told.refl f labels _ _ mid) first
  refine ⟨mid, out, affected, hkept, htold, ?_, ?_⟩
  · rw [haffected, hfirst]
    simp
  · unfold persisted
    dsimp only
    rw [hadmits, hretain]
    dsimp only
    rw [hintroduce]
    rcases affected with _ | id
    · rfl
    · rfl

end Polyvisor.Contacts
