import Mathlib.Data.Nat.ModEq
import Polyvisor.Contacts.Persisting

/-!
# Where an introduction stops

The two loops of `persist_verified_introduction` on any document, also where an id that they draw is
a contact's. What they put stays, so that a call that fails and leaves the document as it was has
found everything up to there already kept.

## Main results

* `retainEach_cases`, `introduceEach_cases`: how far the loops come, on every document.
* `persists`: a call whose contacts and meetings are clear, and whose parties' observations are not
  mixed with others, keeps what was selected and nothing else; only calls that are refused, that
  stop before they write or that are clear do.
* `crowded_introduction_is_halved`: with 65 new identities the numbers run out.
-/

namespace Polyvisor.Contacts

variable {f : Foreign} {doc cur next : Document} {labels : Labels}

/-! ## One contact -/

theorem isSome_contact_iff {id : Bytes} :
    (contact f doc id).isSome ↔ rootString doc (.contact id .present) = some (utf8 "true") := by
  rw [contact]
  split_ifs with hpresent
  · exact iff_of_false Bool.noConfusion hpresent
  · exact iff_of_true rfl (not_not.1 hpresent)

theorem HasKey.isSome_contact {id : Bytes} {key : Bytes32} (h : HasKey f doc id key) :
    (contact f doc id).isSome :=
  isSome_contact_iff.2 (hasKey_iff.1 h).1

/-- The contact that is found, or a new one of the id that is drawn. -/
def place (f : Foreign) (labels : Labels) (doc : Document) (found : Option Bytes) (key : Bytes32)
    (petname glyph : Bytes) (n : ℕ) : Except String (Document × Bytes) :=
  match found with
  | some id => .ok (doc, id)
  | none => createContact f doc (some key) petname glyph (derivedEntropy f labels.entropy n)

/-- What that leaves: the contact that was found, or the drawn id put to be one. -/
structure Homed (f : Foreign) (labels : Labels) (doc next : Document) (found : Option Bytes)
    (key : Bytes32) (n : ℕ) (id : Bytes) : Prop where
  actor : next.actor = doc.actor
  grows : doc.Grows next
  frame : ∀ k, (∀ field, k ≠ .contact id field) → next.history.shown k = doc.history.shown k
  unretained : ∀ other, next.history.shown (.contact other .retainedIdentity) =
    doc.history.shown (.contact other .retainedIdentity)
  created : found = some id ∧ next = doc ∨ found = none ∧ id = drawnId f labels doc n ∧
    contact f doc id = none ∧ HasKey f next id key ∧ doc.Rewritten next (.contact id .present)

section Place

variable {found : Option Bytes} {key : Bytes32} {n : ℕ} {id : Bytes}

/-- The id of a new contact is put to be one. -/
theorem rewritten_contactFields (key : Bytes32) (petname glyph : Bytes)
    (hnone : contact f doc id = none) :
    doc.Rewritten (doc.putAll (contactFields id key petname glyph)) (.contact id .present) := by
  have hmem : (Key.contact id .present, Value.text (utf8 "true")) ∈
      contactFields id key petname glyph :=
    List.mem_cons_self
  refine ((RootMap.Grows.refl doc).held_or_rewritten hmem).resolve_left fun hheld => ?_
  -- a register of that one text shows it, and the contact would be there
  have htext : rootString doc (.contact id .present) = some (utf8 "true") := by
    rw [← RootMap.put_of_held hheld]
    exact rootString_put ..
  have hsome := isSome_contact_iff (f := f).2 htext
  rw [hnone] at hsome
  exact Bool.noConfusion hsome

/-- It fails only where the drawn id is a contact's. -/
theorem place_cases (labels : Labels) (doc : Document) (found : Option Bytes)
    (hkey : validContactKey f (some key) = .ok ()) (petname glyph : Bytes) (n : ℕ) :
    (found = none ∧ (contact f doc (drawnId f labels doc n)).isSome ∧
      place f labels doc found key petname glyph n = .error "contact entropy was reused") ∨
    ∃ next id, place f labels doc found key petname glyph n = .ok (next, id) ∧
      Homed f labels doc next found key n id := by
  rcases found with _ | id
  · rcases hcontact : contact f doc (drawnId f labels doc n) with _ | c
    · refine .inr ⟨_, _, createContact_eq_of_none hkey rfl hcontact, ?_⟩
      exact
        { actor := RootMap.putAll_actor ..
          grows := RootMap.grows_putAll ..
          frame := fun k hk => shown_contactFields hk
          unretained := fun other => RootMap.shown_putAll_of_not_mem (by simp [contactFields])
          created := .inr ⟨rfl, rfl, hcontact, hasKey_contactFields ..,
            rewritten_contactFields _ _ _ hcontact⟩ }
    · refine .inl ⟨rfl, rfl, ?_⟩
      rw [drawnId] at hcontact
      rw [place, createContact, hkey]
      dsimp only [bind, Except.bind]
      rw [hcontact, check, if_neg (by simp)]
  · exact .inr ⟨doc, id, rfl, rfl, .refl doc, fun _ _ => rfl, fun _ => rfl, .inl ⟨rfl, rfl⟩⟩

/-- A contact stays. -/
theorem Homed.contacts (h : Homed f labels doc next found key n id) {other : Bytes}
    (hother : (contact f doc other).isSome) : (contact f next other).isSome := by
  by_cases heq : other = id
  · subst heq
    rcases h.created with ⟨-, rfl⟩ | ⟨-, -, -, hkey, -⟩
    · exact hother
    · exact hkey.isSome_contact
  · rw [contact_congr fun field => h.frame _ fun field' hk => heq (Key.contact.inj hk).1]
    exact hother

/-- No contact comes to have another key. -/
theorem Homed.keys (h : Homed f labels doc next found key n id) {other : Bytes} {key' : Bytes32}
    (hne : key ≠ key') (hother : HasKey f next other key') : HasKey f doc other key' := by
  by_cases heq : other = id
  · subst heq
    rcases h.created with ⟨-, rfl⟩ | ⟨-, -, -, hkey, -⟩
    · exact hother
    · exact absurd (hkey.unique hother) hne
  · have hframe (field : ContactField) :
        next.history.shown (.contact other field) = doc.history.shown (.contact other field) :=
      h.frame _ fun field' hk => heq (Key.contact.inj hk).1
    exact (hasKey_congr (hframe _) (hframe _)).1 hother

/-- A new contact is made where there is none. -/
theorem Homed.not_isSome (h : Homed f labels doc next found key n id) (hnone : found = none) :
    ¬ (contact f doc (drawnId f labels doc n)).isSome := by
  rcases h.created with ⟨hfound, -⟩ | ⟨-, rfl, hfree, -⟩
  · rw [hnone] at hfound
    exact (nomatch hfound)
  · rw [hfree]
    exact Bool.noConfusion

/-- Where nothing was written, the contact was found. -/
theorem Homed.found_of_eq (h : Homed f labels doc next found key n id) (heq : next = doc) :
    found = some id := by
  rcases h.created with ⟨hfound, -⟩ | ⟨-, -, -, -, hnew⟩
  · exact hfound
  · exact absurd heq hnew.ne

end Place

/-! ## The identities, on any document -/

/-- The identity is retained already, as it is. -/
def Settled (f : Foreign) (doc : Document) (p : AuthenticatedIdentity f × ℕ) : Prop :=
  ∃ id, known f doc p.1.root = some id ∧
    doc.history.values (.contact id .retainedIdentity) = [.bytes (f.encodeIdentity p.1.wire)]

/-- What the loop has done with the identities so far, whatever it has found. -/
structure Ran (f : Foreign) (labels : Labels) (doc cur : Document)
    (done : List (AuthenticatedIdentity f × ℕ)) : Prop where
  actor : cur.actor = doc.actor
  grows : doc.Grows cur
  contacts : ∀ id, (contact f doc id).isSome → (contact f cur id).isSome
  keys : ∀ id root, (∀ q ∈ done, q.1.root ≠ root) → HasKey f cur id root → HasKey f doc id root
  retains : ∀ id root, (∀ q ∈ done, q.1.root ≠ root) → Retains f cur id root →
    Retains f doc id root
  made : ∀ q ∈ done, known f doc q.1.root = none →
    contact f doc (drawnId f labels doc (q.2 + 1)) = none ∧
      (contact f cur (drawnId f labels doc (q.2 + 1))).isSome ∧
      doc.Rewritten cur (.contact (drawnId f labels doc (q.2 + 1)) .present)
  distinct : ∀ q ∈ done, ∀ r ∈ done, known f doc q.1.root = none → known f doc r.1.root = none →
    drawnId f labels doc (q.2 + 1) = drawnId f labels doc (r.2 + 1) → q = r
  settled : cur = doc → ∀ q ∈ done, Settled f doc q

theorem Ran.refl (f : Foreign) (labels : Labels) (doc : Document) : Ran f labels doc doc [] where
  actor := rfl
  grows := .refl doc
  contacts _ h := h
  keys _ _ _ h := h
  retains _ _ _ h := h
  made _ h := absurd h List.not_mem_nil
  distinct _ h := absurd h List.not_mem_nil
  settled _ _ h := absurd h List.not_mem_nil

section Identities

variable {done : List (AuthenticatedIdentity f × ℕ)} {p : AuthenticatedIdentity f × ℕ} {id : Bytes}

/-- A root that no contact was for has none still. -/
theorem Ran.known_eq_none (h : Ran f labels doc cur done) (hroot : ∀ q ∈ done, q.1.root ≠ p.1.root)
    (hknown : known f doc p.1.root = none) : known f cur p.1.root = none := by
  obtain ⟨hretained, hkey⟩ := Option.or_eq_none_iff.1 hknown
  refine Option.or_eq_none_iff.2 ⟨retainedRootContact_eq_none.2 fun id hid => ?_,
    contactWithPublicKey_eq_none.2 fun id hid => ?_⟩
  · exact retainedRootContact_eq_none.1 hretained id (h.retains id _ hroot hid)
  · exact contactWithPublicKey_eq_none.1 hkey id (h.keys id _ hroot hid)

/-- One more identity is retained. -/
theorem Ran.step (h : Ran f labels doc cur done) (hlaw : f.Lawful)
    (hvalid : validateAuthenticatedIdentity f p.1 = .ok p.1.binding.binding)
    (hroot : ∀ q ∈ done, q.1.root ≠ p.1.root)
    (hhomed : Homed f labels cur next (known f cur p.1.root) p.1.root (p.2 + 1) id) :
    Ran f labels doc (retainIdentity f next id p.1) (done ++ [p]) := by
  have hput {key : Key} (hne : key ≠ .contact id .retainedIdentity) :
      (retainIdentity f next id p.1).history.shown key = next.history.shown key :=
    RootMap.shown_put_of_ne hne
  have hcontacts {other : Bytes} (hother : (contact f cur other).isSome) :
      (contact f (retainIdentity f next id p.1) other).isSome := by
    have hnext := hhomed.contacts hother
    rw [isSome_contact_iff] at hnext ⊢
    rw [rootString_congr (hput (by simp)), hnext]
  have hlater : next.Grows (retainIdentity f next id p.1) := RootMap.grows_put ..
  have hstep : cur.Grows (retainIdentity f next id p.1) := hhomed.grows.trans hlater
  have hdrawn (n : ℕ) : drawnId f labels cur n = drawnId f labels doc n := by
    rw [drawnId, drawnId, h.actor]
  -- the new contact, if the identity had none in the document
  have hnew (hknown : known f doc p.1.root = none) :
      contact f cur (drawnId f labels doc (p.2 + 1)) = none ∧
        (contact f (retainIdentity f next id p.1) (drawnId f labels doc (p.2 + 1))).isSome ∧
        cur.Rewritten (retainIdentity f next id p.1)
          (.contact (drawnId f labels doc (p.2 + 1)) .present) := by
    have hnone := h.known_eq_none hroot hknown
    rcases hhomed.created with ⟨hfound, -⟩ | ⟨-, hid, hfree, hkey, hrewritten⟩
    · rw [hnone] at hfound
      cases hfound
    · rw [hdrawn] at hid
      rw [← hid]
      refine ⟨hfree, ?_, hrewritten.grows hhomed.grows hlater⟩
      rw [isSome_contact_iff, rootString_congr (hput (by simp)), ← isSome_contact_iff (f := f)]
      exact hkey.isSome_contact
  have hfree (hknown : known f doc p.1.root = none) :
      contact f doc (drawnId f labels doc (p.2 + 1)) = none := by
    by_contra hsome
    have hcur := h.contacts _ (Option.isSome_iff_ne_none.2 hsome)
    rw [(hnew hknown).1] at hcur
    exact Bool.noConfusion hcur
  -- an id that was drawn before is a contact's by now
  have hapart {q : AuthenticatedIdentity f × ℕ} (hq : q ∈ done)
      (hq_none : known f doc q.1.root = none) (hp_none : known f doc p.1.root = none)
      (heq : drawnId f labels doc (q.2 + 1) = drawnId f labels doc (p.2 + 1)) : False := by
    have hsome := (h.made q hq hq_none).2.1
    rw [heq, (hnew hp_none).1] at hsome
    exact Bool.noConfusion hsome
  refine
    { actor := (RootMap.put_actor ..).trans (hhomed.actor.trans h.actor)
      grows := h.grows.trans hstep
      contacts := fun other hother => hcontacts (h.contacts other hother)
      keys := fun other root hne hother => ?keys
      retains := fun other root hne hother => ?retains
      made := fun q hq hknown => ?made
      distinct := fun q hq r hr hq_none hr_none heq => ?distinct
      settled := fun heq q hq => ?settled }
  case keys =>
    have hself := hne p (List.mem_append_right _ (List.mem_singleton.2 rfl))
    refine h.keys other root (fun q hq => hne q (List.mem_append_left _ hq)) (hhomed.keys hself ?_)
    exact (hasKey_congr (hput (by simp)) (hput (by simp))).1 hother
  case retains =>
    have hself := hne p (List.mem_append_right _ (List.mem_singleton.2 rfl))
    refine h.retains other root (fun q hq => hne q (List.mem_append_left _ hq)) ?_
    by_cases hid : other = id
    · -- what it retains is the new identity
      subst hid
      have hretained := retained_root hlaw hvalid (allRootBytes_put next
        (.contact other .retainedIdentity) (f.encodeIdentity p.1.wire))
      exact absurd (Option.some.inj (hretained.symm.trans hother.2)) hself
    · have hframe (field : ContactField) : (retainIdentity f next id p.1).history.shown
          (.contact other field) = cur.history.shown (.contact other field) := by
        rw [hput (by simp [hid]), hhomed.frame _ (by simp [hid])]
      exact (retains_congr (hframe _) (hframe _)).1 hother
  case made =>
    rcases List.mem_append.1 hq with hq | hq
    · obtain ⟨hfree, hsome, hrewritten⟩ := h.made q hq hknown
      exact ⟨hfree, hcontacts hsome, hrewritten.grows h.grows hstep⟩
    · obtain rfl := List.mem_singleton.1 hq
      exact ⟨hfree hknown, (hnew hknown).2.1, h.grows.rewritten (hnew hknown).2.2⟩
  case distinct =>
    rcases List.mem_append.1 hq with hold | hlast
    · rcases List.mem_append.1 hr with hold' | hlast'
      · exact h.distinct q hold r hold' hq_none hr_none heq
      · obtain rfl := List.mem_singleton.1 hlast'
        exact (hapart hold hq_none hr_none heq).elim
    · obtain rfl := List.mem_singleton.1 hlast
      rcases List.mem_append.1 hr with hold' | hlast'
      · exact (hapart hold' hr_none hq_none heq.symm).elim
      · exact (List.mem_singleton.1 hlast').symm
  case settled =>
    -- nothing was written, neither before nor now
    have hcur := h.grows.eq_of_eq hstep heq
    have hnext : next = cur := hcur ▸ (h.grows.trans hhomed.grows).eq_of_eq hlater heq
    rcases List.mem_append.1 hq with hq | hq
    · exact h.settled hcur q hq
    · obtain rfl := List.mem_singleton.1 hq
      refine ⟨id, hcur ▸ hhomed.found_of_eq hnext, ?_⟩
      rw [hnext, hcur] at heq
      by_contra hvalue
      exact (RootMap.rewritten_put (fun _ hw => hw) hvalue).ne heq

/-- The loop goes through, or stops at an identity whose drawn id is a contact's. -/
theorem retainEach_cases {all rest : List (AuthenticatedIdentity f × ℕ)} (hlaw : f.Lawful)
    (hvalid : ∀ q ∈ all, validateAuthenticatedIdentity f q.1 = .ok q.1.binding.binding)
    (hkeys : ∀ q ∈ all, validContactKey f (some q.1.root) = .ok ())
    (hroots : (all.map fun q => q.1.root).Nodup) (issuerRoot : Bytes32)
    (hall : all = done ++ rest) (h : Ran f labels doc cur done) (affected : Option Bytes) :
    (∃ out affected', retainEach f labels issuerRoot rest cur affected = (out, .ok affected') ∧
      Ran f labels doc out all ∧ (affected'.isSome ↔ affected.isSome ∨ rest ≠ [])) ∨
    ∃ out before q after, retainEach f labels issuerRoot rest cur affected =
        (out, .error "contact entropy was reused") ∧
      all = before ++ q :: after ∧ Ran f labels doc out before ∧ known f out q.1.root = none ∧
      (contact f out (drawnId f labels out (q.2 + 1))).isSome := by
  induction rest generalizing done cur affected with
  | nil =>
    rw [List.append_nil] at hall
    exact .inl ⟨cur, affected, rfl, hall ▸ h, by simp⟩
  | cons p rest ih =>
    have hp : p ∈ all := hall ▸ List.mem_append_right _ List.mem_cons_self
    have hroot : ∀ q ∈ done, q.1.root ≠ p.1.root := fun q hq heq => by
      rw [hall, List.map_append] at hroots
      exact List.disjoint_of_nodup_append hroots (List.mem_map_of_mem hq)
        (heq ▸ List.mem_map_of_mem List.mem_cons_self)
    obtain ⟨identity, index⟩ := p
    rcases place_cases labels cur (known f cur identity.root) (hkeys _ hp)
      (if identity.root = issuerRoot then labels.petname else [])
      (if identity.root = issuerRoot then labels.glyph else []) (index + 1) with
      ⟨hnone, htaken, herror⟩ | ⟨next, id, hplace, hhomed⟩
    · refine .inr ⟨cur, done, (identity, index), rest, ?_, hall, h, hnone, htaken⟩
      have hcontact : identityContact f labels issuerRoot cur index identity.root = _ := herror
      rw [retainEach, hcontact]
    · have hcontact : identityContact f labels issuerRoot cur index identity.root = _ := hplace
      have hnext := h.step hlaw (hvalid _ hp) hroot hhomed
      rw [retainEach, hcontact]
      rcases ih (by rw [hall, List.append_assoc, List.singleton_append]) hnext
        (affected.or (some id)) with ⟨out, affected', hrun, hran, haffected⟩ | hstopped
      · refine .inl ⟨out, affected', hrun, hran, ?_⟩
        rw [haffected]
        simp
      · exact .inr hstopped

/-- Identities that are settled are passed over. -/
theorem retainEach_settled (labels : Labels) {before : List (AuthenticatedIdentity f × ℕ)}
    (rest : List (AuthenticatedIdentity f × ℕ)) (issuerRoot : Bytes32)
    (h : ∀ q ∈ before, Settled f doc q) (affected : Option Bytes) : ∃ affected',
      retainEach f labels issuerRoot (before ++ rest) doc affected =
        retainEach f labels issuerRoot rest doc affected' := by
  induction before generalizing affected with
  | nil => exact ⟨affected, rfl⟩
  | cons q before ih =>
    obtain ⟨⟨id, hknown, hheld⟩, hbefore⟩ := List.forall_mem_cons.1 h
    obtain ⟨identity, index⟩ := q
    have hcontact : identityContact f labels issuerRoot doc index identity.root =
        .ok (doc, id) := by
      rw [known] at hknown
      rw [identityContact, hknown]
    obtain ⟨affected', hrun⟩ := ih hbefore (affected.or (some id))
    refine ⟨affected', ?_⟩
    rw [List.cons_append, retainEach, hcontact]
    dsimp only
    rw [retainIdentity, RootMap.put_of_held hheld, hrun]

end Identities

/-! ## The parties, on any document -/

/-- The party has its contact, and all that would be written about it is there. -/
def Repeated (f : Foreign) (labels : Labels) (issuerRoot : Bytes32) (issuedAt : ClaimedTime)
    (doc : Document) (p : Party × ℕ) : Prop :=
  ∃ id, contactWithPublicKey f doc p.1.publicKey = some id ∧
    (∀ pair ∈ meetingFields f labels issuerRoot doc p, doc.history.values pair.1 = [pair.2]) ∧
    ∀ claim ∈ p.1.observations,
      ∀ field ∈ observationFields (told f labels issuerRoot issuedAt doc p claim),
        doc.history.values (.observation id
          (digest f labels issuerRoot issuedAt doc p claim) field.1) = [.text field.2]

/-- What the loop has done with the parties so far, whatever it has found. -/
structure Met (f : Foreign) (labels : Labels) (issuerRoot : Bytes32) (issuedAt : ClaimedTime)
    (doc cur : Document) (done : List (Party × ℕ)) : Prop where
  actor : cur.actor = doc.actor
  grows : doc.Grows cur
  contacts : ∀ id, (contact f doc id).isSome → (contact f cur id).isSome
  keys : ∀ id key, (∀ q ∈ done, q.1.publicKey ≠ key) → HasKey f cur id key → HasKey f doc id key
  unretained : ∀ id, cur.history.shown (.contact id .retainedIdentity) =
    doc.history.shown (.contact id .retainedIdentity)
  made : ∀ q ∈ done, contactWithPublicKey f doc q.1.publicKey = none →
    contact f doc (drawnId f labels doc (q.2 + 1 + maxParties)) = none ∧
      (contact f cur (drawnId f labels doc (q.2 + 1 + maxParties))).isSome ∧
      doc.Rewritten cur (.contact (drawnId f labels doc (q.2 + 1 + maxParties)) .present)
  distinct : ∀ q ∈ done, ∀ r ∈ done, contactWithPublicKey f doc q.1.publicKey = none →
    contactWithPublicKey f doc r.1.publicKey = none →
    drawnId f labels doc (q.2 + 1 + maxParties) = drawnId f labels doc (r.2 + 1 + maxParties) →
    q = r
  meetings : ∀ q ∈ done, ∀ pair ∈ meetingFields f labels issuerRoot doc q,
    doc.history.values pair.1 = [pair.2] ∨ doc.Rewritten cur pair.1
  repeated : cur = doc → ∀ q ∈ done, Repeated f labels issuerRoot issuedAt doc q

theorem Met.refl (f : Foreign) (labels : Labels) (issuerRoot : Bytes32) (issuedAt : ClaimedTime)
    (doc : Document) : Met f labels issuerRoot issuedAt doc doc [] where
  actor := rfl
  grows := .refl doc
  contacts _ h := h
  keys _ _ _ h := h
  unretained _ := rfl
  made _ h := absurd h List.not_mem_nil
  distinct _ h := absurd h List.not_mem_nil
  meetings _ h := absurd h List.not_mem_nil
  repeated _ _ h := absurd h List.not_mem_nil

section Parties

variable {issuerRoot : Bytes32} {issuedAt : ClaimedTime} {done : List (Party × ℕ)} {p : Party × ℕ}
  {id : Bytes}

/-- A key that no contact had is no contact's still. -/
theorem Met.contactWithPublicKey_eq_none (h : Met f labels issuerRoot issuedAt doc cur done)
    (hkey : ∀ q ∈ done, q.1.publicKey ≠ p.1.publicKey)
    (hnone : contactWithPublicKey f doc p.1.publicKey = none) :
    contactWithPublicKey f cur p.1.publicKey = none := by
  rw [Contacts.contactWithPublicKey_eq_none] at hnone ⊢
  exact fun id hid => hnone id (h.keys id _ hkey hid)

/-- What is observed about a party goes through, and what it leaves. -/
theorem observe_party (issuerRoot : Bytes32) (hreceived : labels.received < 2 ^ 64)
    (htime : validTime issuedAt = .ok ())
    (hclaims : ∀ claim ∈ p.1.observations, validateClaims [claim] = .ok ())
    (hid : (contact f next id).isSome) (hactor : next.actor = doc.actor) : ∃ made out,
      createMeeting f next (utf8 "verified introduction") [] (some issuerRoot) labels.received true
        (derivedEntropy f labels.entropy (p.2 + 1 + maxParties * 2)) =
          (made, partyMeeting f labels doc p) ∧
      made = next.putAll (meetingFields f labels issuerRoot doc p) ∧
      observeEach f labels issuerRoot issuedAt id (partyMeeting f labels doc p) p.1.observations
        made = (out, .ok ()) ∧
      out.actor = next.actor ∧ made.Grows out ∧
      (out = made ↔ ∀ claim ∈ p.1.observations,
        ∀ field ∈ observationFields (told f labels issuerRoot issuedAt doc p claim),
          made.history.values (.observation id
            (digest f labels issuerRoot issuedAt doc p claim) field.1) = [.text field.2]) ∧
      ∀ other field, out.history.shown (.contact other field) =
        next.history.shown (.contact other field) := by
  have hm : localId f (utf8 "polyvisor:meeting:v0\x00")
      (derivedEntropy f labels.entropy (p.2 + 1 + maxParties * 2)) next.actor =
        partyMeeting f labels doc p := by
    rw [partyMeeting, hactor]
  obtain ⟨record, hrecord, hsource, hverified⟩ := meeting_createMeeting f next
    (utf8 "verified introduction") [] (some issuerRoot) hreceived true
    (derivedEntropy f labels.entropy (p.2 + 1 + maxParties * 2))
  rw [createMeeting_eq hm] at hrecord ⊢
  dsimp only at hrecord
  obtain ⟨made, hmade⟩ : ∃ made, made = next.putAll (meetingFields f labels issuerRoot doc p) :=
    ⟨_, rfl⟩
  rw [← hmade] at hrecord ⊢
  have hfields (other : Bytes) (field : ContactField) :
      made.history.shown (.contact other field) = next.history.shown (.contact other field) :=
    hmade ▸ RootMap.shown_putAll_of_held (held_of_ne_meeting (by simp))
  have hcontact : (contact f made id).isSome := by
    rw [contact_congr (hfields id)]
    exact hid
  obtain ⟨out, hout, hactor', hgrows, hheld, hframe, -⟩ := observeEach_spec hreceived htime
    hcontact hrecord hsource hverified hclaims
  refine ⟨made, out, rfl, rfl, hout, ?_, hgrows, hheld, fun other field => ?_⟩
  · rw [hactor', hmade, RootMap.putAll_actor]
  · rw [hframe _ fun _ _ _ => by simp, hfields]

/-- One more party is introduced. -/
theorem Met.step {made out : Document} (h : Met f labels issuerRoot issuedAt doc cur done)
    (hkey : ∀ q ∈ done, q.1.publicKey ≠ p.1.publicKey)
    (hhomed : Homed f labels cur next (contactWithPublicKey f cur p.1.publicKey) p.1.publicKey
      (p.2 + 1 + maxParties) id)
    (hmade : made = next.putAll (meetingFields f labels issuerRoot doc p))
    (hactor : out.actor = next.actor) (hgrows : made.Grows out)
    (hheld : out = made ↔ ∀ claim ∈ p.1.observations,
      ∀ field ∈ observationFields (told f labels issuerRoot issuedAt doc p claim),
        made.history.values (.observation id
          (digest f labels issuerRoot issuedAt doc p claim) field.1) = [.text field.2])
    (hfields : ∀ other field, out.history.shown (.contact other field) =
      next.history.shown (.contact other field)) :
    Met f labels issuerRoot issuedAt doc out (done ++ [p]) := by
  have hmeeting : next.Grows made := hmade ▸ RootMap.grows_putAll ..
  have hlater : next.Grows out := hmeeting.trans hgrows
  have hstep : cur.Grows out := hhomed.grows.trans hlater
  have hsame (other : Bytes) : contact f out other = contact f next other :=
    contact_congr (hfields other)
  have hdrawn (n : ℕ) : drawnId f labels cur n = drawnId f labels doc n := by
    rw [drawnId, drawnId, h.actor]
  -- the new contact, if there was none for the party
  have hnew (hnone : contactWithPublicKey f doc p.1.publicKey = none) :
      contact f cur (drawnId f labels doc (p.2 + 1 + maxParties)) = none ∧
        (contact f out (drawnId f labels doc (p.2 + 1 + maxParties))).isSome ∧
        cur.Rewritten out (.contact (drawnId f labels doc (p.2 + 1 + maxParties)) .present) := by
    have hstill := h.contactWithPublicKey_eq_none hkey hnone
    rcases hhomed.created with ⟨hfound, -⟩ | ⟨-, hid, hfree, hown, hrewritten⟩
    · rw [hstill] at hfound
      cases hfound
    · rw [hdrawn] at hid
      rw [← hid, hsame]
      exact ⟨hfree, hown.isSome_contact, hrewritten.grows hhomed.grows hlater⟩
  have hfree (hnone : contactWithPublicKey f doc p.1.publicKey = none) :
      contact f doc (drawnId f labels doc (p.2 + 1 + maxParties)) = none := by
    by_contra hsome
    have hcur := h.contacts _ (Option.isSome_iff_ne_none.2 hsome)
    rw [(hnew hnone).1] at hcur
    exact Bool.noConfusion hcur
  -- an id that was drawn before is a contact's by now
  have hapart {q : Party × ℕ} (hq : q ∈ done)
      (hq_none : contactWithPublicKey f doc q.1.publicKey = none)
      (hp_none : contactWithPublicKey f doc p.1.publicKey = none)
      (heq : drawnId f labels doc (q.2 + 1 + maxParties) =
        drawnId f labels doc (p.2 + 1 + maxParties)) : False := by
    have hsome := (h.made q hq hq_none).2.1
    rw [heq, (hnew hp_none).1] at hsome
    exact Bool.noConfusion hsome
  refine
    { actor := hactor.trans (hhomed.actor.trans h.actor)
      grows := h.grows.trans hstep
      contacts := fun other hother => hsame other ▸ hhomed.contacts (h.contacts other hother)
      keys := fun other key hne hother => ?keys
      unretained := fun other => by rw [hfields, hhomed.unretained, h.unretained]
      made := fun q hq hnone => ?made
      distinct := fun q hq r hr hq_none hr_none heq => ?distinct
      meetings := fun q hq pair hpair => ?meetings
      repeated := fun heq q hq => ?repeated }
  case keys =>
    have hself := hne p (List.mem_append_right _ (List.mem_singleton.2 rfl))
    refine h.keys other key (fun q hq => hne q (List.mem_append_left _ hq)) (hhomed.keys hself ?_)
    exact (hasKey_congr (hfields _ _) (hfields _ _)).1 hother
  case made =>
    rcases List.mem_append.1 hq with hold | hlast
    · obtain ⟨hfree, hsome, hrewritten⟩ := h.made q hold hnone
      exact ⟨hfree, hsame _ ▸ hhomed.contacts hsome, hrewritten.grows h.grows hstep⟩
    · obtain rfl := List.mem_singleton.1 hlast
      exact ⟨hfree hnone, (hnew hnone).2.1, h.grows.rewritten (hnew hnone).2.2⟩
  case distinct =>
    rcases List.mem_append.1 hq with hold | hlast
    · rcases List.mem_append.1 hr with hold' | hlast'
      · exact h.distinct q hold r hold' hq_none hr_none heq
      · obtain rfl := List.mem_singleton.1 hlast'
        exact (hapart hold hq_none hr_none heq).elim
    · obtain rfl := List.mem_singleton.1 hlast
      rcases List.mem_append.1 hr with hold' | hlast'
      · exact (hapart hold' hr_none hq_none heq.symm).elim
      · exact (List.mem_singleton.1 hlast').symm
  case meetings =>
    rcases List.mem_append.1 hq with hold | hlast
    · exact (h.meetings q hold pair hpair).imp_right fun hnew => hnew.grows h.grows hstep
    · obtain rfl := List.mem_singleton.1 hlast
      have hnext := h.grows.trans hhomed.grows
      refine (hnext.held_or_rewritten hpair).imp_right fun hnew => ?_
      rw [← hmade] at hnew
      exact hnew.grows (hnext.trans hmeeting) hgrows
  case repeated =>
    -- nothing was written, neither before nor now
    have hcur := h.grows.eq_of_eq hstep heq
    have hnext : next = doc := (h.grows.trans hhomed.grows).eq_of_eq hlater heq
    have hmade' : made = doc :=
      ((h.grows.trans hhomed.grows).trans hmeeting).eq_of_eq hgrows heq
    rcases List.mem_append.1 hq with hold | hlast
    · exact h.repeated hcur q hold
    · obtain rfl := List.mem_singleton.1 hlast
      refine ⟨id, hcur ▸ hhomed.found_of_eq (hnext.trans hcur.symm), ?_, ?_⟩
      · refine RootMap.putAll_eq_self_iff.1 ?_
        rw [hnext, hmade'] at hmade
        exact hmade.symm
      · rw [hmade'] at hheld
        exact hheld.1 heq

/-- The loop goes through, or stops at a party whose drawn id is a contact's. -/
theorem introduceEach_cases {all rest : List (Party × ℕ)} (hreceived : labels.received < 2 ^ 64)
    (htime : validTime issuedAt = .ok ())
    (hclaims : ∀ q ∈ all, ∀ claim ∈ q.1.observations, validateClaims [claim] = .ok ())
    (hvalid : ∀ q ∈ all, validContactKey f (some q.1.publicKey) = .ok ())
    (hkeys : (all.map fun q => q.1.publicKey).Nodup) (hall : all = done ++ rest)
    (h : Met f labels issuerRoot issuedAt doc cur done) (affected : Option Bytes) :
    (∃ out affected', introduceEach f labels issuerRoot issuedAt rest cur affected =
        (out, .ok affected') ∧ Met f labels issuerRoot issuedAt doc out all ∧
      (affected'.isSome ↔ affected.isSome ∨ rest ≠ [])) ∨
    ∃ out before q after, introduceEach f labels issuerRoot issuedAt rest cur affected =
        (out, .error "contact entropy was reused") ∧
      all = before ++ q :: after ∧ Met f labels issuerRoot issuedAt doc out before ∧
      contactWithPublicKey f out q.1.publicKey = none ∧
      (contact f out (drawnId f labels out (q.2 + 1 + maxParties))).isSome := by
  induction rest generalizing done cur affected with
  | nil =>
    rw [List.append_nil] at hall
    exact .inl ⟨cur, affected, rfl, hall ▸ h, by simp⟩
  | cons p rest ih =>
    have hp : p ∈ all := hall ▸ List.mem_append_right _ List.mem_cons_self
    have hkey : ∀ q ∈ done, q.1.publicKey ≠ p.1.publicKey := fun q hq heq => by
      rw [hall, List.map_append] at hkeys
      exact List.disjoint_of_nodup_append hkeys (List.mem_map_of_mem hq)
        (heq ▸ List.mem_map_of_mem List.mem_cons_self)
    obtain ⟨party, index⟩ := p
    rcases place_cases labels cur (contactWithPublicKey f cur party.publicKey) (hvalid _ hp) [] []
      (index + 1 + maxParties) with ⟨hnone, htaken, herror⟩ | ⟨next, id, hplace, hhomed⟩
    · refine .inr ⟨cur, done, (party, index), rest, ?_, hall, h, hnone, htaken⟩
      have hcontact : partyContact f labels cur index party.publicKey = _ := herror
      rw [introduceEach, hcontact]
    · have hcontact : partyContact f labels cur index party.publicKey = _ := hplace
      have hid : (contact f next id).isSome := by
        rcases hhomed.created with ⟨hfound, rfl⟩ | ⟨-, -, -, hown, -⟩
        · exact (contactWithPublicKey_eq_some.1 hfound).1.isSome_contact
        · exact hown.isSome_contact
      obtain ⟨made, out, hmeeting, hmade, hobserve, hactor, hgrows, hheld, hfields⟩ :=
        observe_party issuerRoot hreceived htime (hclaims _ hp) hid
          (hhomed.actor.trans h.actor)
      have hnext := h.step hkey hhomed hmade hactor hgrows hheld hfields
      rw [introduceEach, hcontact]
      dsimp only
      rw [hmeeting]
      dsimp only
      rw [hobserve]
      rcases ih (by rw [hall, List.append_assoc, List.singleton_append]) hnext
        (affected.or (some id)) with ⟨last, affected', hrun, hmet, haffected⟩ | hstopped
      · refine .inl ⟨last, affected', hrun, hmet, ?_⟩
        rw [haffected]
        simp
      · exact .inr hstopped

/-- A party that was introduced before is passed over. -/
theorem introduceEach_repeated {before : List (Party × ℕ)} (rest : List (Party × ℕ))
    (hreceived : labels.received < 2 ^ 64) (htime : validTime issuedAt = .ok ())
    (hclaims : ∀ q ∈ before, ∀ claim ∈ q.1.observations, validateClaims [claim] = .ok ())
    (h : ∀ q ∈ before, Repeated f labels issuerRoot issuedAt doc q) (affected : Option Bytes) :
    ∃ affected', introduceEach f labels issuerRoot issuedAt (before ++ rest) doc affected =
      introduceEach f labels issuerRoot issuedAt rest doc affected' := by
  induction before generalizing affected with
  | nil => exact ⟨affected, rfl⟩
  | cons q before ih =>
    obtain ⟨⟨id, hfound, hmeetings, hobserved⟩, hbefore⟩ := List.forall_mem_cons.1 h
    obtain ⟨hclaims, hlater⟩ := List.forall_mem_cons.1 hclaims
    obtain ⟨affected', hrun⟩ := ih hlater hbefore (affected.or (some id))
    obtain ⟨made, out, hmeeting, hmade, hobserve, -, -, hheld, -⟩ :=
      observe_party issuerRoot hreceived htime hclaims
        (contactWithPublicKey_eq_some.1 hfound).1.isSome_contact rfl
    rw [RootMap.putAll_eq_self_iff.2 hmeetings] at hmade
    rw [hmade] at hmeeting hobserve hheld
    obtain ⟨party, index⟩ := q
    have hcontact : partyContact f labels doc index party.publicKey = .ok (doc, id) := by
      rw [partyContact, hfound]
    refine ⟨affected', ?_⟩
    rw [List.cons_append, introduceEach, hcontact]
    dsimp only
    rw [hmeeting]
    dsimp only
    rw [hobserve, hheld.2 hobserved]
    exact hrun

end Parties

/-! ## The call on any document -/

/-- The first new contact that the call asks for has an id that is a contact's, and nothing is
written before: the identities and the parties up to there are kept as they are. -/
def Stopped (f : Foreign) (doc : Document) (labels : Labels) (selected : SelectedIntroduction f) :
    Prop :=
  (∃ before p after, selected.identities.zipIdx = before ++ p :: after ∧
    (∀ q ∈ before, Settled f doc q) ∧ known f doc p.1.root = none ∧
    (contact f doc (drawnId f labels doc (p.2 + 1))).isSome) ∨
  (∀ q ∈ selected.identities.zipIdx, Settled f doc q) ∧
    ∃ before p after, selected.chosen = before ++ p :: after ∧
      (∀ q ∈ before, Repeated f labels selected.verified.introduction.issuer.root
        selected.verified.introduction.issuedAt doc q) ∧
      contactWithPublicKey f doc p.1.publicKey = none ∧
      (contact f doc (drawnId f labels doc (p.2 + 1 + maxParties))).isSome

section Call

variable {selected : SelectedIntroduction f}

theorem validContactKey_of_mem_chosen {p : Party × ℕ} (hp : p ∈ selected.chosen) :
    validContactKey f (some p.1.publicKey) = .ok () :=
  validContactKey_of_validKey (selected.verified.checked.parties p.1
    (fst_mem_of_mem_zipIdx (mem_of_mem_chosen hp))).1

theorem validateClaims_of_mem_chosen {p : Party × ℕ} (hp : p ∈ selected.chosen) :
    ∀ claim ∈ p.1.observations, validateClaims [claim] = .ok () := fun _ hclaim =>
  validateClaims_singleton (selected.verified.checked.parties p.1
    (fst_mem_of_mem_zipIdx (mem_of_mem_chosen hp))).2 hclaim

theorem nodup_keys_chosen (selected : SelectedIntroduction f) :
    (selected.chosen.map fun p => p.1.publicKey).Nodup := by
  refine List.Nodup.sublist (List.filter_sublist.map _) (?_ : List.Nodup
    (selected.verified.introduction.parties.zipIdx.map fun p => p.1.publicKey))
  rw [show (fun p : Party × ℕ => p.1.publicKey) = Party.publicKey ∘ Prod.fst from rfl,
    ← List.map_map, List.zipIdx_map_fst]
  exact selected.verified.checked.keys

theorem nodup_roots (selected : SelectedIntroduction f) :
    (selected.identities.zipIdx.map fun p => p.1.root).Nodup := by
  rw [show (fun p : AuthenticatedIdentity f × ℕ => p.1.root) =
    AuthenticatedIdentity.root ∘ Prod.fst from rfl, ← List.map_map, List.zipIdx_map_fst]
  exact nodup_identities selected

theorem valid_of_mem_identities {p : AuthenticatedIdentity f × ℕ}
    (hp : p ∈ selected.identities.zipIdx) :
    validateAuthenticatedIdentity f p.1 = .ok p.1.binding.binding :=
  selected.verified.checked.identities p.1 (mem_of_mem_identities (fst_mem_of_mem_zipIdx hp))

/-- A call that stops before it writes leaves the document as it was. -/
theorem persisted_of_stopped (hreceived : labels.received < 2 ^ 64)
    (hadmits : admits f doc selected = .ok ()) (h : Stopped f doc labels selected) :
    persisted f doc selected labels = (doc, .error "contact entropy was reused") := by
  unfold persisted
  dsimp only
  rw [hadmits]
  dsimp only
  rcases h with ⟨before, p, after, hall, hsettled, hnone, htaken⟩ |
    ⟨hsettled, before, p, after, hall, hrepeated, hnone, htaken⟩
  · obtain ⟨affected, hrun⟩ := retainEach_settled labels (p :: after)
      selected.verified.introduction.issuer.root hsettled none
    have hrefused : identityContact f labels selected.verified.introduction.issuer.root doc p.2
        p.1.root = .error "contact entropy was reused" := by
      rcases place_cases labels doc (known f doc p.1.root) (validKey_of_fromBytes p.1.binding)
        (if p.1.root = selected.verified.introduction.issuer.root then labels.petname else [])
        (if p.1.root = selected.verified.introduction.issuer.root then labels.glyph else [])
        (p.2 + 1) with ⟨-, -, herror⟩ | ⟨next, id, -, hhomed⟩
      · exact herror
      · exact absurd htaken (hhomed.not_isSome hnone)
    obtain ⟨identity, index⟩ := p
    rw [hall, hrun, retainEach, hrefused]
  · obtain ⟨affected, hrun⟩ := retainEach_settled labels []
      selected.verified.introduction.issuer.root hsettled none
    rw [List.append_nil] at hrun
    have hbefore {q : Party × ℕ} (hq : q ∈ before) : q ∈ selected.chosen :=
      hall ▸ List.mem_append_left _ hq
    have hp : p ∈ selected.chosen := hall ▸ List.mem_append_right _ List.mem_cons_self
    obtain ⟨affected', hrun'⟩ := introduceEach_repeated (p :: after) hreceived
      selected.verified.checked.time (fun q hq => validateClaims_of_mem_chosen (hbefore hq))
      hrepeated affected
    have hrefused : partyContact f labels doc p.2 p.1.publicKey =
        .error "contact entropy was reused" := by
      rcases place_cases labels doc (contactWithPublicKey f doc p.1.publicKey)
        (validContactKey_of_mem_chosen hp) [] [] (p.2 + 1 + maxParties) with
        ⟨-, -, herror⟩ | ⟨next, id, -, hhomed⟩
      · exact herror
      · exact absurd htaken (hhomed.not_isSome hnone)
    obtain ⟨party, index⟩ := p
    rw [hrun, retainEach]
    dsimp only
    rw [hall, hrun', introduceEach, hrefused]

end Call

/-! ## What a call that keeps what was selected has found -/

/-- A contact that is listed stays listed. -/
theorem mem_contactIds_of_grows {id : Bytes} (h : doc.Grows cur) (hid : id ∈ contactIds doc) :
    id ∈ contactIds cur := by
  rcases h.keys (.contact id .present) with hsame | ⟨w, hw, -⟩
  · exact (mem_contactIds_congr hsame).2 hid
  · obtain ⟨value, hvalue⟩ := Option.isSome_iff_exists.1 (Multivalue.History.mem_shown.1 hw).2.2.1
    exact Polyvisor.Contacts.mem_contactIds.2
      ⟨value, Multivalue.History.mem_values.2 ⟨w, hw, hvalue⟩⟩

section Necessary

variable {selected : SelectedIntroduction f} {mid out : Document}

/-- A contact of before was not put to be one. -/
theorem Introduced.not_rewritten (h : Introduced f doc labels selected out) {id : Bytes}
    (hid : id ∈ contactIds doc) : ¬ doc.Rewritten out (.contact id .present) := fun hnew =>
  hnew.shown_ne (h.kept id hid _ (by simp))

/-- Two identities that are found at one contact would both be retained there. -/
theorem Introduced.eq_of_known (h : Introduced f doc labels selected out)
    {identity other : AuthenticatedIdentity f} (hidentity : identity ∈ selected.identities)
    (hother : other ∈ selected.identities) {id : Bytes}
    (hknown : known f doc identity.root = some id)
    (hknown' : known f doc other.root = some id) : identity = other := by
  obtain ⟨place, hplace, -, hfound⟩ := h.retained identity hidentity
  obtain ⟨place', hplace', -, hfound'⟩ := h.retained other hother
  have hretains := (hplace place).2 rfl
  have hretains' := (hplace' place').2 rfl
  rw [hfound id hknown] at hretains
  rw [hfound' id hknown'] at hretains'
  exact List.inj_on_of_nodup_map (nodup_identities selected) hidentity hother
    (hretains.unique hretains')

variable (hran : Ran f labels doc mid selected.identities.zipIdx)
  (hmet : Met f labels selected.verified.introduction.issuer.root
    selected.verified.introduction.issuedAt mid out selected.chosen)
  (h : Introduced f doc labels selected out)
include hran hmet h

theorem unlisted_of_identity {p : AuthenticatedIdentity f × ℕ}
    (hp : p ∈ selected.identities.zipIdx) (hknown : known f doc p.1.root = none) :
    drawnId f labels doc (p.2 + 1) ∉ contactIds doc := fun hid =>
  h.not_rewritten hid ((hran.made p hp hknown).2.2.grows hran.grows hmet.grows)

theorem unlisted_of_party {p : Party × ℕ} (hp : p ∈ selected.chosen)
    (hnone : contactWithPublicKey f mid p.1.publicKey = none) :
    drawnId f labels doc (p.2 + 1 + maxParties) ∉ contactIds doc := by
  intro hid
  have hnew := (hmet.made p hp hnone).2.2
  rw [drawnId, hran.actor] at hnew
  exact h.not_rewritten hid (hran.grows.rewritten hnew)

theorem placeable_of_introduced : Placeable f labels doc selected.identities.zipIdx where
  valid p hp := valid_of_mem_identities hp
  validKey p _ := validKey_of_fromBytes p.1.binding
  roots p hp q hq := mem_zipIdx_inj (nodup_identities selected) hp hq
  unlisted p hp := unlisted_of_identity hran hmet h hp
  homes p hp q hq heq := by
    rcases hknown : known f doc p.1.root with _ | id
    · rcases hknown' : known f doc q.1.root with _ | id'
      · rw [identityHome_of_none _ hknown, identityHome_of_none _ hknown'] at heq
        exact hran.distinct p hp q hq hknown hknown' heq
      · rw [identityHome_of_none _ hknown, identityHome_of_some _ hknown'] at heq
        exact absurd (heq ▸ mem_contactIds_of_known hknown')
          (unlisted_of_identity hran hmet h hp hknown)
    · rcases hknown' : known f doc q.1.root with _ | id'
      · rw [identityHome_of_some _ hknown, identityHome_of_none _ hknown'] at heq
        exact absurd (heq ▸ mem_contactIds_of_known hknown)
          (unlisted_of_identity hran hmet h hq hknown')
      · rw [identityHome_of_some _ hknown, identityHome_of_some _ hknown'] at heq
        exact mem_zipIdx_inj (nodup_identities selected) hp hq (congrArg AuthenticatedIdentity.root
          (h.eq_of_known (fst_mem_of_mem_zipIdx hp) (fst_mem_of_mem_zipIdx hq) hknown
            (heq ▸ hknown')))

variable (hkept : Kept f labels doc mid selected.identities.zipIdx)
include hkept

omit hran h hkept in
/-- What is retained after the identities is so at the end. -/
theorem retains_out_of_mid {id : Bytes} {root : Bytes32} (hid : id ∈ contactIds out)
    (hretains : ((retainedIdentityAt f mid id).map fun identity => identity.root) = some root) :
    Retains f out id root := by
  refine ⟨hid, ?_⟩
  rw [← hretains, retainedIdentityAt, retainedIdentityAt, allRootBytes_congr (hmet.unretained id)]

omit hran h in
theorem retains_home {p : AuthenticatedIdentity f × ℕ} (hlaw : f.Lawful)
    (hp : p ∈ selected.identities.zipIdx) :
    Retains f out (identityHome f labels doc p) p.1.root :=
  retains_out_of_mid hmet (mem_contactIds_of_grows hmet.grows (mem_contactIds_home hkept hp))
    (retained_root hlaw (valid_of_mem_identities hp) (hkept.retained p hp))

omit hran hmet h in
/-- The register of an id that is no identity's home is as it was. -/
theorem retainedIdentityAt_mid {id : Bytes}
    (hid : ∀ q ∈ selected.identities.zipIdx, identityHome f labels doc q ≠ id) :
    retainedIdentityAt f mid id = retainedIdentityAt f doc id := by
  rw [retainedIdentityAt, retainedIdentityAt, allRootBytes_congr]
  exact hkept.frame _ fun q hq field heq => hid q hq (Key.contact.inj heq).1.symm

theorem covered_of_introduced {identity : AuthenticatedIdentity f}
    (hidentity : identity ∈ selected.identities) {id : Bytes}
    (hretains : Retains f doc id identity.root) :
    ∃ other ∈ selected.identities, known f doc other.root = some id := by
  by_cases hhome : ∃ q ∈ selected.identities.zipIdx, identityHome f labels doc q = id
  · obtain ⟨q, hq, rfl⟩ := hhome
    refine ⟨q.1, fst_mem_of_mem_zipIdx hq, ?_⟩
    rcases hknown : known f doc q.1.root with _ | found
    · refine absurd hretains.1 ?_
      rw [identityHome_of_none labels hknown]
      exact unlisted_of_identity hran hmet h hq hknown
    · rw [identityHome_of_some labels hknown]
  · -- nothing has taken the root away, so that it is retained where it is found
    push Not at hhome
    have hout : Retains f out id identity.root := by
      refine retains_out_of_mid hmet
        (mem_contactIds_of_grows (hran.grows.trans hmet.grows) hretains.1) ?_
      rw [retainedIdentityAt_mid hkept hhome]
      exact hretains.2
    obtain ⟨place, hplace, -, hfound⟩ := h.retained identity hidentity
    rcases hknown : known f doc identity.root with _ | found
    · exact absurd hretains (retainedRootContact_eq_none.1 (Option.or_eq_none_iff.1 hknown).1 id)
    · refine ⟨identity, hidentity, ?_⟩
      rw [hknown, (hplace id).1 hout, hfound found hknown]

theorem unretained_of_introduced {p : Party × ℕ} (hlaw : f.Lawful) (hp : p ∈ selected.chosen)
    (hnew : selected.IsNew f doc p) {identity : AuthenticatedIdentity f}
    (hidentity : identity ∈ selected.identities) :
    ((retainedIdentityAt f doc (drawnId f labels doc (p.2 + 1 + maxParties))).map
      fun retained => retained.root) ≠ some identity.root := by
  intro hretained
  have hnone := (isNew_iff hkept).1 hnew
  have hunlisted := unlisted_of_party hran hmet h hp hnone
  obtain ⟨hfree, hsome, -⟩ := hmet.made p hp hnone
  have hdrawn : drawnId f labels mid (p.2 + 1 + maxParties) =
      drawnId f labels doc (p.2 + 1 + maxParties) := by
    rw [drawnId, drawnId, hran.actor]
  rw [hdrawn] at hfree hsome
  have hapart : ∀ q ∈ selected.identities.zipIdx,
      identityHome f labels doc q ≠ drawnId f labels doc (p.2 + 1 + maxParties) := by
    intro q hq heq
    rcases hknown : known f doc q.1.root with _ | found
    · have hmid := (hran.made q hq hknown).2.1
      rw [← identityHome_of_none labels hknown, heq, hfree] at hmid
      exact Bool.noConfusion hmid
    · rw [identityHome_of_some labels hknown] at heq
      exact hunlisted (heq ▸ mem_contactIds_of_known hknown)
  obtain ⟨index, hq⟩ := exists_mem_zipIdx hidentity
  obtain ⟨place, hplace, -⟩ := h.retained identity hidentity
  have hhome := (hplace _).1 (retains_home hmet hkept hlaw hq)
  refine hapart _ hq (hhome.trans ((hplace _).1 (retains_out_of_mid hmet ?_ ?_)).symm)
  · exact mem_contactIds_of_rootString (isSome_contact_iff.1 hsome)
  · rw [retainedIdentityAt_mid hkept hapart]
    exact hretained

theorem meetings_of_introduced {p : Party × ℕ} (hp : p ∈ selected.chosen) {pair : Key × Value}
    (hpair : pair ∈ meetingFields f labels selected.verified.introduction.issuer.root doc p) :
    doc.history.shown pair.1 = [] ∨ doc.history.values pair.1 = [pair.2] := by
  obtain ⟨field, hkey⟩ := key_of_mem_meetingFields hpair
  rw [← meetingFields_mid hkept] at hpair
  rcases hmet.meetings p hp pair hpair with hheld | hnew
  · refine .inr ?_
    rw [← hheld, Multivalue.History.values, Multivalue.History.values,
      hkept.frame pair.1 (by simp [hkey])]
  · -- a register that was written is one of a new meeting
    rcases h.touched pair.1 (hran.grows.rewritten hnew).shown_ne with
      ⟨_, _, id, other, _, heq⟩ | ⟨_, _, id, _, ⟨_, other, heq⟩ | ⟨_, _, other, heq⟩⟩ |
      ⟨_, _, other, _, hnil⟩
    · rw [hkey] at heq
      cases heq
    · rw [hkey] at heq
      cases heq
    · rw [hkey] at heq
      cases heq
    · exact .inl hnil

theorem clear_of_introduced (hlaw : f.Lawful) : Clear f doc labels selected where
  unlisted n hn := by
    rcases List.mem_append.1 hn with hidentity | hparty
    · obtain ⟨p, hp, rfl⟩ := List.mem_map.1 hidentity
      obtain ⟨hp, hknown⟩ := List.mem_filter.1 hp
      exact unlisted_of_identity hran hmet h hp (of_decide_eq_true hknown)
    · obtain ⟨p, hp, rfl⟩ := List.mem_map.1 hparty
      obtain ⟨hp, hnew⟩ := List.mem_filter.1 hp
      exact unlisted_of_party hran hmet h hp ((isNew_iff hkept).1 (of_decide_eq_true hnew))
  distinct := by
    rw [draws, List.map_append, List.map_map, List.map_map]
    have hindices {α : Type} (items : List α) : items.zipIdx.Nodup :=
      List.Nodup.of_map Prod.snd (by rw [List.zipIdx_map_snd]; exact List.nodup_range')
    have hdrawn (n : ℕ) : drawnId f labels mid n = drawnId f labels doc n := by
      rw [drawnId, drawnId, hran.actor]
    refine List.nodup_append'.2 ⟨?identities, ?parties, fun id hid hid' => ?apart⟩
    case identities =>
      refine List.Nodup.map_on (fun p hp q hq heq => ?_) ((hindices _).filter _)
      obtain ⟨hp, hknown⟩ := List.mem_filter.1 hp
      obtain ⟨hq, hknown'⟩ := List.mem_filter.1 hq
      exact hran.distinct p hp q hq (of_decide_eq_true hknown) (of_decide_eq_true hknown') heq
    case parties =>
      refine List.Nodup.map_on (fun p hp q hq heq => ?_) (((hindices _).filter _).filter _)
      obtain ⟨hp, hnew⟩ := List.mem_filter.1 hp
      obtain ⟨hq, hnew'⟩ := List.mem_filter.1 hq
      refine hmet.distinct p hp q hq ((isNew_iff hkept).1 (of_decide_eq_true hnew))
        ((isNew_iff hkept).1 (of_decide_eq_true hnew')) ?_
      rw [hdrawn, hdrawn]
      exact heq
    case apart =>
      -- the identity's contact is there when the party's is made
      obtain ⟨q, hq, rfl⟩ := List.mem_map.1 hid
      obtain ⟨hq, hknown⟩ := List.mem_filter.1 hq
      obtain ⟨p, hp, heq⟩ := List.mem_map.1 hid'
      obtain ⟨hp, hnew⟩ := List.mem_filter.1 hp
      have hfree := (hmet.made p hp ((isNew_iff hkept).1 (of_decide_eq_true hnew))).1
      have hsome := (hran.made q hq (of_decide_eq_true hknown)).2.1
      have hsame : drawnId f labels doc (p.2 + 1 + maxParties) =
          drawnId f labels doc (q.2 + 1) := heq
      rw [hdrawn, hsame] at hfree
      rw [hfree] at hsome
      exact Bool.noConfusion hsome
  homes _ hidentity _ hother _ hknown hknown' := h.eq_of_known hidentity hother hknown hknown'
  covered _ hidentity _ hretains := covered_of_introduced hran hmet h hkept hidentity hretains
  unretained _ hp hnew _ hidentity :=
    unretained_of_introduced hran hmet h hkept hlaw hp hnew hidentity
  meetings _ hp _ hpair := meetings_of_introduced hran hmet h hkept hp hpair

end Necessary

/-! ## The call as a whole, on any document -/

section Whole

variable {selected : SelectedIntroduction f}

/-- A call sees of an introduction what is selected of it, the issuer's root and the time. -/
theorem persisted_congr {other : SelectedIntroduction f}
    (hidentities : other.identities = selected.identities)
    (hparties : other.parties = selected.parties) (hchosen : other.chosen = selected.chosen)
    (hissuer : other.verified.introduction.issuer.root =
      selected.verified.introduction.issuer.root)
    (htime : other.verified.introduction.issuedAt = selected.verified.introduction.issuedAt) :
    persisted f doc other labels = persisted f doc selected labels := by
  unfold persisted admits
  dsimp only
  rw [hidentities, hparties, hchosen, hissuer, htime]

/-- A call that fails on the document as it is. -/
theorem persists_of_error {e : String} (h : persisted f doc selected labels = (doc, .error e)) :
    Persists f doc labels selected where
  unchanged _ _ := by rw [h]
  introduced id hid := by
    rw [h] at hid
    exact (nomatch hid)
  untraced _ := persisted_congr

theorem persists_of_clear (hlaw : f.Lawful) (hreceived : labels.received < 2 ^ 64)
    (hadmits : admits f doc selected = .ok ()) (h : Clear f doc labels selected)
    (hunmixed : Unmixed f doc labels selected) : Persists f doc labels selected := by
  obtain ⟨mid, out, affected, hkept, htold, haffected, hrun⟩ :=
    persisted_of_admits h hunmixed.digests hlaw hreceived hadmits
  refine ⟨fun e he => ?_, fun id hid => ?_, fun _ => persisted_congr⟩
  · rw [hrun] at he
    rcases affected with _ | id
    · -- nothing was selected, so that neither loop ran
      have hnothing : ¬ (selected.identities ≠ [] ∨ selected.chosen ≠ []) := fun hsome =>
        Bool.noConfusion (haffected.2 hsome)
      push Not at hnothing
      obtain ⟨hidentities, hchosen⟩ := hnothing
      unfold persisted
      dsimp only
      rw [hadmits, hidentities, hchosen]
      rfl
    · exact (nomatch he)
  · rw [hrun]
    exact introduced_out hkept h hunmixed hlaw hreceived htold

/-- With nothing selected there is nothing to be clear of. -/
theorem clear_of_nothing (hidentities : selected.identities = []) (hchosen : selected.chosen = []) :
    Clear f doc labels selected := by
  have hdraws : draws f doc selected = [] := by
    rw [draws, hidentities, hchosen]
    rfl
  refine
    { unlisted := fun n hn => ?_, distinct := ?_, homes := fun identity hin => ?_
      covered := fun identity hin => ?_, unretained := fun p hp => ?_, meetings := fun p hp => ?_ }
  · rw [hdraws] at hn
    exact absurd hn List.not_mem_nil
  · rw [hdraws]
    exact List.nodup_nil
  · rw [hidentities] at hin
    exact absurd hin List.not_mem_nil
  · rw [hidentities] at hin
    exact absurd hin List.not_mem_nil
  · rw [hchosen] at hp
    exact absurd hp List.not_mem_nil
  · rw [hchosen] at hp
    exact absurd hp List.not_mem_nil

/-- A call that is admitted and keeps its word has stopped before it wrote, or was clear. -/
theorem stopped_or_clear (hlaw : f.Lawful) (hreceived : labels.received < 2 ^ 64)
    (h : Persists f doc labels selected) (hadmits : admits f doc selected = .ok ()) :
    Stopped f doc labels selected ∨ Clear f doc labels selected := by
  obtain ⟨result, hresult⟩ : ∃ result, persisted f doc selected labels = result := ⟨_, rfl⟩
  have hrun := hresult
  unfold persisted at hrun
  dsimp only at hrun
  rw [hadmits] at hrun
  dsimp only at hrun
  rcases retainEach_cases hlaw
      (fun q hq => valid_of_mem_identities hq) (fun q _ => validKey_of_fromBytes q.1.binding)
      (nodup_roots selected) selected.verified.introduction.issuer.root (List.nil_append _).symm
      (Ran.refl f labels doc) none with
    ⟨mid, affected, hretain, hran, haffected⟩ |
    ⟨out, before, p, after, hretain, hall, hran, hnone, htaken⟩
  · rw [hretain] at hrun
    dsimp only at hrun
    rcases introduceEach_cases hreceived selected.verified.checked.time
        (fun q hq => validateClaims_of_mem_chosen hq) (fun q hq => validContactKey_of_mem_chosen hq)
        (nodup_keys_chosen selected) (List.nil_append _).symm
        (Met.refl f labels selected.verified.introduction.issuer.root _ mid) affected with
      ⟨out, last, hintroduce, hmet, hlast⟩ |
      ⟨out, before, p, after, hintroduce, hall, hmet, hnone, htaken⟩
    · rw [hintroduce] at hrun
      rcases last with _ | id
      · -- neither loop has come by anything
        refine .inr (clear_of_nothing ?_ ?_)
        · by_contra hsome
          have hidentities : selected.identities.zipIdx ≠ [] := fun hnil =>
            hsome (List.zipIdx_eq_nil_iff.1 hnil)
          exact Bool.noConfusion (hlast.2 (.inl (haffected.2 (.inr hidentities))))
        · by_contra hsome
          exact Bool.noConfusion (hlast.2 (.inr hsome))
      · have hintroduced := h.introduced id (by rw [hresult, ← hrun])
        rw [hresult, ← hrun] at hintroduced
        -- the identities are where they belong, so that their loop is the one of `Kept`
        obtain ⟨mid', affected', hretain', hkept, -⟩ := retainEach_spec
          (placeable_of_introduced hran hmet hintroduced) hlaw
          selected.verified.introduction.issuer.root (List.nil_append _).symm
          (List.Nodup.of_map Prod.snd (by rw [List.zipIdx_map_snd]; exact List.nodup_range'))
          (Kept.refl f labels doc) none
        rw [hretain] at hretain'
        have hmid : mid' = mid := (congrArg Prod.fst hretain').symm
        rw [hmid] at hkept
        exact .inr (clear_of_introduced hran hmet hintroduced hkept hlaw)
    · -- nothing is left behind, so that nothing was written
      rw [hintroduce] at hrun
      have hsame := h.unchanged "contact entropy was reused" (by rw [hresult, ← hrun])
      rw [hresult, ← hrun] at hsame
      have hout : out = doc := hsame
      have hmid := hran.grows.eq_of_eq hmet.grows hout
      rw [hmid] at hran hmet
      rw [hout] at hmet hnone htaken
      exact .inl (.inr ⟨hran.settled rfl, before, p, after, hall, hmet.repeated rfl, hnone,
        htaken⟩)
  · rw [hretain] at hrun
    have hsame := h.unchanged "contact entropy was reused" (by rw [hresult, ← hrun])
    rw [hresult, ← hrun] at hsame
    have hout : out = doc := hsame
    rw [hout] at hran hnone htaken
    exact .inl (.inl ⟨before, p, after, hall, hran.settled rfl, hnone, htaken⟩)

/-- A call keeps exactly what was selected, or leaves the document as it was, if it is refused, or
stops before it writes, or its contacts and meetings are clear and its parties' observations are not
mixed with others. Only such calls do whose contacts and meetings are clear. -/
theorem persists (hlaw : f.Lawful) (hreceived : labels.received < 2 ^ 64) :
    ((admits f doc selected = .ok () → Stopped f doc labels selected ∨
        Clear f doc labels selected ∧ Unmixed f doc labels selected) →
      Persists f doc labels selected) ∧
    (Persists f doc labels selected → admits f doc selected = .ok () →
      Stopped f doc labels selected ∨ Clear f doc labels selected) := by
  refine ⟨fun h => ?_, stopped_or_clear hlaw hreceived⟩
  rcases hadmits : admits f doc selected with e | ⟨⟩
  · refine persists_of_error (e := e) ?_
    unfold persisted
    dsimp only
    rw [hadmits]
  · rcases h hadmits with hstopped | ⟨hclear, hunmixed⟩
    · exact persists_of_error (persisted_of_stopped hreceived hadmits hstopped)
    · exact persists_of_clear hlaw hreceived hadmits hclear hunmixed

end Whole

/-! ## A digest that draws no id twice

`hashingForeign` reduces its input modulo a prime, so that two inputs have one id only when they
are congruent. -/

theorem hex_inj {bytes other : Bytes} (h : hex bytes = hex other) : bytes = other := by
  have heq := congrArg decodePairs h
  rw [decodePairs_hex, decodePairs_hex] at heq
  exact Option.some.inj heq

theorem ofBytes_bytes (key : Bytes32) : BigEndian.ofBytes (Bytes32.bytes key) = key.toNat :=
  BigEndian.ofBytes_toBytes_of_lt key.isLt

theorem length_bytes (key : Bytes32) : (Bytes32.bytes key).length = 32 :=
  BigEndian.length_toBytes 32 _

theorem toNat_sha (bytes : Bytes) : (hashingForeign.sha bytes).toNat =
    BigEndian.ofBytes bytes % (2 ^ 127 - 1) * 2 ^ 128 := by
  show (BitVec.ofNat 256 _).toNat = _
  rw [BitVec.toNat_ofNat, Nat.mod_eq_of_lt]
  have := Nat.mod_lt (BigEndian.ofBytes bytes) (show 2 ^ 127 - 1 > 0 by decide)
  omega

/-- The half that an id is made of. -/
theorem ofBytes_take_sha (bytes : Bytes) :
    BigEndian.ofBytes ((Bytes32.bytes (hashingForeign.sha bytes)).take 16) =
      BigEndian.ofBytes bytes % (2 ^ 127 - 1) := by
  have hsplit := BigEndian.ofBytes_append ((Bytes32.bytes (hashingForeign.sha bytes)).take 16)
    ((Bytes32.bytes (hashingForeign.sha bytes)).drop 16)
  rw [List.take_append_drop, ofBytes_bytes, toNat_sha, List.length_drop, length_bytes] at hsplit
  have hlow := BigEndian.ofBytes_lt ((Bytes32.bytes (hashingForeign.sha bytes)).drop 16)
  rw [List.length_drop, length_bytes] at hlow
  omega

/-- The prime is odd, so that a factor of two can be cancelled. -/
theorem modEq_cancel {a b : ℕ} (k : ℕ) (h : Nat.ModEq (2 ^ 127 - 1) (a * 256 ^ k) (b * 256 ^ k)) :
    Nat.ModEq (2 ^ 127 - 1) a b :=
  Nat.ModEq.cancel_right_of_coprime (Nat.Coprime.pow_right k (by decide +kernel)) h

theorem drawnId_inj {m n : ℕ} (hm : m < 2 ^ 64) (hn : n < 2 ^ 64)
    (h : drawnId hashingForeign labels doc m = drawnId hashingForeign labels doc n) : m = n := by
  rw [drawnId, drawnId, localId, localId] at h
  have hids := congrArg BigEndian.ofBytes (hex_inj h)
  rw [ofBytes_take_sha, ofBytes_take_sha] at hids
  -- the entropies are congruent
  simp only [BigEndian.ofBytes_append, length_bytes, ofBytes_bytes] at hids
  have hactor := modEq_cancel _ (Nat.ModEq.add_right_cancel' _ hids)
  have hlength := modEq_cancel _ (Nat.ModEq.add_right_cancel' _ hactor)
  have hentropy := Nat.ModEq.add_left_cancel' _ hlength
  rw [derivedEntropy, derivedEntropy, toNat_sha, toNat_sha] at hentropy
  -- and so are the numbers that they are derived from
  have hindex := modEq_cancel 16 hentropy
  rw [Nat.ModEq, Nat.mod_mod, Nat.mod_mod] at hindex
  simp only [BigEndian.ofBytes_append, BigEndian.length_toBytes] at hindex
  have hlast := Nat.ModEq.add_left_cancel' _ hindex
  rw [BigEndian.ofBytes_toBytes_of_lt hm, BigEndian.ofBytes_toBytes_of_lt hn] at hlast
  exact Nat.ModEq.eq_of_lt_of_lt hlast (by omega) (by omega)

/-! ## Introductions of many roots -/

theorem verifyProfile_byte (byte : UInt8) : verifyProfile hashingForeign [byte] =
    .ok ⟨BitVec.ofNat 256 (BigEndian.ofBytes (repeated byte)),
      BitVec.ofNat 256 (BigEndian.ofBytes (repeated byte)), []⟩ := by
  show (check (BitVec.ofNat 256 (BigEndian.ofBytes (repeated byte)) =
    BitVec.ofNat 256 (BigEndian.ofBytes (repeated byte))) _ >>= fun _ => _) = _
  rw [check_eq_ok.2 rfl]
  rfl

/-- Root `n`, with its profile. -/
def crowdIdentity (n : ℕ) : AuthenticatedIdentity hashingForeign where
  binding :=
    { bytes := [UInt8.ofNat n, 0]
      binding := ⟨BitVec.ofNat 256 (BigEndian.ofBytes (repeated (UInt8.ofNat n))),
        BitVec.ofNat 256 (BigEndian.ofBytes (repeated 0))⟩
      verified := rfl }
  profiles :=
    [{ bytes := [UInt8.ofNat n]
       profile := ⟨BitVec.ofNat 256 (BigEndian.ofBytes (repeated (UInt8.ofNat n))),
         BitVec.ofNat 256 (BigEndian.ofBytes (repeated (UInt8.ofNat n))), []⟩
       verified := verifyProfile_byte _ }]
  authorityDevice := 9
  keyhiveAuthorityProof := [1]

/-- The issuer introduces sixty-four more roots, and a party. -/
def crowd : VerifiedIntroduction hashingForeign where
  introduction :=
    { issuer := crowdIdentity 1
      device := 9
      authenticatedIdentities := (List.range 64).map fun n => crowdIdentity (n + 2)
      parties := [⟨100, [⟨[110], [118]⟩]⟩]
      issuedAt := ⟨0, 0⟩ }
  valid := by decide +kernel

section Crowd

variable (labels) (actor : Bytes)

theorem not_retains_empty (id : Bytes) (root : Bytes32) :
    ¬ Retains hashingForeign (.empty actor) id root := fun hretains =>
  absurd hretains.1 List.not_mem_nil

theorem not_hasKey_empty (id : Bytes) (key : Bytes32) :
    ¬ HasKey hashingForeign (.empty actor) id key := fun hkey =>
  absurd hkey.mem_contactIds List.not_mem_nil

theorem contactWithPublicKey_empty (key : Bytes32) :
    contactWithPublicKey hashingForeign (.empty actor) key = none :=
  contactWithPublicKey_eq_none.2 fun id => not_hasKey_empty actor id key

theorem known_empty (root : Bytes32) : known hashingForeign (.empty actor) root = none :=
  Option.or_eq_none_iff.2 ⟨retainedRootContact_eq_none.2 fun id => not_retains_empty actor id root,
    contactWithPublicKey_empty actor root⟩

variable {actor} {selected : SelectedIntroduction hashingForeign}

/-- A call on a new document is clear, as long as its numbers are different. -/
theorem clear_empty (hdraws : (draws hashingForeign (.empty actor) selected).Nodup)
    (hsmall : ∀ n ∈ draws hashingForeign (.empty actor) selected, n < 2 ^ 64) :
    Clear hashingForeign (.empty actor) labels selected where
  distinct := hdraws.map_on fun m hm n hn => drawnId_inj (hsmall m hm) (hsmall n hn)
  unlisted _ _ := List.not_mem_nil
  homes identity _ _ _ _ hknown := by
    rw [known_empty] at hknown
    exact (nomatch hknown)
  covered _ _ id hretains := absurd hretains (not_retains_empty actor id _)
  unretained _ _ _ identity _ h := by
    have hnone : (none : Option Bytes32) = some identity.root := h
    exact (nomatch hnone)
  meetings _ _ _ _ := .inl rfl

theorem unmixed_empty (hclaims : ∀ p ∈ selected.chosen, ∀ claim ∈ p.1.observations,
      ∀ other ∈ p.1.observations, other = claim) :
    Unmixed hashingForeign (.empty actor) labels selected where
  apart _ _ _ _ _ _ := by
    rw [rootString_of_shown_eq_nil rfl]
    exact nofun
  digests p hp claim hclaim other hother _ := hclaims p hp claim hclaim other hother
  fresh _ _ _ _ _ _ _ := rfl
  bare _ _ _ := rfl

end Crowd

theorem hashingForeign_lawful : hashingForeign.Lawful := by
  have hdecode : hashingForeign.decodeIdentity = exampleForeign.decodeIdentity := rfl
  have hencode : hashingForeign.encodeIdentity = exampleForeign.encodeIdentity := rfl
  intro wire
  rw [hdecode, hencode]
  exact exampleForeign_lawful wire

/-- Of the crowd, the issuer and the party are selected. -/
def fewSelected : SelectedIntroduction hashingForeign :=
  ⟨crowd, [(crowdIdentity 1).root], [0]⟩

theorem persists_few : Persists hashingForeign (.empty [1]) ⟨[], [], 0, 0⟩ fewSelected :=
  (persists hashingForeign_lawful (by decide)).1 fun _ => .inr
    ⟨clear_empty _ (by decide +kernel) (by decide +kernel), unmixed_empty _ (by decide +kernel)⟩

/-- All of them are selected. -/
def allSelected : SelectedIntroduction hashingForeign :=
  ⟨crowd, crowd.introduction.allIdentities.map AuthenticatedIdentity.root, [0]⟩

theorem identities_all : allSelected.identities = crowd.introduction.allIdentities :=
  List.filter_eq_self.2 fun _ h => decide_eq_true (List.mem_map_of_mem h)

theorem length_all : allSelected.identities.length = 65 := by
  rw [identities_all]
  rfl

/-- The identities have different numbers, each its own. -/
theorem placeable_all (labels : Labels) (actor : Bytes) :
    Placeable hashingForeign labels (.empty actor) allSelected.identities.zipIdx where
  valid p hp := valid_of_mem_identities hp
  validKey p _ := validKey_of_fromBytes p.1.binding
  roots p hp q hq := mem_zipIdx_inj (nodup_identities allSelected) hp hq
  unlisted p _ _ := List.not_mem_nil
  homes p hp q hq heq := by
    rw [identityHome_of_none _ (known_empty actor _), identityHome_of_none _ (known_empty actor _)]
      at heq
    have hlength := length_all
    have hlt := (List.mem_zipIdx' hp).1
    have hlt' := (List.mem_zipIdx' hq).1
    have hnumber := drawnId_inj (by omega) (by omega) heq
    exact snd_inj_of_mem_zipIdx hp hq (by omega)

/-- A new contact for a party is refused when its id is taken. -/
theorem partyContact_of_taken {cur : Document} {index n : ℕ} {key : Bytes32} {c : Contact f}
    (hkey : validContactKey f (some key) = .ok ())
    (hnone : contactWithPublicKey f cur key = none) (hnumber : index + 1 + maxParties = n)
    (hc : contact f cur (drawnId f labels cur n) = some c) :
    partyContact f labels cur index key = .error "contact entropy was reused" := by
  rw [drawnId] at hc
  rw [partyContact, hnone, hnumber]
  dsimp only
  rw [createContact, hkey]
  dsimp only [bind, Except.bind]
  rw [hc, check, if_neg (by simp)]

/-- A call that fails at a party leaves what was written before. -/
theorem persisted_of_refused {selected : SelectedIntroduction f} {mid out : Document}
    {affected : Option Bytes} {e : String} (hadmits : admits f doc selected = .ok ())
    (hretain : retainEach f labels selected.verified.introduction.issuer.root
      selected.identities.zipIdx doc none = (mid, .ok affected))
    (hintroduce : introduceEach f labels selected.verified.introduction.issuer.root
      selected.verified.introduction.issuedAt selected.chosen mid affected = (out, .error e)) :
    persisted f doc selected labels = (out, .error e) := by
  unfold persisted
  dsimp only
  rw [hadmits, hretain]
  dsimp only
  rw [hintroduce]

/-- The last of the roots has taken the id that is drawn for the party, so that the call fails, and
the roots stay. -/
theorem crowded_introduction_is_halved :
    ¬ Persists hashingForeign (.empty [1]) ⟨[], [], 0, 0⟩ allSelected := by
  intro hpersists
  have hplaceable := placeable_all ⟨[], [], 0, 0⟩ [1]
  obtain ⟨mid, affected, hretain, hkept, -⟩ := retainEach_spec hplaceable hashingForeign_lawful
    allSelected.verified.introduction.issuer.root (List.nil_append _).symm
    (List.Nodup.of_map Prod.snd (by rw [List.zipIdx_map_snd]; exact List.nodup_range'))
    (Kept.refl _ _ _) none
  have hadmits : admits hashingForeign (.empty [1]) allSelected = .ok () := by decide +kernel
  obtain ⟨p, hp, hindex⟩ : ∃ p ∈ allSelected.identities.zipIdx, p.2 = 64 := by
    have hlt : 64 < allSelected.identities.length := by
      rw [length_all]
      decide
    exact ⟨(allSelected.identities[64], 64), List.mk_mem_zipIdx_iff_getElem?.2
      (List.getElem?_eq_getElem hlt), rfl⟩
  -- it has the id that is drawn for the party
  obtain ⟨c, hc, hckey⟩ := hkept.created p hp (known_empty [1] _)
  rw [identityHome_of_none _ (known_empty [1] _)] at hc
  have hparty : contactWithPublicKey hashingForeign mid 100 = none := by
    refine contactWithPublicKey_eq_none.2 fun id hkey => ?_
    rcases hkept.hasKey_iff.1 hkey with hold | ⟨q, hq, -, -, hroot⟩
    · exact not_hasKey_empty [1] id _ hold
    · have hroots : ∀ identity ∈ allSelected.identities, identity.root ≠ 100 := by decide +kernel
      exact hroots q.1 (fst_mem_of_mem_zipIdx hq) hroot
  have hrefused : partyContact hashingForeign ⟨[], [], 0, 0⟩ mid 0 100 =
      .error "contact entropy was reused" := by
    refine partyContact_of_taken (n := p.2 + 1) (c := c) rfl hparty (by rw [hindex]; rfl) ?_
    rw [drawnId, hkept.actor]
    exact hc
  have hchosen : allSelected.chosen = [(⟨100, [⟨[110], [118]⟩]⟩, 0)] := rfl
  have hrun : persisted hashingForeign (.empty [1]) allSelected ⟨[], [], 0, 0⟩ =
      (mid, .error "contact entropy was reused") :=
    persisted_of_refused hadmits hretain (by rw [hchosen, introduceEach, hrefused])
  have hunchanged := hpersists.unchanged _ (congrArg Prod.snd hrun)
  rw [hrun] at hunchanged
  dsimp only at hunchanged
  rw [hunchanged] at hc
  exact not_hasKey_empty [1] _ _ ⟨c, hc, hckey⟩

end Polyvisor.Contacts
