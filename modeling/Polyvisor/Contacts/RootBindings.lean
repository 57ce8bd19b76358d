import Polyvisor.Contacts.Document
import Polyvisor.Lib.Transition

/-!
# One group per root

Runs of `bind_root`, `persist_verified_introduction` and `adopt` on one contacts document.
`ensure_unique_root_group` compares what an introduction brings with every binding the document
holds; the other two operations look at the document's own register alone.

## Main results

* `sound_persist`: a kept introduction never gives a root a second group.
* `holds_bindRoot`, `holds_adopt`: what the document holds after the other two.
* `root_names_one_group`: over runs in which these bring no root that a retained identity has with
  another group.
-/

namespace Polyvisor.Contacts

variable {f : Foreign}

/-! ## Keeping an introduction -/

/-- The id that `create_contact` draws for a number of the introduction. -/
def drawnId (f : Foreign) (labels : Labels) (doc : Document) (index : ℕ) : Bytes :=
  localId f (utf8 "polyvisor:local-contact:v0\x00") (derivedEntropy f labels.entropy index)
    doc.actor

/-- An id that is not listed while its register still shows a retained identity. A contact that was
deleted by one device and written by another at the same time leaves one. -/
def Orphan (f : Foreign) (doc : Document) (id : Bytes) : Prop :=
  id ∉ contactIds doc ∧ retainedBindings f doc id ≠ []

/-- No id that the introduction draws is an orphan. -/
def FreshIds (f : Foreign) (doc : Document) (labels : Labels) : Prop :=
  ∀ index, ¬ Orphan f doc (drawnId f labels doc index)

/-- The document in the middle of `persist_verified_introduction`: it has one group per root, also
with what is still to be retained. -/
structure Sound (f : Foreign) (labels : Labels) (pending : List (AuthenticatedIdentity f))
    (doc : Document) : Prop where
  one : OneGroup f doc
  pending : ∀ identity ∈ pending, ∀ binding, Holds f doc binding →
    binding.Agrees identity.binding.binding
  fresh : FreshIds f doc labels

/-- Listing a contact whose id was drawn brings no binding with it. -/
theorem Sound.lists {labels : Labels} {pending : List (AuthenticatedIdentity f)}
    {doc doc' : Document} {created : Option Bytes} (h : Sound f labels pending doc)
    (hlists : Lists f doc doc' created)
    (hdrawn : ∀ id, created = some id → ∃ index, id = drawnId f labels doc index) :
    Sound f labels pending doc' := by
  have hback : ∀ binding, Holds f doc' binding → Holds f doc binding := by
    intro binding hholds
    rcases hlists.of_holds hholds with hbefore | ⟨id, hcreated, hlisted, hmem⟩
    · exact hbefore
    · obtain ⟨index, rfl⟩ := hdrawn id hcreated
      exact absurd ⟨hlisted, List.ne_nil_of_mem hmem⟩ (h.fresh index)
  refine ⟨fun a b ha hb => h.one a b (hback a ha) (hback b hb), fun identity hidentity binding hb =>
    h.pending identity hidentity binding (hback binding hb), fun index => ?_⟩
  rintro ⟨hlisted, hretained⟩
  have hid : drawnId f labels doc' index = drawnId f labels doc index := by
    rw [drawnId, drawnId, hlists.actor]
  rw [hid] at hlisted hretained
  obtain ⟨binding, hbinding⟩ := List.exists_mem_of_ne_nil _ hretained
  exact h.fresh index ⟨fun hbefore => hlisted ((hlists.listed _).2 (.inl hbefore)),
    List.ne_nil_of_mem ((hlists.retained _ _).1 hbinding)⟩

/-- Retaining an identity replaces what its contact retained. -/
theorem mem_retainedBindings_retainIdentity (hlaw : f.Lawful) {doc : Document} {id other : Bytes}
    {identity : AuthenticatedIdentity f} {binding : RootBinding} :
    binding ∈ retainedBindings f (retainIdentity f doc id identity) other ↔
      (other = id ∧ binding = identity.binding.binding) ∨
        (other ≠ id ∧ binding ∈ retainedBindings f doc other) := by
  rw [mem_retainedBindings, mem_retainedBindings, retainIdentity]
  by_cases hsame : other = id
  · subst hsame
    simp [RootMap.mem_values_put, decodeIdentity_encode hlaw, eq_comm]
  · have hne : Key.contact other .retainedIdentity ≠ .contact id .retainedIdentity := by
      simpa using hsame
    simp [RootMap.mem_values_put_of_ne hne, hsame]

theorem mem_contactIds_retainIdentity {doc : Document} {id other : Bytes}
    {identity : AuthenticatedIdentity f} :
    other ∈ contactIds (retainIdentity f doc id identity) ↔ other ∈ contactIds doc := by
  have hne : Key.contact other .present ≠ .contact id .retainedIdentity := by simp
  simp only [mem_contactIds, retainIdentity, RootMap.mem_values_put_of_ne hne]

theorem mem_selfBindings_retainIdentity {doc : Document} {id : Bytes}
    {identity : AuthenticatedIdentity f} {binding : RootBinding} :
    binding ∈ selfBindings f (retainIdentity f doc id identity) ↔
      binding ∈ selfBindings f doc := by
  have hne : Key.rootBinding ≠ .contact id .retainedIdentity := by simp
  simp only [mem_selfBindings, retainIdentity, RootMap.mem_values_put_of_ne hne]

theorem holds_retainIdentity (hlaw : f.Lawful) {doc : Document} {id : Bytes}
    {identity : AuthenticatedIdentity f} {binding : RootBinding}
    (h : Holds f (retainIdentity f doc id identity) binding) :
    binding = identity.binding.binding ∨ Holds f doc binding := by
  rcases h with hown | ⟨other, hother, hmem⟩
  · exact .inr (.inl (mem_selfBindings_retainIdentity.1 hown))
  · rcases (mem_retainedBindings_retainIdentity hlaw).1 hmem with ⟨-, heq⟩ | ⟨-, hmem⟩
    · exact .inl heq
    · exact .inr (.inr ⟨other, mem_contactIds_retainIdentity.1 hother, hmem⟩)

/-- One identity is retained at a listed contact, and no later one has its root. -/
theorem Sound.retain (hlaw : f.Lawful) {labels : Labels} {identity : AuthenticatedIdentity f}
    {rest : List (AuthenticatedIdentity f)} {doc : Document} {id : Bytes}
    (h : Sound f labels (identity :: rest) doc) (hid : id ∈ contactIds doc)
    (hdistinct : ∀ later ∈ rest, identity.root ≠ later.root) :
    Sound f labels rest (retainIdentity f doc id identity) where
  one a b ha hb := by
    have hnew := h.pending identity List.mem_cons_self
    rcases holds_retainIdentity hlaw ha with rfl | ha <;>
      rcases holds_retainIdentity hlaw hb with rfl | hb
    · exact fun _ => rfl
    · exact (hnew b hb).symm
    · exact hnew a ha
    · exact h.one a b ha hb
  pending later hlater binding hb := by
    rcases holds_retainIdentity hlaw hb with rfl | hb
    · exact fun hroot => absurd hroot (hdistinct later hlater)
    · exact h.pending later (List.mem_cons_of_mem _ hlater) binding hb
  fresh index := by
    rintro ⟨hlisted, hretained⟩
    have hdrawn : drawnId f labels (retainIdentity f doc id identity) index =
        drawnId f labels doc index := by
      rw [drawnId, drawnId, retainIdentity, RootMap.put_actor]
    rw [hdrawn, mem_contactIds_retainIdentity] at hlisted
    rw [hdrawn] at hretained
    obtain ⟨binding, hbinding⟩ := List.exists_mem_of_ne_nil _ hretained
    rcases (mem_retainedBindings_retainIdentity hlaw).1 hbinding with ⟨heq, -⟩ | ⟨-, hbefore⟩
    · exact hlisted (heq ▸ hid)
    · exact h.fresh index ⟨hlisted, List.ne_nil_of_mem hbefore⟩

theorem mem_of_retainedRootContact {doc : Document} {root : Bytes32} {id : Bytes}
    (h : retainedRootContact f doc root = some id) : id ∈ contactIds doc :=
  List.mem_of_find?_eq_some h

theorem mem_of_contactWithPublicKey {doc : Document} {key : Bytes32} {id : Bytes}
    (h : contactWithPublicKey f doc key = some id) : id ∈ contactIds doc := by
  obtain ⟨c, hfind, rfl⟩ := Option.map_eq_some_iff.1 h
  obtain ⟨id, hid, hcontact⟩ := List.mem_filterMap.1 (List.mem_of_find?_eq_some hfind)
  rw [contact] at hcontact
  split at hcontact
  · cases hcontact
  · obtain rfl := Option.some.inj hcontact
    exact hid

/-- The contact of an identity or a party: one that was listed, or one that is drawn. -/
def Placed (f : Foreign) (labels : Labels) (doc doc' : Document) (id : Bytes) : Prop :=
  id ∈ contactIds doc' ∧ ∃ created, Lists f doc doc' created ∧
    ∀ id, created = some id → ∃ index, id = drawnId f labels doc index

theorem placed_refl {labels : Labels} {doc : Document} {id : Bytes} (hid : id ∈ contactIds doc) :
    Placed f labels doc doc id :=
  ⟨hid, none, .refl f doc, fun _ h => nomatch h⟩

theorem placed_createContact {labels : Labels} {doc doc' : Document} {publicKey : Option Bytes32}
    {petname glyph : Bytes} {index : ℕ} {id : Bytes}
    (h : createContact f doc publicKey petname glyph (derivedEntropy f labels.entropy index) =
      .ok (doc', id)) : Placed f labels doc doc' id := by
  obtain ⟨hid, hlists⟩ := lists_createContact h
  refine ⟨(hlists.listed id).2 (.inr rfl), some id, hlists, fun other hother => ⟨index, ?_⟩⟩
  rw [← Option.some.inj hother]
  exact hid

theorem placed_identityContact {labels : Labels} {issuerRoot root : Bytes32}
    {doc doc' : Document} {index : ℕ} {id : Bytes}
    (h : identityContact f labels issuerRoot doc index root = .ok (doc', id)) :
    Placed f labels doc doc' id := by
  rw [identityContact] at h
  rcases hfound : (retainedRootContact f doc root).or (contactWithPublicKey f doc root) with
    _ | found
  · rw [hfound] at h
    exact placed_createContact h
  · rw [hfound] at h
    obtain ⟨rfl, rfl⟩ := Prod.mk.inj (Except.ok.inj h)
    rcases Option.or_eq_some_iff.1 hfound with hroot | ⟨-, hkey⟩
    · exact placed_refl (mem_of_retainedRootContact hroot)
    · exact placed_refl (mem_of_contactWithPublicKey hkey)

theorem placed_partyContact {labels : Labels} {key : Bytes32} {doc doc' : Document} {index : ℕ}
    {id : Bytes} (h : partyContact f labels doc index key = .ok (doc', id)) :
    Placed f labels doc doc' id := by
  rw [partyContact] at h
  rcases hfound : contactWithPublicKey f doc key with _ | found
  · rw [hfound] at h
    exact placed_createContact h
  · rw [hfound] at h
    obtain ⟨rfl, rfl⟩ := Prod.mk.inj (Except.ok.inj h)
    exact placed_refl (mem_of_contactWithPublicKey hfound)

/-- The loop over the identities: each one retained keeps the rest retainable. -/
theorem sound_retainAll (hlaw : f.Lawful) {labels : Labels} {issuerRoot : Bytes32}
    {identities : List (AuthenticatedIdentity f)}
    (hdistinct : (identities.map AuthenticatedIdentity.root).Nodup) {index : ℕ}
    {doc doc' : Document} {affected affected' : Option Bytes}
    (hsound : Sound f labels identities doc)
    (h : retainAll f labels issuerRoot index identities doc affected = .ok (doc', affected')) :
    Sound f labels [] doc' := by
  induction identities generalizing index doc affected with
  | nil =>
    obtain ⟨rfl, -⟩ := Prod.mk.inj (Except.ok.inj h)
    exact hsound
  | cons identity rest ih =>
    rw [retainAll] at h
    obtain ⟨⟨next, id⟩, hplaced, h⟩ := of_bind h
    obtain ⟨hid, created, hlists, hdrawn⟩ := placed_identityContact hplaced
    obtain ⟨hfirst, hrest⟩ := List.nodup_cons.1 hdistinct
    refine ih hrest ((hsound.lists hlists hdrawn).retain hlaw hid ?_) h
    exact fun later hlater heq => hfirst (heq ▸ List.mem_map_of_mem hlater)

/-- The loop over the parties adds contacts, meetings and observations. -/
theorem sound_introduceAll {labels : Labels} {issuerRoot : Bytes32} {issuedAt : ClaimedTime}
    {selected : List ℕ} {parties : List Party} {index : ℕ} {doc doc' : Document}
    {affected affected' : Option Bytes} (hsound : Sound f labels [] doc)
    (h : introduceAll f labels issuerRoot issuedAt selected index parties doc affected =
      .ok (doc', affected')) : Sound f labels [] doc' := by
  induction parties generalizing index doc affected with
  | nil =>
    obtain ⟨rfl, -⟩ := Prod.mk.inj (Except.ok.inj h)
    exact hsound
  | cons party rest ih =>
    rw [introduceAll] at h
    split at h
    · obtain ⟨⟨placed, id⟩, hplaced, h⟩ := of_bind h
      obtain ⟨-, created, hlists, hdrawn⟩ := placed_partyContact hplaced
      dsimp only at h
      have hmeeting := lists_createMeeting f placed (utf8 "verified introduction") []
        (some issuerRoot) labels.received true
        (derivedEntropy f labels.entropy (index + 1 + maxParties * 2))
      generalize createMeeting f placed _ _ _ _ _ _ = created' at h hmeeting
      obtain ⟨met, meeting⟩ := created'
      obtain ⟨observed, hobserve, h⟩ := of_bind h
      have hnone : ∀ id, (none : Option Bytes) = some id →
          ∃ index, id = drawnId f labels placed index :=
        fun _ h => nomatch h
      exact ih ((hsound.lists hlists hdrawn).lists (hmeeting.trans (lists_observeAll hobserve))
        hnone) h
    · exact ih hsound h

/-- `ensure_unique_root_group` compares with everything the document holds. -/
theorem of_ensureUniqueRootGroup {doc : Document} {identity : AuthenticatedIdentity f}
    (h : ensureUniqueRootGroup f doc identity = .ok ()) {binding : RootBinding}
    (hholds : Holds f doc binding) : binding.Agrees identity.binding.binding := by
  rw [ensureUniqueRootGroup] at h
  obtain ⟨-, h⟩ := of_check h
  have hall := check_eq_ok.1 h
  refine fun hroot => hall binding ?_
  rcases hholds with hown | ⟨id, hid, hmem⟩
  · exact List.mem_append_left _ (List.mem_filter.2 ⟨hown, by simpa using hroot⟩)
  · refine List.mem_append_right _ (List.mem_filter.2 ⟨?_, by simpa using hroot⟩)
    exact List.mem_flatMap.2 ⟨id, hid, hmem⟩

theorem of_ensureAll {doc : Document} {identities : List (AuthenticatedIdentity f)}
    (h : ensureAll f doc identities = .ok ()) : ∀ identity ∈ identities, ∀ binding,
    Holds f doc binding → binding.Agrees identity.binding.binding := by
  induction identities with
  | nil => exact fun _ hidentity => absurd hidentity List.not_mem_nil
  | cons first rest ih =>
    rw [ensureAll] at h
    obtain ⟨⟨⟩, hfirst, hrest⟩ := of_bind h
    intro identity hidentity binding hholds
    rcases List.mem_cons.1 hidentity with rfl | hidentity
    · exact of_ensureUniqueRootGroup hfirst hholds
    · exact ih hrest identity hidentity binding hholds

theorem binding_of_validate {identity : AuthenticatedIdentity f} {binding : RootBinding}
    (h : validateAuthenticatedIdentity f identity = .ok binding) :
    binding = identity.binding.binding := by
  rw [validateAuthenticatedIdentity] at h
  obtain ⟨-, h⟩ := of_check h
  obtain ⟨-, -, h⟩ := of_bind h
  obtain ⟨-, h⟩ := of_check h
  obtain ⟨-, h⟩ := of_check h
  exact (Except.ok.inj h).symm

theorem nodup_of_validateIdentities {seen : List Bytes32}
    {identities : List (AuthenticatedIdentity f)}
    (h : validateIdentities f seen identities = .ok ()) :
    (identities.map AuthenticatedIdentity.root).Nodup ∧
      ∀ identity ∈ identities, identity.root ∉ seen := by
  induction identities generalizing seen with
  | nil => exact ⟨List.nodup_nil, fun _ hidentity => absurd hidentity List.not_mem_nil⟩
  | cons first rest ih =>
    rw [validateIdentities] at h
    obtain ⟨binding, hbinding, h⟩ := of_bind h
    obtain rfl := binding_of_validate hbinding
    obtain ⟨hnew, h⟩ := of_check h
    obtain ⟨hrest, hseen⟩ := ih h
    refine ⟨List.nodup_cons.2 ⟨fun hmem => ?_, hrest⟩, fun identity hidentity => ?_⟩
    · obtain ⟨later, hlater, heq⟩ := List.mem_map.1 hmem
      exact hseen later hlater (heq ▸ List.mem_cons_self)
    · rcases List.mem_cons.1 hidentity with rfl | hidentity
      · exact hnew
      · exact fun hmem => hseen identity hidentity (List.mem_cons_of_mem _ hmem)

/-- An introduction that was verified names each root once. -/
theorem VerifiedIntroduction.nodup (value : VerifiedIntroduction f) :
    (value.introduction.allIdentities.map AuthenticatedIdentity.root).Nodup := by
  have h := value.valid
  rw [validateIntroduction] at h
  obtain ⟨-, -, h⟩ := of_bind h
  obtain ⟨-, h⟩ := of_check h
  obtain ⟨-, -, h⟩ := of_bind h
  obtain ⟨issuer, hissuer, h⟩ := of_bind h
  obtain rfl := binding_of_validate hissuer
  obtain ⟨-, h⟩ := of_check h
  obtain ⟨⟨⟩, hidentities, -⟩ := of_bind h
  obtain ⟨hnodup, hseen⟩ := nodup_of_validateIdentities hidentities
  refine List.nodup_cons.2 ⟨fun hmem => ?_, hnodup⟩
  obtain ⟨identity, hidentity, heq⟩ := List.mem_map.1 hmem
  exact hseen identity hidentity (heq ▸ List.mem_singleton.2 rfl)

/-- A kept introduction never gives a root a second group. -/
theorem sound_persist (hlaw : f.Lawful) {doc doc' : Document} {selected : SelectedIntroduction f}
    {labels : Labels} {id : Bytes} (hone : OneGroup f doc) (hfresh : FreshIds f doc labels)
    (h : persistVerifiedIntroduction f doc selected labels = .ok (doc', id)) :
    OneGroup f doc' := by
  rw [persistVerifiedIntroduction] at h
  obtain ⟨-, h⟩ := of_check h
  obtain ⟨⟨⟩, hensure, h⟩ := of_bind h
  obtain ⟨⟨retained, affected⟩, hretain, h⟩ := of_bind h
  obtain ⟨⟨introduced, affected'⟩, hintroduce, h⟩ := of_bind h
  have hdistinct : (selected.identities.map AuthenticatedIdentity.root).Nodup :=
    selected.verified.nodup.sublist (List.filter_sublist.map _)
  have hstart : Sound f labels selected.identities doc := ⟨hone, of_ensureAll hensure, hfresh⟩
  have hend := sound_introduceAll (sound_retainAll hlaw hdistinct hstart hretain) hintroduce
  dsimp only at h
  rcases affected' with _ | id'
  · exact nomatch h
  · obtain ⟨rfl, -⟩ := Prod.mk.inj (Except.ok.inj h)
    exact hend.one

/-! ## The other two operations -/

/-- `bind_root` leaves the document, or puts its binding in place of what the register held. -/
theorem holds_bindRoot {doc doc' : Document} {signed : SignedRootBinding f} {changed : Bool}
    (h : bindRoot f doc signed = .ok (doc', changed)) : doc' = doc ∨
      ∀ binding, Holds f doc' binding → binding = signed.binding ∨
        ∃ id ∈ contactIds doc, binding ∈ retainedBindings f doc id := by
  rw [bindRoot] at h
  obtain ⟨-, h⟩ := of_check h
  split at h
  · split at h
    · obtain ⟨rfl, -⟩ := Prod.mk.inj (Except.ok.inj h)
      exact .inl rfl
    · exact nomatch h
  · obtain ⟨rfl, -⟩ := Prod.mk.inj (Except.ok.inj h)
    refine .inr fun binding hholds => ?_
    rcases hholds with hown | ⟨id, hid, hmem⟩
    · obtain ⟨bytes, hbytes, hbinding⟩ := mem_selfBindings.1 hown
      obtain rfl := Value.bytes.inj (RootMap.mem_values_put.1 hbytes)
      rw [fromBytes_bytes] at hbinding
      exact .inl (Option.some.inj hbinding).symm
    · have hpresent : Key.contact id .present ≠ .rootBinding := by simp
      have hretained : Key.contact id .retainedIdentity ≠ .rootBinding := by simp
      rw [mem_contactIds] at hid
      rw [mem_retainedBindings] at hmem
      simp only [RootMap.mem_values_put_of_ne hpresent] at hid
      simp only [RootMap.mem_values_put_of_ne hretained] at hmem
      exact .inr ⟨id, mem_contactIds.2 hid, mem_retainedBindings.2 hmem⟩

/-- A binding that an adoption may bring together with others: any that the source shows, and any
that the current document shows outside its own register. -/
def Brought (f : Foreign) (current source : Document) (binding : RootBinding) : Prop :=
  binding ∈ selfBindings f source ∨
    ∃ id, binding ∈ retainedBindings f source id ∨ binding ∈ retainedBindings f current id

/-- The merge shows what one of the two documents showed, and the own register is the source's. -/
theorem holds_adopt {current source doc' : Document} (h : adopt f current source = .ok doc')
    {binding : RootBinding} (hholds : Holds f doc' binding) : Brought f current source binding := by
  rw [adopt] at h
  split at h
  · exact nomatch h
  obtain rfl := Except.ok.inj h
  rcases hholds with hown | ⟨id, -, hmem⟩
  · obtain ⟨bytes, hbytes, hbinding⟩ := mem_selfBindings.1 hown
    rcases Multivalue.History.mem_values_merge hbytes with hcurrent | hsource
    · have hne : Key.rootBinding ≠ .selfProfile := by simp
      rw [RootMap.mem_values_delete_of_ne hne] at hcurrent
      exact absurd hcurrent RootMap.not_mem_values_delete
    · exact .inl (mem_selfBindings.2 ⟨bytes, hsource, hbinding⟩)
  · obtain ⟨bytes, hbytes, hbinding⟩ := mem_retainedBindings.1 hmem
    rcases Multivalue.History.mem_values_merge hbytes with hcurrent | hsource
    · have hne : Key.contact id .retainedIdentity ≠ .selfProfile := by simp
      have hne' : Key.contact id .retainedIdentity ≠ .rootBinding := by simp
      rw [RootMap.mem_values_delete_of_ne hne, RootMap.mem_values_delete_of_ne hne'] at hcurrent
      exact .inr ⟨id, .inr (mem_retainedBindings.2 ⟨bytes, hcurrent, hbinding⟩)⟩
    · exact .inr ⟨id, .inl (mem_retainedBindings.2 ⟨bytes, hsource, hbinding⟩)⟩

/-! ## Runs -/

/-- One operation on the document. -/
inductive Operation (f : Foreign) where
  | bindRoot (binding : SignedRootBinding f)
  | persistVerifiedIntroduction (selected : SelectedIntroduction f) (labels : Labels)
  | adopt (source : Document)

/-- What an operation makes of the document. -/
def apply (f : Foreign) (doc : Document) : Operation f → Except String Document
  | .bindRoot binding => (bindRoot f doc binding).map Prod.fst
  | .persistVerifiedIntroduction selected labels =>
    (persistVerifiedIntroduction f doc selected labels).map Prod.fst
  | .adopt source => adopt f doc source

/-- A successful operation moves the document on. -/
def step (f : Foreign) (doc : Document) (operation : Operation f) : Document :=
  match apply f doc operation with
  | .ok doc' => doc'
  | .error _ => doc

/-- An operation brings no root that a retained identity has with another group. What a kept
introduction brings is checked by the code; of it this says only that the ids it draws are new. -/
def Undisputed (f : Foreign) (doc : Document) : Operation f → Prop
  | .bindRoot signed => ∀ id ∈ contactIds doc, ∀ binding ∈ retainedBindings f doc id,
      binding.Agrees signed.binding
  | .persistVerifiedIntroduction _ labels => FreshIds f doc labels
  | .adopt source => ∀ a b, Brought f doc source a → Brought f doc source b → a.Agrees b

/-- One operation keeps one group per root. -/
theorem oneGroup_step (hlaw : f.Lawful) {doc : Document} {operation : Operation f}
    (hundisputed : Undisputed f doc operation) (hone : OneGroup f doc) :
    OneGroup f (step f doc operation) := by
  rw [step]
  split
  swap
  · exact hone
  next doc' happly =>
  rcases operation with signed | ⟨selected, labels⟩ | source
  · rw [apply] at happly
    rcases hbind : bindRoot f doc signed with e | ⟨bound, changed⟩
    · rw [hbind] at happly
      exact nomatch happly
    rw [hbind] at happly
    obtain rfl := Except.ok.inj happly
    rcases holds_bindRoot hbind with rfl | hholds
    · exact hone
    intro a b ha hb
    rcases hholds a ha with rfl | ⟨ida, hida, hmema⟩ <;>
      rcases hholds b hb with rfl | ⟨idb, hidb, hmemb⟩
    · exact fun _ => rfl
    · exact (hundisputed idb hidb b hmemb).symm
    · exact hundisputed ida hida a hmema
    · exact hone a b (.inr ⟨ida, hida, hmema⟩) (.inr ⟨idb, hidb, hmemb⟩)
  · rw [apply] at happly
    rcases hpersist : persistVerifiedIntroduction f doc selected labels with e | ⟨kept, id⟩
    · rw [hpersist] at happly
      exact nomatch happly
    rw [hpersist] at happly
    obtain rfl := Except.ok.inj happly
    exact sound_persist hlaw hone hundisputed hpersist
  · rw [apply] at happly
    exact fun a b ha hb => hundisputed a b (holds_adopt happly ha) (holds_adopt happly hb)

/-- Over every run of the three operations, from a document with one group per root and with no
operation that brings a root which a retained identity has with another group, all bindings that
the document holds agree. -/
theorem root_names_one_group (hlaw : f.Lawful) {doc : Document} (hone : OneGroup f doc)
    {operations : List (Operation f)}
    (hundisputed : Transition.Meets (step f) (Undisputed f) doc operations) :
    OneGroup f (Transition.run (step f) doc operations) :=
  Transition.run_preserves_of_meets (fun _ _ => oneGroup_step hlaw) hundisputed hone

theorem oneGroup_empty (f : Foreign) (actor : Bytes) : OneGroup f (.empty actor) := by
  rintro a - (hown | ⟨id, hid, -⟩)
  · exact absurd hown List.not_mem_nil
  · exact absurd hid List.not_mem_nil

/-! ## A root that is retained before it is bound

A binding and a profile that sign themselves, and identities whose fields are written behind their
length in unary, are enough to run the operations. -/

/-- A field behind its length. -/
def encodeField (field : Bytes) : Bytes :=
  List.replicate field.length 1 ++ 0 :: field

def decodeFields : ℕ → Bytes → List Bytes
  | 0, _ => []
  | fuel + 1, bytes =>
    if bytes = [] then []
    else
      let n := bytes.idxOf 0
      (bytes.drop (n + 1)).take n :: decodeFields fuel (bytes.drop (2 * n + 1))

theorem decodeFields_encode (fields : List Bytes) (fuel : ℕ) (h : fields.length ≤ fuel) :
    decodeFields fuel (fields.flatMap encodeField) = fields := by
  induction fields generalizing fuel with
  | nil => cases fuel <;> rfl
  | cons field rest ih =>
    obtain _ | fuel := fuel
    · exact absurd h (by simp)
    have hidx : ∀ n : ℕ, ∀ tail : Bytes, (List.replicate n 1 ++ 0 :: tail).idxOf 0 = n := by
      intro n tail
      induction n with
      | zero => simp
      | succ n ih =>
        rw [List.replicate_succ, List.cons_append, List.idxOf_cons_ne _ (by decide), ih]
    have hbytes : (field :: rest).flatMap encodeField =
        List.replicate field.length 1 ++ 0 :: (field ++ rest.flatMap encodeField) := by
      simp [encodeField]
    rw [decodeFields, hbytes, if_neg (by simp), hidx]
    have htake : (List.replicate field.length (1 : UInt8) ++
        0 :: (field ++ rest.flatMap encodeField)).drop (field.length + 1) =
          field ++ rest.flatMap encodeField := by
      rw [List.drop_append]
      simp
    have hdrop : (List.replicate field.length (1 : UInt8) ++
        0 :: (field ++ rest.flatMap encodeField)).drop (2 * field.length + 1) =
          rest.flatMap encodeField := by
      rw [show 2 * field.length + 1 = field.length + 1 + field.length by omega, ← List.drop_drop,
        htake, List.drop_left]
    dsimp only
    rw [htake, hdrop, List.take_left, ih fuel (by simpa using h)]

/-- The key that repeats a byte. -/
def repeated (byte : UInt8) : Bytes := List.replicate 32 byte

/-- A binding is a root byte and a group byte, a profile is a root byte. -/
def exampleForeign : Foreign where
  sha _ := 0
  keyKind _ := .valid
  verifyStrict _ _ _ := .ok ()
  decodeSigned bytes := some (bytes, [])
  decodeRootBinding
    | [root, group] => some ⟨0, repeated root, repeated group⟩
    | _ => none
  decodeProfile
    | [root] => some ⟨0, repeated root, repeated root, []⟩
    | _ => none
  encodeIdentity wire :=
    ([wire.rootBinding, wire.authorityDevice, wire.keyhiveAuthorityProof] ++
      wire.profiles).flatMap encodeField
  decodeIdentity bytes :=
    match decodeFields bytes.length bytes with
    | rootBinding :: authorityDevice :: keyhiveAuthorityProof :: profiles =>
      some { rootBinding, profiles, authorityDevice, keyhiveAuthorityProof }
    | _ => none

theorem exampleForeign_lawful : exampleForeign.Lawful := by
  rintro ⟨rootBinding, profiles, authorityDevice, keyhiveAuthorityProof⟩
  have hlength : ∀ fields : List Bytes, fields.length ≤ (fields.flatMap encodeField).length := by
    intro fields
    induction fields with
    | nil => simp
    | cons field rest ih =>
      simp only [List.flatMap_cons, List.length_append, List.length_cons, encodeField] at ih ⊢
      omega
  simp only [exampleForeign, decodeFields_encode _ _ (hlength _), List.cons_append, List.nil_append]

/-- The binding of root 1 to group 2. -/
def firstBinding : SignedRootBinding exampleForeign where
  bytes := [1, 2]
  binding := ⟨BitVec.ofNat 256 (BigEndian.ofBytes (repeated 1)),
    BitVec.ofNat 256 (BigEndian.ofBytes (repeated 2))⟩
  verified := rfl

/-- Its binding to group 3. -/
def secondBinding : SignedRootBinding exampleForeign where
  bytes := [1, 3]
  binding := ⟨BitVec.ofNat 256 (BigEndian.ofBytes (repeated 1)),
    BitVec.ofNat 256 (BigEndian.ofBytes (repeated 3))⟩
  verified := rfl

def exampleProfile : SignedProfile exampleForeign where
  bytes := [1]
  profile := ⟨BitVec.ofNat 256 (BigEndian.ofBytes (repeated 1)),
    BitVec.ofNat 256 (BigEndian.ofBytes (repeated 1)), []⟩
  verified := rfl

/-- Root 1 introduces itself, bound to group 2. -/
def exampleIntroduction : SelectedIntroduction exampleForeign where
  verified := {
    introduction := {
      issuer := ⟨firstBinding, [exampleProfile], 9, [1]⟩
      device := 9
      authenticatedIdentities := []
      parties := []
      issuedAt := ⟨0, 0⟩ }
    valid := rfl }
  roots := [firstBinding.binding.root]
  parties := []

/-- The introduction is kept, and then the root is bound to group 3. -/
def retainedThenBound : List (Operation exampleForeign) :=
  [.persistVerifiedIntroduction exampleIntroduction ⟨[], [], 0, 0⟩, .bindRoot secondBinding]

/-- The document after both. -/
def twoGroups : Document :=
  Transition.run (step exampleForeign) (.empty [7]) retainedThenBound

/-- Both operations succeed, and the root of the document is bound to one group while a contact
retains it with another. -/
theorem bound_root_with_retained_group :
    (retainedThenBound.foldlM (apply exampleForeign) (.empty [7])).isOk ∧
      ((rootBinding exampleForeign twoGroups).map fun signed => signed.binding) =
        some secondBinding.binding ∧
      ((contacts exampleForeign twoGroups).map fun c =>
        c.retainedIdentity.map fun identity => identity.binding.binding) =
          [some firstBinding.binding] ∧
      ¬ OneGroup exampleForeign twoGroups := by
  refine ⟨by decide +kernel, by decide +kernel, by decide +kernel, fun hone => ?_⟩
  have hfirst : ∃ id ∈ contactIds twoGroups,
      firstBinding.binding ∈ retainedBindings exampleForeign twoGroups id := by
    decide +kernel
  have hsecond : secondBinding.binding ∈ selfBindings exampleForeign twoGroups := by
    decide +kernel
  exact absurd (hone _ _ (.inr hfirst) (.inl hsecond) rfl) (by decide +kernel)

/-- The same introduction is kept by a document whose root is bound to the same group. -/
theorem root_names_one_group_boundFirst :
    OneGroup exampleForeign (Transition.run (step exampleForeign) (.empty [7])
      [.bindRoot firstBinding, .persistVerifiedIntroduction exampleIntroduction ⟨[], [], 0, 0⟩]) :=
  root_names_one_group exampleForeign_lawful (oneGroup_empty _ _) (by
    refine ⟨fun id hid => absurd hid List.not_mem_nil, fun index => ?_, trivial⟩
    -- nothing is retained yet
    have hempty : step exampleForeign (.empty [7]) (.bindRoot firstBinding) =
        (RootMap.empty [7] : Document).put .rootBinding (.bytes [1, 2]) := by
      rfl
    rw [hempty]
    rintro ⟨-, hretained⟩
    obtain ⟨binding, hbinding⟩ := List.exists_mem_of_ne_nil _ hretained
    obtain ⟨bytes, hbytes, -⟩ := mem_retainedBindings.1 hbinding
    have hne : ∀ id, Key.contact id .retainedIdentity ≠ .rootBinding := fun _ => nofun
    exact absurd ((RootMap.mem_values_put_of_ne (hne _)).1 hbytes) List.not_mem_nil)

end Polyvisor.Contacts
