import Polyvisor.Contacts.Listing

/-!
# Adopting contacts

`adopt` empties the two registers of the self identity and merges the source. The removals also
hide what the current document has seen of the source's writes, and the merge does not bring these
again. What the source's history says nothing about stays as it was.

## Main results

* `adopt_iff`: the profile read afterwards is the source's, and nothing else is touched, exactly
  when the current document had not seen the writes that the source reads its profile from.
-/

namespace Polyvisor.Contacts

variable {f : Foreign} {current source adopted : Document}

/-! ## The registers -/

theorem adopt_eq (h : adopt f current source = .ok adopted) :
    (selfProfile f source).isSome ∧
      adopted = ((current.delete .rootBinding).delete .selfProfile).mergeSnapshot source := by
  rw [adopt] at h
  rcases hprofile : selfProfile f source with _ | own
  · rw [hprofile] at h
    cases h
  · rw [hprofile] at h
    exact ⟨rfl, (Except.ok.inj h).symm⟩

/-- The keys of the self identity. -/
def Key.IsOwn (key : Key) : Prop :=
  key = .rootBinding ∨ key = .selfProfile

/-- After an adoption a register of the self identity shows what the source shows, except for what
the current document had seen. -/
theorem mem_shown_adopt (h : adopt f current source = .ok adopted) {key : Key} (hkey : key.IsOwn)
    {w : Multivalue.Write Bytes Key Value} :
    w ∈ adopted.history.shown key ↔
      w ∈ source.history.shown key ∧ current.history.Unseen w := by
  obtain ⟨-, rfl⟩ := adopt_eq h
  have hne : Key.selfProfile ≠ .rootBinding := by simp
  have hnil : ((current.delete .rootBinding).delete .selfProfile).history.shown key = [] := by
    rcases hkey with rfl | rfl
    · rw [RootMap.shown_delete_of_ne hne.symm, RootMap.shown_delete]
    · exact RootMap.shown_delete _ _
  rw [RootMap.mergeSnapshot, Multivalue.History.mem_shown_merge_of_shown_eq_nil hnil]
  refine and_congr_right fun hw => ?_
  have hwkey : w.key = key := (Multivalue.History.mem_shown.1 hw).2.1
  rw [RootMap.not_hides_delete, RootMap.not_hides_delete, RootMap.shown_delete_of_ne hne,
    Multivalue.History.Unseen, hwkey]
  rcases hkey with rfl | rfl
  · simp
  · simp

/-- The source shows these bytes by a write that the current document had not seen. -/
def Brings (current source : Document) (key : Key) (bytes : Bytes) : Prop :=
  ∃ w ∈ source.history.shown key, w.value = some (.bytes bytes) ∧ current.history.Unseen w

theorem mem_allRootBytes_adopt (h : adopt f current source = .ok adopted) {key : Key}
    (hkey : key.IsOwn) {bytes : Bytes} :
    bytes ∈ allRootBytes adopted key ↔ Brings current source key bytes := by
  rw [mem_allRootBytes, Multivalue.History.mem_values]
  simp only [mem_shown_adopt h hkey]
  constructor
  · rintro ⟨w, ⟨hw, hunseen⟩, hvalue⟩
    exact ⟨w, hw, hvalue, hunseen⟩
  · rintro ⟨w, hw, hvalue, hunseen⟩
    exact ⟨w, ⟨hw, hunseen⟩, hvalue⟩

theorem Brings.mem {key : Key} {bytes : Bytes} (h : Brings current source key bytes) :
    bytes ∈ allRootBytes source key := by
  obtain ⟨w, hw, hvalue, -⟩ := h
  exact mem_allRootBytes.2 (Multivalue.History.mem_values.2 ⟨w, hw, hvalue⟩)

/-! ## The profile -/

/-- The profile that bytes spell, if the root of a binding signed it for itself. -/
def officialProfile (f : Foreign) (root : Bytes32) (bytes : Bytes) : Option (SignedProfile f) :=
  ((SignedProfile.fromBytes f bytes).toOption).filter fun signed =>
    signed.profile.subject = root ∧ signed.profile.issuer = root

theorem bytes_of_fromBytes {bytes : Bytes} {signed : SignedRootBinding f}
    (h : (SignedRootBinding.fromBytes f bytes).toOption = some signed) : signed.bytes = bytes := by
  rw [SignedRootBinding.fromBytes] at h
  split at h
  · rw [← Option.some.inj h]
  · cases h

theorem bytes_of_officialProfile {root : Bytes32} {bytes : Bytes} {signed : SignedProfile f}
    (h : officialProfile f root bytes = some signed) : signed.bytes = bytes := by
  obtain ⟨hfrom, -⟩ := Option.filter_eq_some_iff.1 h
  rw [SignedProfile.fromBytes] at hfrom
  split at hfrom
  · rw [← Option.some.inj hfrom]
  · cases hfrom

theorem selfProfile_eq (doc : Document) : selfProfile f doc =
    (rootBinding f doc).map fun binding => ⟨binding.binding.root, binding,
      (allRootBytes doc .selfProfile).filterMap (officialProfile f binding.binding.root)⟩ := by
  rw [selfProfile, rootIdentity]
  rcases rootBinding f doc with _ | binding
  · rfl
  · show some _ = some _
    rw [signedProfiles, List.filter_filterMap]
    rfl

theorem rootBinding_eq_some {doc : Document} {binding : SignedRootBinding f} :
    rootBinding f doc = some binding ↔ allRootBytes doc .rootBinding = [binding.bytes] := by
  rw [rootBinding]
  constructor
  · intro h
    split at h
    next bytes hbytes => rw [hbytes, bytes_of_fromBytes h]
    next => cases h
  · intro h
    rw [h]
    show (SignedRootBinding.fromBytes f binding.bytes).toOption = _
    rw [fromBytes_bytes]
    rfl

/-- The current document had not seen the writes that the source reads its profile from: one of its
binding and one of each variant. -/
def ProfileUnseen (f : Foreign) (current source : Document) : Prop :=
  ∀ own, selfProfile f source = some own →
    Brings current source .rootBinding own.binding.bytes ∧
      ∀ variant ∈ own.variants, Brings current source .selfProfile variant.bytes

theorem selfProfile_adopt (h : adopt f current source = .ok adopted) :
    selfProfile f adopted = selfProfile f source ↔ ProfileUnseen f current source := by
  obtain ⟨own, hown⟩ := Option.isSome_iff_exists.1 (adopt_eq h).1
  have hbinding : Key.rootBinding.IsOwn := .inl rfl
  have hprofile : Key.selfProfile.IsOwn := .inr rfl
  have hsource := hown
  rw [selfProfile_eq, Option.map_eq_some_iff] at hsource
  obtain ⟨binding, hread, rfl⟩ := hsource
  have hbytes := rootBinding_eq_some.1 hread
  rw [ProfileUnseen, hown]
  simp only [Option.some.injEq, forall_eq']
  constructor
  · intro heq
    rw [selfProfile_eq, Option.map_eq_some_iff] at heq
    obtain ⟨binding', hread', heq⟩ := heq
    obtain ⟨-, rfl, hvariants⟩ := SelfProfile.mk.inj heq
    constructor
    · rw [← mem_allRootBytes_adopt h hbinding, rootBinding_eq_some.1 hread']
      exact List.mem_singleton.2 rfl
    · intro variant hvariant
      rw [← hvariants] at hvariant
      obtain ⟨bytes, hmem, hofficial⟩ := List.mem_filterMap.1 hvariant
      rw [bytes_of_officialProfile hofficial]
      exact (mem_allRootBytes_adopt h hprofile).1 hmem
  · rintro ⟨hown', hvariants⟩
    -- nothing but the source's one binding can be read
    have hroot : rootBinding f adopted = some binding := by
      rw [rootBinding_eq_some, ← hbytes]
      refine allRootBytes_ext fun bytes => ?_
      rw [mem_allRootBytes_adopt h hbinding]
      refine ⟨Brings.mem, fun hmem => ?_⟩
      rw [hbytes, List.mem_singleton] at hmem
      rw [hmem]
      exact hown'
    have hofficial : (allRootBytes adopted .selfProfile).filterMap
        (officialProfile f binding.binding.root) =
          (allRootBytes source .selfProfile).filterMap
            (officialProfile f binding.binding.root) := by
      refine filterMap_allRootBytes_congr fun bytes hsome => ?_
      rw [mem_allRootBytes_adopt h hprofile]
      refine ⟨Brings.mem, fun hmem => ?_⟩
      obtain ⟨variant, hvariant⟩ := Option.isSome_iff_exists.1 hsome
      rw [← bytes_of_officialProfile hvariant]
      exact hvariants variant (List.mem_filterMap.2 ⟨bytes, hmem, hvariant⟩)
    rw [selfProfile_eq, hroot, Option.map_some, hofficial]

/-! ## What current alone held -/

/-- What the source's history says nothing about shows as before. -/
theorem shown_adopt_of_not_knows (h : adopt f current source = .ok adopted) {key : Key}
    (hkey : ¬ key.IsOwn) (hnot : ¬ source.history.Knows key) :
    adopted.history.shown key = current.history.shown key := by
  obtain ⟨-, rfl⟩ := adopt_eq h
  obtain ⟨hbinding, hprofile⟩ := not_or.1 hkey
  rw [RootMap.mergeSnapshot, Multivalue.History.shown_merge_of_not_knows hnot,
    RootMap.shown_delete_of_ne hprofile, RootMap.shown_delete_of_ne hbinding]

/-- Everything that the contact is read from is held by the current document alone: the source's
history has nothing about its keys and those of its sources, and no alias is about it for both. -/
structure HeldAlone (current source : Document) (id : Bytes) : Prop where
  contact : ∀ field, ¬ source.history.Knows (.contact id field)
  aliases : ∀ held, source.history.Knows (.alias held) →
    .text id ∉ current.history.values (.alias held) ∧
      .text id ∉ source.history.values (.alias held)
  observation : ∀ held ∈ observationSources current id, ∀ discriminator field,
    ¬ source.history.Knows (.observation held discriminator field)
  preferred : ∀ held ∈ observationSources current id, ∀ name,
    ¬ source.history.Knows (.preferred held name)

theorem mem_values_of_rootString {doc : Document} {key : Key} {text : Bytes}
    (h : rootString doc key = some text) : .text text ∈ doc.history.values key := by
  rw [rootString, Option.bind_eq_some_iff] at h
  obtain ⟨value, hnewest, htext⟩ := h
  have hvalue : value = .text text := by
    rcases value with _ | t | _ | _
    · cases htext
    · rw [Option.some.inj htext]
    · cases htext
    · cases htext
  rw [← hvalue]
  exact Multivalue.History.mem_values_of_newest hnewest

/-- A contact of the current document alone reads as before. -/
theorem card_adopt (h : adopt f current source = .ok adopted) {id : Bytes}
    (halone : HeldAlone current source id) : card f adopted id = card f current id := by
  have hkeep {key : Key} (hkey : ¬ key.IsOwn) (hnot : ¬ source.history.Knows key) :=
    shown_adopt_of_not_knows h hkey hnot
  have halias (held : Bytes) : rootString adopted (.alias held) = some id ↔
      rootString current (.alias held) = some id := by
    by_cases hknows : source.history.Knows (.alias held)
    · -- neither document has an alias of the contact there
      obtain ⟨hcurrent, hsource⟩ := halone.aliases held hknows
      refine iff_of_false (fun hread => ?_) fun hread => hcurrent (mem_values_of_rootString hread)
      obtain ⟨-, rfl⟩ := adopt_eq h
      rcases Multivalue.History.mem_values_merge (mem_values_of_rootString hread) with hmem | hmem
      · rw [RootMap.mem_values_delete_of_ne (by simp), RootMap.mem_values_delete_of_ne (by simp)]
          at hmem
        exact hcurrent hmem
      · exact hsource hmem
    · rw [rootString_congr (hkeep (by simp [Key.IsOwn]) hknows)]
  refine card_congr (fun field => hkeep (by simp [Key.IsOwn]) (halone.contact field))
    (observationSources_congr halias) (fun held hheld discriminator field => ?_)
    (fun held hheld name => ?_)
  · exact hkeep (by simp [Key.IsOwn]) (halone.observation held hheld discriminator field)
  · exact hkeep (by simp [Key.IsOwn]) (halone.preferred held hheld name)

/-- The current document takes over the self profile of the source and nothing else: what it alone
held shows as before, key by key and contact by contact. -/
structure TakesOver (f : Foreign) (current source adopted : Document) : Prop where
  profile : selfProfile f adopted = selfProfile f source
  keys : ∀ key : Key, ¬ key.IsOwn → ¬ source.history.Knows key →
    adopted.history.shown key = current.history.shown key
  contacts : ∀ id, HeldAlone current source id → card f adopted id = card f current id

/-- An adoption takes over the self profile of the source and nothing else exactly when the current
document had not seen the writes that the source reads it from. -/
theorem adopt_iff (f : Foreign) (current source adopted : Document)
    (h : adopt f current source = .ok adopted) :
    TakesOver f current source adopted ↔ ProfileUnseen f current source :=
  ⟨fun htakes => (selfProfile_adopt h).1 htakes.profile, fun hunseen =>
    ⟨(selfProfile_adopt h).2 hunseen, fun _ => shown_adopt_of_not_knows h,
      fun _ => card_adopt h⟩⟩

/-! ## A history that was seen -/

/-- A document whose root is bound and has a profile. -/
def establishedDocument : Document :=
  ((RootMap.empty [7] : Document).put .rootBinding (.bytes firstBinding.bytes)).put .selfProfile
    (.bytes exampleProfile.bytes)

/-- A document that adopts its own history is left without a profile. -/
theorem seen_profile_is_lost : ∃ own adopted,
    selfProfile exampleForeign establishedDocument = some own ∧
      adopt exampleForeign establishedDocument establishedDocument = .ok adopted ∧
      selfProfile exampleForeign adopted = none := by
  have hready : (selfProfile exampleForeign establishedDocument).isSome = true := by
    decide +kernel
  obtain ⟨own, hown⟩ := Option.isSome_iff_exists.1 hready
  have hadopt : adopt exampleForeign establishedDocument establishedDocument = .ok
      (((establishedDocument.delete .rootBinding).delete .selfProfile).mergeSnapshot
        establishedDocument) := by
    rw [adopt, hown]
  refine ⟨own, _, hown, hadopt, ?_⟩
  have hlost : (selfProfile exampleForeign (((establishedDocument.delete .rootBinding).delete
      .selfProfile).mergeSnapshot establishedDocument)).isNone = true := by
    decide +kernel
  exact Option.isNone_iff_eq_none.1 hlost

/-- A document of another actor takes it over. -/
theorem adopt_unrelated : ∃ adopted, adopt exampleForeign (.empty [8]) establishedDocument =
    .ok adopted ∧ TakesOver exampleForeign (.empty [8]) establishedDocument adopted := by
  have hready : (selfProfile exampleForeign establishedDocument).isSome = true := by
    decide +kernel
  obtain ⟨own, hown⟩ := Option.isSome_iff_exists.1 hready
  have hadopt : adopt exampleForeign (.empty [8]) establishedDocument = .ok
      ((((RootMap.empty [8]).delete .rootBinding).delete .selfProfile).mergeSnapshot
        establishedDocument) := by
    rw [adopt, hown]
  refine ⟨_, hadopt, (adopt_iff exampleForeign (.empty [8]) establishedDocument _ hadopt).2 ?_⟩
  -- an empty history has seen nothing
  have hunseen (w : Multivalue.Write Bytes Key Value) :
      (RootMap.empty [8] : Document).history.Unseen w :=
    ⟨fun u hu => absurd hu List.not_mem_nil, List.not_mem_nil⟩
  have hbrings {key : Key} {bytes : Bytes} (hmem : bytes ∈ allRootBytes establishedDocument key) :
      Brings (.empty [8]) establishedDocument key bytes := by
    obtain ⟨w, hw, hvalue⟩ := Multivalue.History.mem_values.1 (mem_allRootBytes.1 hmem)
    exact ⟨w, hw, hvalue, hunseen w⟩
  intro own' hown'
  rw [selfProfile_eq, Option.map_eq_some_iff] at hown'
  obtain ⟨binding, hread, rfl⟩ := hown'
  refine ⟨hbrings ?_, fun variant hvariant => hbrings ?_⟩
  · rw [rootBinding_eq_some.1 hread]
    exact List.mem_singleton.2 rfl
  · obtain ⟨bytes, hmem, hofficial⟩ := List.mem_filterMap.1 hvariant
    rw [bytes_of_officialProfile hofficial]
    exact hmem

end Polyvisor.Contacts
