import Polyvisor.Contacts.Listing
import Polyvisor.Lib.Transition

/-!
# Merging contacts

What the seven operations on a contacts document keep, over whole runs, and what `merge` and
`delete_contact` do to what the contacts show. `merge` leaves the observations and preferences of
the contact it removes where they are and reaches them through an alias, so that the order of the
source ids decides between two contacts that were merged into the same one.

## Main results

* `WellStored.exists_observation_iff`: what a contact shows, without the order of its sources.
* `Consistent`, `consistent_step`: what holds of every document that orderly operations lead to.
* `edits_keep`: the merges and removals of an orderly run do what they are for.
* `second_merge_overrides`: a second merge that changes what a contact prefers.
-/

namespace Polyvisor.Contacts

variable {f : Foreign} {doc doc' : Document} {id : Bytes}

/-! ## What an observation says -/

/-- What makes two observations the same, however often and whenever they were received. -/
def Observation.identity (o : Observation) : Option Bytes32 × Bytes × Bytes × Bytes :=
  (o.issuer, o.name, o.value, o.meeting)

theorem observationDiscriminator_congr {o o' : Observation} (h : o'.identity = o.identity) :
    observationDiscriminator f o' = observationDiscriminator f o := by
  obtain ⟨hissuer, hname, hvalue, hmeeting⟩ : o'.issuer = o.issuer ∧ o'.name = o.name ∧
      o'.value = o.value ∧ o'.meeting = o.meeting := by
    simpa only [Observation.identity, Prod.mk.injEq] using h
  rw [observationDiscriminator, observationDiscriminator, hissuer, hname, hvalue, hmeeting]

theorem storedKey_hex (key : Option Bytes32) :
    storedKey (some ((key.map fun k => hex (Bytes32.bytes k)).getD [])) = key := by
  rcases key with _ | k
  · rfl
  · have hne : hex (Bytes32.bytes k) ≠ [] := by
      refine List.ne_nil_of_length_pos ?_
      rw [length_hex, Bytes32.bytes, BigEndian.length_toBytes]
      omega
    rw [Option.map_some, Option.getD_some, storedKey, Option.filter_some,
      if_pos (decide_eq_true hne), Option.bind_some, decodeHex32_hex]

theorem Provenance.ofText_text (p : Provenance) : Provenance.ofText p.text = some p := by
  rcases p with _ | _ | _ <;> decide +kernel

/-- The fields of an observation spell it, up to its times. -/
theorem observationOf_fields {read : ObservationField → Option Bytes} {o : Observation}
    (h : ∀ field ∈ observationFields o, read field.1 = some field.2) :
    ∃ o', observationOf read = some o' ∧ o'.identity = o.identity := by
  simp only [observationFields, List.forall_mem_cons] at h
  obtain ⟨hname, hvalue, hprovenance, hissuer, -, -, -, hmeeting, hpresent, -⟩ := h
  rw [observationOf, if_neg (not_not.2 hpresent), hprovenance, hname, hvalue, hissuer, hmeeting,
    storedKey_hex]
  simp only [Option.bind_eq_bind, Option.bind_some, Provenance.ofText_text]
  exact ⟨_, rfl, rfl⟩

/-! ## The first copy -/

theorem prefixes_sorted (doc : Document) (id : Bytes) :
    (prefixes doc id).Pairwise fun copy copy' => copy.1 ≤ copy'.1 := by
  rw [prefixes, List.pairwise_flatMap]
  constructor
  · intro source _
    rw [List.pairwise_map]
    exact List.pairwise_of_forall fun _ _ => List.le_refl source
  · refine (List.pairwise_insertionSort (· ≤ ·) (id :: aliasSources doc id)).imp ?_
    intro source source' hle copy hcopy copy' hcopy'
    obtain ⟨_, -, rfl⟩ := List.mem_map.1 hcopy
    obtain ⟨_, -, rfl⟩ := List.mem_map.1 hcopy'
    exact hle

/-- The copy that is read for a discriminator is the one under the least source. -/
theorem find?_prefixes {source discriminator : Bytes} :
    (prefixes doc id).find? (fun copy => copy.2 = discriminator) = some (source, discriminator) ↔
      (source, discriminator) ∈ prefixes doc id ∧
        ∀ source', (source', discriminator) ∈ prefixes doc id → source ≤ source' := by
  constructor
  · intro h
    refine ⟨List.mem_of_find?_eq_some h, fun source' hsource' => ?_⟩
    obtain ⟨-, before, after, heq, hbefore⟩ := List.find?_eq_some_iff_append.1 h
    have hsorted := prefixes_sorted doc id
    rw [heq] at hsorted hsource'
    rcases List.mem_append.1 hsource' with hmem | hmem
    · have := hbefore _ hmem
      simp at this
    · rcases List.mem_cons.1 hmem with heq | hmem
      · rw [Prod.mk.injEq] at heq
        rw [heq.1]
        exact List.le_refl source
      · exact (List.pairwise_cons.1 (List.pairwise_append.1 hsorted).2.1).1 _ hmem
  · rintro ⟨hmem, hleast⟩
    obtain ⟨⟨first, d⟩, hfirst, rfl⟩ := exists_first hmem
    -- the first copy is under a source that is no greater, and so under the least one
    have hle : source ≤ first := hleast first (List.mem_of_find?_eq_some hfirst)
    obtain ⟨-, before, after, heq, hbefore⟩ := List.find?_eq_some_iff_append.1 hfirst
    have hsorted := prefixes_sorted doc id
    rw [heq] at hsorted hmem
    rcases List.mem_append.1 hmem with hmem | hmem
    · have := hbefore _ hmem
      simp at this
    · rcases List.mem_cons.1 hmem with heq | hmem
      · rw [heq]
        exact hfirst
      · have hge : first ≤ source :=
          (List.pairwise_cons.1 (List.pairwise_append.1 hsorted).2.1).1 _ hmem
        rw [List.le_antisymm hle hge]
        exact hfirst

/-! ## Consistent documents -/

/-- No field of a copy is left. -/
def Vacant (doc : Document) (source discriminator : Bytes) : Prop :=
  ∀ field, doc.history.shown (.observation source discriminator field) = []

/-- A contact that others can be merged into. -/
def Keyed (f : Foreign) (doc : Document) (id : Bytes) : Prop :=
  ∃ c, contact f doc id = some c ∧ c.publicKey.isSome

/-- The id of a contact, or of one that was merged into another. -/
def Held (f : Foreign) (doc : Document) (source : Bytes) : Prop :=
  (contact f doc source).isSome ∨ (rootString doc (.alias source)).isSome

/-- A copy under a source of the contact says that name and value. -/
def Stored (doc : Document) (id name value : Bytes) : Prop :=
  ∃ source ∈ observationSources doc id, ∃ discriminator o,
    storedObservation doc source discriminator = some o ∧ o.name = name ∧ o.value = value

/-- Every copy is complete or gone, and its discriminator is that of what it says. -/
structure WellStored (f : Foreign) (doc : Document) : Prop where
  whole : ∀ source discriminator, Vacant doc source discriminator ∨
    ∃ o, storedObservation doc source discriminator = some o ∧
      observationDiscriminator f o = discriminator
  same : ∀ {source source' discriminator o o'},
    storedObservation doc source discriminator = some o →
    storedObservation doc source' discriminator = some o' → o'.identity = o.identity

/-- What holds between the key families of a document. -/
structure Consistent (f : Foreign) (doc : Document) : Prop extends WellStored f doc where
  aliases : ∀ source, .alias source ∈ doc.keys → ∃ target,
    rootString doc (.alias source) = some target ∧ Keyed f doc target ∧
      contact f doc source = none
  holder : ∀ {source discriminator}, Complete doc (source, discriminator) → Held f doc source
  prefers : ∀ {source name value}, rootString doc (.preferred source name) = some value →
    Held f doc source
  observed : ∀ {id source name value}, (contact f doc id).isSome →
    source ∈ observationSources doc id → rootString doc (.preferred source name) = some value →
    Stored doc id name value

theorem storedObservation_of_vacant {source discriminator : Bytes}
    (h : Vacant doc source discriminator) : storedObservation doc source discriminator = none := by
  rcases hstored : storedObservation doc source discriminator with _ | o
  · rfl
  · have hpresent := present_of_observationOf hstored
    rw [rootString_of_shown_eq_nil (h .present)] at hpresent
    exact (nomatch hpresent)

namespace WellStored

variable (h : WellStored f doc)
include h

theorem discriminator_eq {source discriminator : Bytes} {o : Observation}
    (ho : storedObservation doc source discriminator = some o) :
    observationDiscriminator f o = discriminator := by
  rcases h.whole source discriminator with hvacant | ⟨o', ho', hdisc⟩
  · rw [storedObservation_of_vacant hvacant] at ho
    exact (nomatch ho)
  · rw [ho] at ho'
    rw [Option.some.inj ho', hdisc]

/-- The prefixes that are listed are those of complete copies. -/
theorem mem_prefixes_iff {source discriminator : Bytes} :
    (source, discriminator) ∈ prefixes doc id ↔
      source ∈ observationSources doc id ∧ Complete doc (source, discriminator) := by
  rw [mem_prefixes]
  refine and_congr_right fun _ => ⟨fun hmem => ?_, mem_observationPrefixes_of_complete⟩
  obtain ⟨field, hshown⟩ := mem_observationPrefixes.1 hmem
  rcases h.whole source discriminator with hvacant | ⟨o, ho, -⟩
  · exact absurd (hvacant field) hshown
  · exact Option.isSome_iff_exists.2 ⟨o, ho⟩

/-- An observation is shown from the least source that has a copy. -/
theorem mem_observations {o : Observation} : o ∈ observations doc id ↔
    ∃ source ∈ observationSources doc id, ∃ discriminator,
      storedObservation doc source discriminator = some o ∧
        ∀ source' ∈ observationSources doc id, Complete doc (source', discriminator) →
          source ≤ source' := by
  rw [← (observations_perm doc id).mem_iff, List.mem_map]
  constructor
  · rintro ⟨⟨⟨source, discriminator⟩, o'⟩, hread, rfl⟩
    obtain ⟨hfind, ho⟩ := mem_readCopies.1 hread
    obtain ⟨hmem, hleast⟩ := find?_prefixes.1 hfind
    exact ⟨source, (mem_prefixes.1 hmem).1, discriminator, ho, fun source' hsource' hcomplete =>
      hleast source' (h.mem_prefixes_iff.2 ⟨hsource', hcomplete⟩)⟩
  · rintro ⟨source, hsource, discriminator, ho, hleast⟩
    have hcomplete : Complete doc (source, discriminator) := Option.isSome_iff_exists.2 ⟨o, ho⟩
    refine ⟨((source, discriminator), o), mem_readCopies.2 ⟨find?_prefixes.2
      ⟨h.mem_prefixes_iff.2 ⟨hsource, hcomplete⟩, fun source' hmem => ?_⟩, ho⟩, rfl⟩
    obtain ⟨hsource', hcomplete'⟩ := h.mem_prefixes_iff.1 hmem
    exact hleast source' hsource' hcomplete'

/-- What is shown, up to the times of receipt, does not depend on the order of the sources. -/
theorem exists_observation_iff {p : Observation → Prop}
    (hp : ∀ o o' : Observation, o'.identity = o.identity → p o → p o') :
    (∃ o ∈ observations doc id, p o) ↔ ∃ source ∈ observationSources doc id,
      ∃ discriminator o, storedObservation doc source discriminator = some o ∧ p o := by
  constructor
  · rintro ⟨o, ho, hpo⟩
    obtain ⟨source, hsource, discriminator, hstored, -⟩ := h.mem_observations.1 ho
    exact ⟨source, hsource, discriminator, o, hstored, hpo⟩
  · rintro ⟨source, hsource, discriminator, o, hstored, hpo⟩
    have hmem : (source, discriminator) ∈ prefixes doc id :=
      h.mem_prefixes_iff.2 ⟨hsource, Option.isSome_iff_exists.2 ⟨o, hstored⟩⟩
    obtain ⟨⟨first, d⟩, hfirst, rfl⟩ := exists_first hmem
    -- the copy that is read in place of this one says the same
    have hcomplete := (h.mem_prefixes_iff.1 (List.mem_of_find?_eq_some hfirst)).2
    obtain ⟨o', ho'⟩ := Option.isSome_iff_exists.1 hcomplete
    refine ⟨o', (observations_perm doc id).mem_iff.1
      (List.mem_map.2 ⟨((first, d), o'), mem_readCopies.2 ⟨hfirst, ho'⟩, rfl⟩), ?_⟩
    exact hp o o' (h.same hstored ho') hpo

/-- No two observations that are shown say the same. -/
theorem nodup_identity (id : Bytes) :
    ((observations doc id).map Observation.identity).Nodup := by
  rw [← ((observations_perm doc id).map _).nodup_iff, List.map_map, List.Nodup,
    List.pairwise_map]
  refine List.Pairwise.imp_of_mem ?_ (List.pairwise_map.1 (nodup_readCopies doc id))
  intro c c' hc hc' hne heq
  have hdisc := h.discriminator_eq (mem_readCopies.1 hc).2
  have hdisc' := h.discriminator_eq (mem_readCopies.1 hc').2
  rw [← hdisc, ← hdisc', observationDiscriminator_congr heq] at hne
  exact hne rfl

end WellStored

/-! ## What a contact prefers -/

theorem storedPreference_eq_none_iff {name : Bytes} : storedPreference doc id name = none ↔
    ∀ source ∈ observationSources doc id, rootString doc (.preferred source name) = none := by
  rw [storedPreference_eq, Option.or_eq_none_iff, List.findSome?_eq_none_iff]
  simp only [mergedSources, List.mem_reverse, List.mem_filter, decide_eq_true_iff]
  constructor
  · rintro ⟨hown, hmerged⟩ source hsource
    by_cases hself : source = id
    · rw [hself, hown]
    · exact hmerged source ⟨hsource, hself⟩
  · exact fun h => ⟨h id (self_mem_observationSources doc id), fun source hsource =>
      h source hsource.1⟩

/-- The last source that stores a value for the name stores this one. -/
def LastPrefers (doc : Document) (sources : Bytes → Prop) (name value : Bytes) : Prop :=
  ∃ source, sources source ∧ rootString doc (.preferred source name) = some value ∧
    ∀ source', sources source' → (rootString doc (.preferred source' name)).isSome →
      source' ≤ source

theorem storedPreference_eq_some_iff {name value : Bytes} :
    storedPreference doc id name = some value ↔
      rootString doc (.preferred id name) = some value ∨
        rootString doc (.preferred id name) = none ∧
          LastPrefers doc (· ∈ observationSources doc id) name value := by
  rw [storedPreference_eq]
  rcases hown : rootString doc (.preferred id name) with _ | own
  · simp only [Option.none_or, reduceCtorEq, false_or, true_and]
    have hsorted : (mergedSources doc id).Pairwise (· ≥ ·) := by
      rw [mergedSources, List.pairwise_reverse]
      exact (List.pairwise_insertionSort (· ≤ ·) _).filter _
    have hmem {source : Bytes} (hread : (rootString doc (.preferred source name)).isSome) :
        source ∈ mergedSources doc id ↔ source ∈ observationSources doc id := by
      rw [mergedSources, List.mem_reverse, List.mem_filter, decide_eq_true_iff]
      refine and_iff_left ?_
      rintro rfl
      rw [hown] at hread
      exact Bool.noConfusion hread
    constructor
    · intro hfound
      obtain ⟨before, source, after, heq, hread, hbefore⟩ := List.findSome?_eq_some_iff.1 hfound
      have hsome := Option.isSome_iff_exists.2 ⟨value, hread⟩
      refine ⟨source, (hmem hsome).1 (heq ▸ by simp), hread, fun source' hsource' hread' => ?_⟩
      have hsource' := (hmem hread').2 hsource'
      rw [heq] at hsource' hsorted
      rcases List.mem_append.1 hsource' with hin | hin
      · rw [hbefore source' hin] at hread'
        exact Bool.noConfusion hread'
      · rcases List.mem_cons.1 hin with rfl | hin
        · exact List.le_refl source'
        · exact (List.pairwise_cons.1 (List.pairwise_append.1 hsorted).2.1).1 source' hin
    · rintro ⟨source, hsource, hread, hlast⟩
      have hsome := Option.isSome_iff_exists.2 ⟨value, hread⟩
      obtain ⟨before, after, heq⟩ := List.append_of_mem ((hmem hsome).2 hsource)
      rcases hfound : (mergedSources doc id).findSome? fun source =>
          rootString doc (.preferred source name) with _ | other
      · rw [List.findSome?_eq_none_iff] at hfound
        rw [hfound source ((hmem hsome).2 hsource)] at hread
        cases hread
      · obtain ⟨before, first, after, heq, hfirst, hbefore⟩ :=
          List.findSome?_eq_some_iff.1 hfound
        have hfirst_some := Option.isSome_iff_exists.2 ⟨other, hfirst⟩
        have hle := hlast first ((hmem hfirst_some).1 (heq ▸ by simp)) hfirst_some
        -- a source before the first one that stores a value stores none
        have hin := (hmem hsome).2 hsource
        rw [heq] at hin hsorted
        rcases List.mem_append.1 hin with hin | hin
        · rw [hbefore source hin] at hread
          cases hread
        · rcases List.mem_cons.1 hin with rfl | hin
          · rw [← hfirst, hread]
          · have hge := (List.pairwise_cons.1 (List.pairwise_append.1 hsorted).2.1).1 source hin
            obtain rfl := List.le_antisymm hle hge
            rw [← hfirst, hread]
  · simp

namespace Consistent

variable (h : Consistent f doc)
include h

theorem alias_of_rootString {source target : Bytes}
    (ha : rootString doc (.alias source) = some target) :
    Keyed f doc target ∧ contact f doc source = none := by
  obtain ⟨t, ht, hkeyed, hnone⟩ := h.aliases source (mem_keys_of_rootString ha)
  rw [ha] at ht
  rw [Option.some.inj ht]
  exact ⟨hkeyed, hnone⟩

/-- Only contacts with a key have other sources than themselves. -/
theorem mem_observationSources_of_not_keyed (hid : ¬ Keyed f doc id) {source : Bytes} :
    source ∈ observationSources doc id ↔ source = id := by
  rw [mem_observationSources]
  exact or_iff_left fun ha => hid (h.alias_of_rootString ha).1

/-- All that is preferred is observed, so that it is shown. -/
theorem mem_preferredValues_iff (hid : (contact f doc id).isSome) {name value : Bytes} :
    (name, value) ∈ preferredValues doc id ↔ storedPreference doc id name = some value := by
  rw [mem_preferredValues]
  refine and_iff_left_of_imp fun hstored => ?_
  have hsource : ∃ source ∈ observationSources doc id,
      rootString doc (.preferred source name) = some value := by
    rcases storedPreference_eq_some_iff.1 hstored with hown | ⟨-, source, hsource, hread, -⟩
    · exact ⟨id, self_mem_observationSources doc id, hown⟩
    · exact ⟨source, hsource, hread⟩
  obtain ⟨source, hmem, hread⟩ := hsource
  refine (h.exists_observation_iff fun o o' heq => ?_).2 (h.observed hid hmem hread)
  simp only [Observation.identity, Prod.mk.injEq] at heq
  rintro ⟨hname, hvalue⟩
  exact ⟨heq.2.1.trans hname, heq.2.2.1.trans hvalue⟩

end Consistent

/-! ## Operations that keep observations, aliases and preferences -/

theorem storedObservation_eq_of_marks (hmarks : ∀ source key, key.isOfSource source →
      doc'.history.shown key = doc.history.shown key) (source discriminator : Bytes) :
    storedObservation doc' source discriminator = storedObservation doc source discriminator :=
  storedObservation_congr fun field =>
    hmarks source (.observation source discriminator field) (decide_eq_true rfl)

/-- Copies are well stored where they were and the rest of the keys have changed. -/
theorem WellStored.of_marks (h : WellStored f doc)
    (hmarks : ∀ source discriminator field,
      doc'.history.shown (.observation source discriminator field) =
        doc.history.shown (.observation source discriminator field)) : WellStored f doc' := by
  have hstored (source discriminator : Bytes) :
      storedObservation doc' source discriminator = storedObservation doc source discriminator :=
    storedObservation_congr (hmarks source discriminator)
  constructor
  · intro source discriminator
    rw [Vacant, hstored]
    simp only [hmarks]
    exact h.whole source discriminator
  · intro source source' discriminator o o' ho ho'
    rw [hstored] at ho ho'
    exact h.same ho ho'

/-- An operation on the fields of contacts keeps a document consistent when it removes no contact
and no key, and makes no contact of one that was merged away. -/
theorem Consistent.of_marks (h : Consistent f doc)
    (hmarks : ∀ source key, key.isOfSource source →
      doc'.history.shown key = doc.history.shown key)
    (hkeyed : ∀ id, Keyed f doc id → Keyed f doc' id)
    (hkept : ∀ id, (contact f doc id).isSome → (contact f doc' id).isSome)
    (hnew : ∀ id, (contact f doc' id).isSome → (contact f doc id).isSome ∨
      rootString doc (.alias id) = none) : Consistent f doc' := by
  have halias (source : Bytes) :
      doc'.history.shown (.alias source) = doc.history.shown (.alias source) :=
    hmarks source _ (decide_eq_true rfl)
  have hpreferred (source name : Bytes) : rootString doc' (.preferred source name) =
      rootString doc (.preferred source name) :=
    rootString_congr (hmarks source _ (decide_eq_true rfl))
  have hstored := storedObservation_eq_of_marks hmarks
  have hsources (id : Bytes) : observationSources doc' id = observationSources doc id :=
    observationSources_congr fun source => by rw [rootString_congr (halias source)]
  have hheld (source : Bytes) : Held f doc source → Held f doc' source := by
    rintro (hsome | hsome)
    · exact .inl (hkept source hsome)
    · rw [← rootString_congr (halias source)] at hsome
      exact .inr hsome
  refine { toWellStored := ?_, aliases := ?_, holder := ?_, prefers := ?_, observed := ?_ }
  · exact h.toWellStored.of_marks fun source _ _ => hmarks source _ (decide_eq_true rfl)
  · intro source hsource
    rw [RootMap.mem_keys, halias, ← RootMap.mem_keys] at hsource
    obtain ⟨target, htarget, hk, hnone⟩ := h.aliases source hsource
    refine ⟨target, (rootString_congr (halias source)).trans htarget, hkeyed target hk, ?_⟩
    rcases hcontact : contact f doc' source with _ | c
    · rfl
    · rcases hnew source (Option.isSome_iff_exists.2 ⟨c, hcontact⟩) with hsome | hno
      · rw [hnone] at hsome
        exact Bool.noConfusion hsome
      · rw [htarget] at hno
        exact (nomatch hno)
  · intro source discriminator hcomplete
    rw [Complete, hstored] at hcomplete
    exact hheld source (h.holder hcomplete)
  · intro source name value hread
    rw [hpreferred] at hread
    exact hheld source (h.prefers hread)
  · intro id source name value hid hsource hread
    rw [hsources] at hsource
    rw [hpreferred] at hread
    have hold : (contact f doc id).isSome := by
      rcases hnew id hid with hsome | hno
      · exact hsome
      · -- a new contact has no other source, and nothing is stored under its own id
        by_contra hnot
        have hself : source = id := by
          rcases mem_observationSources.1 hsource with hself | ha
          · exact hself
          · obtain ⟨c, hc, -⟩ := (h.alias_of_rootString ha).1
            rw [hc] at hnot
            exact absurd rfl hnot
        rcases h.prefers hread with hsome | hsome
        · exact hnot (hself ▸ hsome)
        · rw [hself, hno] at hsome
          exact Bool.noConfusion hsome
    obtain ⟨source', hsource', discriminator, o, ho, hsays⟩ := h.observed hold hsource hread
    exact ⟨source', by rwa [hsources], discriminator, o, (hstored _ _).trans ho, hsays⟩

/-! ## Labels and new contacts -/

/-- Put fields leave the keys of all other families as they were. -/
theorem shown_putAll_of_isOfSource {fields : List (Key × Value)}
    (hfields : ∀ field ∈ fields, ∀ source, field.1.isOfSource source = false) (source : Bytes)
    (key : Key) (hkey : key.isOfSource source) :
    (doc.putAll fields).history.shown key = doc.history.shown key := by
  refine RootMap.shown_putAll_of_not_mem fun hmem => ?_
  obtain ⟨field, hfield, rfl⟩ := List.mem_map.1 hmem
  rw [hfields field hfield source] at hkey
  exact Bool.noConfusion hkey

/-- The labels of a contact change nothing else of it. -/
theorem contact_setLabel {id petname glyph : Bytes}
    (h : setLabel f doc id petname glyph = .ok doc') :
    (∃ c, contact f doc id = some c ∧ contact f doc' id = some { c with petname, glyph }) ∧
      ∀ key, key ≠ .contact id .petname → key ≠ .contact id .glyph →
        doc'.history.shown key = doc.history.shown key := by
  rw [setLabel, requireContact] at h
  obtain ⟨hsome, h⟩ := of_check h
  obtain rfl := Except.ok.inj h
  obtain ⟨c, hc⟩ := Option.isSome_iff_exists.1 hsome
  have hframe (key : Key) (hpetname : key ≠ .contact id .petname)
      (hglyph : key ≠ .contact id .glyph) :
      (doc.putAll [(.contact id .petname, .text petname),
        (.contact id .glyph, .text glyph)]).history.shown key = doc.history.shown key :=
    RootMap.shown_putAll_of_not_mem (by simp [hpetname, hglyph])
  refine ⟨⟨c, hc, ?_⟩, hframe⟩
  have hnodup : (([(.contact id .petname, .text petname), (.contact id .glyph, .text glyph)] :
      List (Key × Value)).map Prod.fst).Nodup := by simp
  have hretained : retainedIdentityAt f (doc.putAll
      [(.contact id .petname, .text petname), (.contact id .glyph, .text glyph)]) id =
        retainedIdentityAt f doc id := by
    rw [retainedIdentityAt, retainedIdentityAt,
      allRootBytes_congr (hframe _ (by simp) (by simp))]
  rw [contact] at hc ⊢
  rw [rootString_congr (hframe (.contact id .present) (by simp) (by simp)),
    rootString_congr (hframe (.contact id .publicKey) (by simp) (by simp)), hretained,
    rootString_putAll_of_mem hnodup List.mem_cons_self,
    rootString_putAll_of_mem hnodup (List.mem_cons_of_mem _ List.mem_cons_self)]
  split_ifs at hc ⊢ with hpresent
  obtain rfl := Option.some.inj hc
  rfl

theorem isOfSource_contact (source id : Bytes) (field : ContactField) :
    (Key.contact id field).isOfSource source = false := rfl

theorem consistent_createContact {publicKey : Option Bytes32} {petname glyph : Bytes}
    {entropy : Bytes32} (h : Consistent f doc)
    (hfresh : rootString doc
      (.alias (localId f (utf8 "polyvisor:local-contact:v0\x00") entropy doc.actor)) = none)
    (hedit : createContact f doc publicKey petname glyph entropy = .ok (doc', id)) :
    Consistent f doc' := by
  rw [createContact] at hedit
  obtain ⟨-, -, hedit⟩ := of_bind hedit
  obtain ⟨hunused, hedit⟩ := of_check hedit
  obtain ⟨rfl, rfl⟩ := Prod.mk.inj (Except.ok.inj hedit)
  generalize localId f _ entropy doc.actor = id at hfresh hunused
  generalize hfields : [(Key.contact id .present, Value.text (utf8 "true")),
    (.contact id .petname, .text petname), (.contact id .glyph, .text glyph),
    (.contact id .publicKey,
      .text ((publicKey.map fun k => hex (Bytes32.bytes k)).getD []))] = fields
  -- the fields are those of the new contact
  have hkeys : ∀ field ∈ fields, ∃ name, field.1 = .contact id name := by
    subst hfields
    simp
  have hother {other : Bytes} (hne : other ≠ id) :
      contact f (doc.putAll fields) other = contact f doc other := by
    refine contact_congr fun field => RootMap.shown_putAll_of_not_mem fun hmem => ?_
    obtain ⟨p, hp, heq⟩ := List.mem_map.1 hmem
    obtain ⟨name, hname⟩ := hkeys p hp
    rw [hname, Key.contact.injEq] at heq
    exact hne heq.1.symm
  have hpresent : rootString (doc.putAll fields) (.contact id .present) =
      some (utf8 "true") := by
    subst hfields
    exact rootString_putAll_of_mem (by simp) List.mem_cons_self
  refine h.of_marks (shown_putAll_of_isOfSource fun p hp source => ?_) ?_ ?_ ?_
  · obtain ⟨name, hname⟩ := hkeys p hp
    rw [hname, isOfSource_contact]
  · rintro other ⟨c, hc, hkey⟩
    have hne : other ≠ id := by
      rintro rfl
      rw [hc] at hunused
      exact hunused rfl
    exact ⟨c, (hother hne).trans hc, hkey⟩
  · intro other hsome
    have hne : other ≠ id := fun heq => hunused (heq ▸ hsome)
    rwa [hother hne]
  · intro other hsome
    by_cases hne : other = id
    · exact .inr (hne ▸ hfresh)
    · exact .inl (by rwa [hother hne] at hsome)

theorem consistent_createMeeting {method source : Bytes} {sourceKey : Option Bytes32}
    {occurred : ℕ} {verified : Bool} {entropy : Bytes32} (h : Consistent f doc) :
    Consistent f
      (createMeeting f doc method source sourceKey occurred verified entropy).1 := by
  unfold createMeeting
  dsimp only
  generalize localId f _ entropy doc.actor = id
  have hcontact (other : Bytes) : contact f (doc.putAll [(.meeting id .method, .text method),
      (.meeting id .source, .text source), (.meeting id .sourceKey,
        .text ((sourceKey.map fun k => hex (Bytes32.bytes k)).getD [])),
      (.meeting id .occurred, .text (decimal occurred)),
      (.meeting id .verified, .text (boolText verified))]) other = contact f doc other :=
    contact_congr fun field => RootMap.shown_putAll_of_not_mem (by simp)
  refine h.of_marks (shown_putAll_of_isOfSource (by simp [Key.isOfSource])) ?_ ?_ ?_
  · exact fun other ⟨c, hc, hkey⟩ => ⟨c, (hcontact other).trans hc, hkey⟩
  · exact fun other hsome => by rwa [hcontact]
  · exact fun other hsome => .inl (by rwa [hcontact] at hsome)

theorem consistent_setLabel {petname glyph : Bytes} (h : Consistent f doc)
    (hedit : setLabel f doc id petname glyph = .ok doc') : Consistent f doc' := by
  obtain ⟨⟨c, hc, hc'⟩, hframe⟩ := contact_setLabel hedit
  have hother {other : Bytes} (hne : other ≠ id) : contact f doc' other = contact f doc other :=
    contact_congr fun field => hframe _ (by simp [hne]) (by simp [hne])
  refine h.of_marks ?_ ?_ ?_ ?_
  · intro source key hkey
    refine hframe key ?_ ?_ <;>
    · rintro rfl
      exact Bool.noConfusion hkey
  · rintro other ⟨d, hd, hkey⟩
    by_cases hne : other = id
    · rw [hne, hc] at hd
      obtain rfl := Option.some.inj hd
      refine ⟨{ c with petname, glyph }, ?_, hkey⟩
      rw [hne, hc']
    · exact ⟨d, (hother hne).trans hd, hkey⟩
  · intro other hsome
    by_cases hne : other = id
    · rw [hne, hc']
      rfl
    · rwa [hother hne]
  · intro other hsome
    by_cases hne : other = id
    · exact .inl (by rw [hne, hc]; rfl)
    · exact .inl (by rwa [hother hne] at hsome)

/-! ## Written observations -/

/-- The fields of a written observation are under the contact, and nothing else changes. -/
theorem written {o : Observation} (hedit : writeObservation f doc id o = .ok doc') :
    (contact f doc id).isSome ∧
      (∀ field ∈ observationFields o,
        rootString doc' (.observation id (observationDiscriminator f o) field.1) =
          some field.2) ∧
      ∀ key, (∀ field, key ≠ .observation id (observationDiscriminator f o) field) →
        doc'.history.shown key = doc.history.shown key := by
  rw [writeObservation, requireContact] at hedit
  obtain ⟨hsome, hedit⟩ := of_check hedit
  obtain ⟨-, -, hedit⟩ := of_bind hedit
  rcases hmeeting : meeting doc o.meeting with _ | record
  · rw [hmeeting] at hedit
    cases hedit
  rw [hmeeting] at hedit
  obtain ⟨-, -, hedit⟩ := of_bind hedit
  obtain rfl := Except.ok.inj hedit
  generalize hdisc : observationDiscriminator f o = discriminator
  have hkeys : ((observationFields o).map fun field =>
      (Key.observation id discriminator field.1, Value.text field.2)).map Prod.fst =
        (observationFields o).map fun field => .observation id discriminator field.1 := by
    rw [List.map_map]
    rfl
  have hnodup : ((observationFields o).map fun field =>
      Key.observation id discriminator field.1).Nodup := by simp [observationFields]
  refine ⟨hsome, fun field hfield => ?_, fun key hkey => ?_⟩
  · exact rootString_putAll_of_mem (hkeys ▸ hnodup) (List.mem_map.2 ⟨field, hfield, rfl⟩)
  · refine RootMap.shown_putAll_of_not_mem fun hmem => ?_
    rw [hkeys] at hmem
    obtain ⟨field, -, heq⟩ := List.mem_map.1 hmem
    exact hkey field.1 heq.symm

theorem consistent_writeObservation {o : Observation} (h : Consistent f doc)
    (hclash : ∀ source o', storedObservation doc source (observationDiscriminator f o) = some o' →
      o'.identity = o.identity)
    (hedit : writeObservation f doc id o = .ok doc') : Consistent f doc' := by
  obtain ⟨hid, hfields, hframe⟩ := written hedit
  have hread : ∃ held, storedObservation doc' id (observationDiscriminator f o) = some held ∧
      held.identity = o.identity :=
    observationOf_fields hfields
  obtain ⟨held, hheld, hsays⟩ := hread
  generalize hdisc : observationDiscriminator f o = written at hclash hheld hframe
  have hcontact (other : Bytes) : contact f doc' other = contact f doc other :=
    contact_congr fun field => hframe _ (by simp)
  have halias (source : Bytes) : rootString doc' (.alias source) = rootString doc (.alias source) :=
    rootString_congr (hframe _ (by simp))
  have hpreferred (source name : Bytes) : rootString doc' (.preferred source name) =
      rootString doc (.preferred source name) :=
    rootString_congr (hframe _ (by simp))
  have hsources (other : Bytes) : observationSources doc' other = observationSources doc other :=
    observationSources_congr fun source => by rw [halias]
  have hcopy {source discriminator : Bytes} (hne : (source, discriminator) ≠ (id, written)) :
      storedObservation doc' source discriminator = storedObservation doc source discriminator :=
    storedObservation_congr fun field => hframe _ fun field' heq => hne (by
      rw [Key.observation.injEq] at heq
      rw [heq.1, heq.2.1])
  -- whatever is stored under this discriminator says what was written
  have hunder {source : Bytes} {o' : Observation}
      (ho' : storedObservation doc' source written = some o') : o'.identity = o.identity := by
    by_cases hne : (source, written) = (id, written)
    · rw [(Prod.mk.inj hne).1, hheld] at ho'
      rw [← Option.some.inj ho', hsays]
    · rw [hcopy hne] at ho'
      exact hclash source o' ho'
  have hstays (source : Bytes) : Held f doc source → Held f doc' source := by
    rw [Held, Held, hcontact, halias]
    exact fun hheld => hheld
  refine { whole := ?_, same := ?_, aliases := ?_, holder := ?_, prefers := ?_, observed := ?_ }
  · intro source discriminator
    by_cases hne : (source, discriminator) = (id, written)
    · obtain ⟨rfl, rfl⟩ := Prod.mk.inj hne
      exact .inr ⟨held, hheld, (observationDiscriminator_congr hsays).trans hdisc⟩
    · rw [hcopy hne]
      refine (h.whole source discriminator).imp_left fun hvacant field => ?_
      rw [hframe _ fun field' heq => hne (by
        rw [Key.observation.injEq] at heq
        rw [heq.1, heq.2.1])]
      exact hvacant field
  · intro source source' discriminator first second hfirst hsecond
    by_cases hsame : discriminator = written
    · subst hsame
      rw [hunder hfirst, hunder hsecond]
    · rw [hcopy fun heq => hsame (Prod.mk.inj heq).2] at hfirst hsecond
      exact h.same hfirst hsecond
  · intro source hsource
    rw [RootMap.mem_keys, hframe _ (by simp), ← RootMap.mem_keys] at hsource
    obtain ⟨target, htarget, hkeyed, hnone⟩ := h.aliases source hsource
    refine ⟨target, (halias source).trans htarget, ?_, (hcontact source).trans hnone⟩
    rwa [Keyed, hcontact]
  · intro source discriminator hcomplete
    by_cases hne : (source, discriminator) = (id, written)
    · rw [(Prod.mk.inj hne).1]
      exact hstays id (.inl hid)
    · rw [Complete, hcopy hne] at hcomplete
      exact hstays source (h.holder hcomplete)
  · intro source name value hread
    rw [hpreferred] at hread
    exact hstays source (h.prefers hread)
  · intro other source name value hother hsource hread
    rw [hcontact] at hother
    rw [hsources] at hsource
    rw [hpreferred] at hread
    obtain ⟨source', hsource', discriminator, o', ho', hname, hvalue⟩ :=
      h.observed hother hsource hread
    refine ⟨source', (hsources other).symm ▸ hsource', discriminator, ?_⟩
    by_cases hne : (source', discriminator) = (id, written)
    · -- the copy was written again, and says the same
      obtain ⟨rfl, rfl⟩ := Prod.mk.inj hne
      have hidentity := hsays.trans (hclash _ _ ho').symm
      simp only [Observation.identity, Prod.mk.injEq] at hidentity
      exact ⟨held, hheld, hidentity.2.1.trans hname, hidentity.2.2.1.trans hvalue⟩
    · exact ⟨o', (hcopy hne).trans ho', hname, hvalue⟩

/-! ## Removals -/

section Removals

variable {keys : List Key}

/-- Where a removal leaves no copy in part, what is stored is what none of the keys is about. -/
theorem storedObservation_deleteAll {source discriminator : Bytes}
    (hwhole : ∀ field, .observation source discriminator field ∈ keys →
      Vacant (doc.deleteAll keys) source discriminator) {o : Observation} :
    storedObservation (doc.deleteAll keys) source discriminator = some o ↔
      storedObservation doc source discriminator = some o ∧
        ∀ field, .observation source discriminator field ∉ keys := by
  by_cases hkeys : ∃ field, .observation source discriminator field ∈ keys
  · obtain ⟨field, hfield⟩ := hkeys
    rw [storedObservation_of_vacant (hwhole field hfield)]
    exact iff_of_false (fun h => (nomatch h)) fun h => h.2 field hfield
  · rw [not_exists] at hkeys
    have hsame : storedObservation (doc.deleteAll keys) source discriminator =
        storedObservation doc source discriminator :=
      storedObservation_congr fun field => by rw [RootMap.shown_deleteAll, if_neg (hkeys field)]
    rw [hsame]
    exact (and_iff_left hkeys).symm

theorem WellStored.deleteAll (h : WellStored f doc)
    (hwhole : ∀ source discriminator field, .observation source discriminator field ∈ keys →
      Vacant (doc.deleteAll keys) source discriminator) : WellStored f (doc.deleteAll keys) := by
  constructor
  · intro source discriminator
    by_cases hkeys : ∃ field, .observation source discriminator field ∈ keys
    · obtain ⟨field, hfield⟩ := hkeys
      exact .inl (hwhole source discriminator field hfield)
    · rw [not_exists] at hkeys
      refine (h.whole source discriminator).imp (fun hvacant field => ?_) fun ⟨o, ho, hdisc⟩ => ?_
      · rw [RootMap.shown_deleteAll, if_neg (hkeys field), hvacant field]
      · exact ⟨o, (storedObservation_deleteAll (hwhole source discriminator)).2 ⟨ho, hkeys⟩, hdisc⟩
  · intro source source' discriminator o o' ho ho'
    exact h.same ((storedObservation_deleteAll (hwhole source discriminator)).1 ho).1
      ((storedObservation_deleteAll (hwhole source' discriminator)).1 ho').1

/-- Removed observations and preferences leave a document consistent when what is still preferred
is still observed. -/
theorem Consistent.deleteMarks (h : Consistent f doc)
    (hkeys : ∀ key ∈ keys, (∃ source discriminator field,
      key = .observation source discriminator field) ∨ ∃ source name, key = .preferred source name)
    (hwhole : ∀ source discriminator field, .observation source discriminator field ∈ keys →
      Vacant (doc.deleteAll keys) source discriminator)
    (hobserved : ∀ id source name value, (contact f doc id).isSome →
      source ∈ observationSources doc id → rootString doc (.preferred source name) = some value →
      .preferred source name ∉ keys → Stored doc id name value →
      ∃ source ∈ observationSources doc id, ∃ discriminator o,
        storedObservation (doc.deleteAll keys) source discriminator = some o ∧ o.name = name ∧
          o.value = value) : Consistent f (doc.deleteAll keys) := by
  have hframe (key : Key) (hobs : ∀ s d field, key ≠ .observation s d field)
      (hpref : ∀ s n, key ≠ .preferred s n) :
      (doc.deleteAll keys).history.shown key = doc.history.shown key := by
    rw [RootMap.shown_deleteAll, if_neg]
    intro hmem
    rcases hkeys key hmem with ⟨s, d, field, heq⟩ | ⟨s, n, heq⟩
    · exact hobs s d field heq
    · exact hpref s n heq
  have hcontact (other : Bytes) : contact f (doc.deleteAll keys) other = contact f doc other :=
    contact_congr fun field => hframe _ (by simp) (by simp)
  have halias (source : Bytes) :
      (doc.deleteAll keys).history.shown (.alias source) = doc.history.shown (.alias source) :=
    hframe _ (by simp) (by simp)
  have hsources (other : Bytes) :
      observationSources (doc.deleteAll keys) other = observationSources doc other :=
    observationSources_congr fun source => by rw [rootString_congr (halias source)]
  have hheld (source : Bytes) : Held f doc source → Held f (doc.deleteAll keys) source := by
    rw [Held, Held, hcontact, rootString_congr (halias source)]
    exact fun hheld => hheld
  refine
    { toWellStored := h.toWellStored.deleteAll hwhole
      aliases := ?_
      holder := ?_
      prefers := ?_
      observed := ?_ }
  · intro source hsource
    rw [RootMap.mem_keys, halias, ← RootMap.mem_keys] at hsource
    obtain ⟨target, htarget, hkeyed, hnone⟩ := h.aliases source hsource
    refine ⟨target, (rootString_congr (halias source)).trans htarget, ?_,
      (hcontact source).trans hnone⟩
    rwa [Keyed, hcontact]
  · intro source discriminator hcomplete
    obtain ⟨o, ho⟩ := Option.isSome_iff_exists.1 hcomplete
    exact hheld source (h.holder (Option.isSome_iff_exists.2
      ⟨o, ((storedObservation_deleteAll (hwhole _ _)).1 ho).1⟩))
  · intro source name value hread
    rw [rootString_deleteAll] at hread
    split_ifs at hread
    exact hheld source (h.prefers hread)
  · intro id source name value hid hsource hread
    rw [hcontact] at hid
    rw [hsources] at hsource
    rw [rootString_deleteAll] at hread
    split_ifs at hread with hkept
    rw [Stored, hsources]
    exact hobserved id source name value hid hsource hread hkept
      (h.observed hid hsource hread)

theorem deleteAll_append (keys keys' : List Key) :
    (doc.deleteAll keys).deleteAll keys' = doc.deleteAll (keys ++ keys') :=
  List.foldl_append.symm

end Removals

/-- `removeObservation` leaves the value to the contact that its id was merged into, or there is
nothing preferred to leave it for. -/
def LeavesPreferred (doc : Document) (id name value : Bytes) : Prop :=
  ∀ target, rootString doc (.alias id) = some target →
    (∃ source ∈ observationSources doc target, source ≠ id ∧ ∃ discriminator o,
      storedObservation doc source discriminator = some o ∧ o.name = name ∧ o.value = value) ∨
    ∀ source ∈ observationSources doc target, source ≠ id →
      rootString doc (.preferred source name) ≠ some value

theorem mem_obsFields (field : ObservationField) : field ∈ obsFields := by
  rcases field with _ | _ | _ | _ | _ | _ | _ | _ | _ <;> decide

theorem fields_of_observationOf {read : ObservationField → Option Bytes} {o : Observation}
    (h : observationOf read = some o) : read .name = some o.name ∧ read .value = some o.value := by
  rw [observationOf] at h
  split_ifs at h with hpresent
  simp only [Option.bind_eq_bind, Option.bind_eq_some_iff] at h
  obtain ⟨text, -, provenance, -, name, hname, value, hvalue, heq⟩ := h
  obtain rfl := Option.some.inj heq
  exact ⟨hname, hvalue⟩

/-- The keys that `removeObservation` removes. -/
def keysOfObservation (doc : Document) (id name value : Bytes) : List Key :=
  (((prefixes doc id).filter fun p =>
    rootString doc (.observation p.1 p.2 .name) = some name ∧
      rootString doc (.observation p.1 p.2 .value) = some value).flatMap
        fun p => obsFields.map (.observation p.1 p.2)) ++
    ((observationSources doc id).filter fun source =>
      rootString doc (.preferred source name) = some value).map fun source =>
        .preferred source name

theorem removeObservation_eq (doc : Document) (id name value : Bytes) :
    removeObservation doc id name value = doc.deleteAll (keysOfObservation doc id name value) :=
  deleteAll_append ..

section KeysOfObservation

variable {name value : Bytes}

theorem observation_mem_keysOfObservation {source discriminator : Bytes}
    {field : ObservationField} :
    .observation source discriminator field ∈ keysOfObservation doc id name value ↔
      (source, discriminator) ∈ prefixes doc id ∧
        rootString doc (.observation source discriminator .name) = some name ∧
        rootString doc (.observation source discriminator .value) = some value := by
  simp only [keysOfObservation, List.mem_append, List.mem_flatMap, List.mem_map, List.mem_filter,
    decide_eq_true_iff, Key.observation.injEq, reduceCtorEq, and_false, exists_false, or_false,
    Prod.exists]
  constructor
  · rintro ⟨s, d, hmem, field', -, rfl, rfl, -⟩
    exact hmem
  · exact fun hmem => ⟨_, _, hmem, field, mem_obsFields field, rfl, rfl, rfl⟩

theorem preferred_mem_keysOfObservation {source name' : Bytes} :
    .preferred source name' ∈ keysOfObservation doc id name value ↔
      name' = name ∧ source ∈ observationSources doc id ∧
        rootString doc (.preferred source name) = some value := by
  simp only [keysOfObservation, List.mem_append, List.mem_flatMap, List.mem_map, List.mem_filter,
    decide_eq_true_iff, Key.preferred.injEq, reduceCtorEq, and_false, exists_false, false_or]
  constructor
  · rintro ⟨s, hs, rfl, rfl⟩
    exact ⟨rfl, hs⟩
  · rintro ⟨rfl, hs⟩
    exact ⟨source, hs, rfl, rfl⟩

theorem of_mem_keysOfObservation {key : Key} (h : key ∈ keysOfObservation doc id name value) :
    (∃ source discriminator field, key = .observation source discriminator field) ∨
      ∃ source name, key = .preferred source name := by
  simp only [keysOfObservation, List.mem_append, List.mem_flatMap, List.mem_map] at h
  rcases h with ⟨p, -, field, -, rfl⟩ | ⟨source, -, rfl⟩
  · exact .inl ⟨_, _, _, rfl⟩
  · exact .inr ⟨_, _, rfl⟩

/-- Of a consistent document, the copies that say the name and the value are removed whole. -/
theorem Consistent.removed_iff (h : Consistent f doc) {source discriminator : Bytes}
    {o : Observation} (ho : storedObservation doc source discriminator = some o)
    {field : ObservationField} :
    .observation source discriminator field ∈ keysOfObservation doc id name value ↔
      source ∈ observationSources doc id ∧ o.name = name ∧ o.value = value := by
  obtain ⟨hname, hvalue⟩ := fields_of_observationOf ho
  rw [observation_mem_keysOfObservation, h.mem_prefixes_iff, hname, hvalue, Option.some_inj,
    Option.some_inj, and_assoc]
  exact and_congr_right fun _ => and_iff_right (Option.isSome_iff_exists.2 ⟨o, ho⟩)

theorem consistent_removeObservation (h : Consistent f doc)
    (hleaves : LeavesPreferred doc id name value) :
    Consistent f (removeObservation doc id name value) := by
  rw [removeObservation_eq]
  have hwhole (source discriminator : Bytes) (field : ObservationField)
      (hmem : .observation source discriminator field ∈ keysOfObservation doc id name value) :
      Vacant (doc.deleteAll (keysOfObservation doc id name value)) source discriminator := by
    intro field'
    rw [RootMap.shown_deleteAll, if_pos]
    rw [observation_mem_keysOfObservation] at hmem ⊢
    exact hmem
  refine h.deleteMarks (fun _ => of_mem_keysOfObservation) hwhole ?_
  rintro other source name' value' hother hsource hread hkept
    ⟨source', hsource', discriminator, o, ho, rfl, rfl⟩
  have hstays {s d : Bytes} {p : Observation} (hs : s ∈ observationSources doc other)
      (hp : storedObservation doc s d = some p) (hpname : p.name = o.name)
      (hpvalue : p.value = o.value)
      (hnot : ¬ (s ∈ observationSources doc id ∧ p.name = name ∧ p.value = value)) :
      ∃ s ∈ observationSources doc other, ∃ d p,
        storedObservation (doc.deleteAll (keysOfObservation doc id name value)) s d = some p ∧
          p.name = o.name ∧ p.value = o.value :=
    ⟨s, hs, d, p, (storedObservation_deleteAll (hwhole s d)).2
      ⟨hp, fun field hmem => hnot ((h.removed_iff hp).1 hmem)⟩, hpname, hpvalue⟩
  by_cases hremoved : source' ∈ observationSources doc id ∧ o.name = name ∧ o.value = value
  · obtain ⟨hof, rfl, rfl⟩ := hremoved
    -- the contact shows the removed copy, so that the id is its own or one merged into it
    have hid : id = other ∨ rootString doc (.alias id) = some other := by
      rcases mem_observationSources.1 hof with rfl | ha
      · exact mem_observationSources.1 hsource'
      · rcases mem_observationSources.1 hsource' with rfl | ha'
        · rw [(h.alias_of_rootString ha).2] at hother
          exact Bool.noConfusion hother
        · exact .inl (Option.some.inj (ha.symm.trans ha'))
    rcases hid with rfl | ha
    · exact absurd (preferred_mem_keysOfObservation.2 ⟨rfl, hsource, hread⟩) hkept
    · have hself (s : Bytes) : s ∈ observationSources doc id ↔ s = id := by
        refine h.mem_observationSources_of_not_keyed ?_
        rintro ⟨c, hc, -⟩
        rw [(h.alias_of_rootString ha).2] at hc
        exact (nomatch hc)
      rcases hleaves other ha with ⟨s, hs, hne, d, p, hp, hpname, hpvalue⟩ | hnone
      · exact hstays hs hp hpname hpvalue fun hmem => hne ((hself s).1 hmem.1)
      · by_cases hsame : source = id
        · exact absurd (preferred_mem_keysOfObservation.2
            ⟨rfl, (hself source).2 hsame, hread⟩) hkept
        · exact absurd hread (hnone source hsource hsame)
  · exact hstays hsource' ho rfl rfl hremoved

end KeysOfObservation

/-! ## Preferences -/

theorem consistent_setPreferred {name : Bytes} {value : Option Bytes} (h : Consistent f doc)
    (hedit : setPreferred f doc id name value = .ok doc') : Consistent f doc' := by
  unfold setPreferred at hedit
  rw [requireContact] at hedit
  obtain ⟨hid, hedit⟩ := of_check hedit
  rcases value with _ | wanted
  · obtain rfl := Except.ok.inj hedit
    refine h.deleteMarks (fun key hkey => ?_) (fun source discriminator field hmem => ?_) ?_
    · obtain ⟨source, -, rfl⟩ := List.mem_map.1 hkey
      exact .inr ⟨_, _, rfl⟩
    · obtain ⟨source, -, heq⟩ := List.mem_map.1 hmem
      exact (nomatch heq)
    · rintro other source name' value' - - - - ⟨source', hsource', d, o, ho, hsays⟩
      refine ⟨source', hsource', d, o, (storedObservation_deleteAll fun field hmem => ?_).2
        ⟨ho, fun field hmem => ?_⟩, hsays⟩ <;>
      · obtain ⟨s, -, heq⟩ := List.mem_map.1 hmem
        exact (nomatch heq)
  · obtain ⟨hshown, hedit⟩ := of_check hedit
    obtain rfl := Except.ok.inj hedit
    have hframe (key : Key) (hne : key ≠ .preferred id name) :
        (doc.put (.preferred id name) (.text wanted)).history.shown key = doc.history.shown key :=
      RootMap.shown_put_of_ne hne
    have hcontact (other : Bytes) :
        contact f (doc.put (.preferred id name) (.text wanted)) other = contact f doc other :=
      contact_congr fun field => hframe _ (by simp)
    have halias (source : Bytes) : rootString (doc.put (.preferred id name) (.text wanted))
        (.alias source) = rootString doc (.alias source) :=
      rootString_congr (hframe _ (by simp))
    have hstored (source discriminator : Bytes) :
        storedObservation (doc.put (.preferred id name) (.text wanted)) source discriminator =
          storedObservation doc source discriminator :=
      storedObservation_congr fun field => hframe _ (by simp)
    have hsources (other : Bytes) :
        observationSources (doc.put (.preferred id name) (.text wanted)) other =
          observationSources doc other :=
      observationSources_congr fun source => by rw [halias]
    have hheld (source : Bytes) : Held f doc source →
        Held f (doc.put (.preferred id name) (.text wanted)) source := by
      rw [Held, Held, hcontact, halias]
      exact fun hheld => hheld
    -- what is put is observed, as the operation checks
    have hobserved : Stored doc id name wanted := by
      refine (h.exists_observation_iff fun o o' heq hsays => ?_).1 hshown
      simp only [Observation.identity, Prod.mk.injEq] at heq
      exact ⟨heq.2.1.trans hsays.1, heq.2.2.1.trans hsays.2⟩
    refine
      { toWellStored := h.toWellStored.of_marks fun _ _ _ => hframe _ (by simp)
        aliases := ?_
        holder := ?_
        prefers := ?_
        observed := ?_ }
    · intro source hsource
      rw [RootMap.mem_keys, hframe _ (by simp), ← RootMap.mem_keys] at hsource
      obtain ⟨target, htarget, hkeyed, hnone⟩ := h.aliases source hsource
      refine ⟨target, (halias source).trans htarget, ?_, (hcontact source).trans hnone⟩
      rwa [Keyed, hcontact]
    · intro source discriminator hcomplete
      rw [Complete, hstored] at hcomplete
      exact hheld source (h.holder hcomplete)
    · intro source name' value' hread
      by_cases hsame : Key.preferred source name' = .preferred id name
      · rw [(Key.preferred.inj hsame).1]
        exact hheld id (.inl hid)
      · rw [rootString_congr (hframe _ hsame)] at hread
        exact hheld source (h.prefers hread)
    · intro other source name' value' hother hsource hread
      rw [hcontact] at hother
      rw [hsources] at hsource
      rw [Stored, hsources]
      simp only [hstored]
      by_cases hsame : Key.preferred source name' = .preferred id name
      · obtain ⟨rfl, rfl⟩ := Key.preferred.inj hsame
        rw [rootString_put] at hread
        obtain rfl := Option.some.inj hread
        have hown : source = other := by
          rcases mem_observationSources.1 hsource with hown | ha
          · exact hown
          · rw [(h.alias_of_rootString ha).2] at hid
            exact Bool.noConfusion hid
        exact hown ▸ hobserved
      · rw [rootString_congr (hframe _ hsame)] at hread
        exact h.observed hother hsource hread

/-! ## Deleted contacts -/

theorem mem_keysOfContact {key : Key} : key ∈ keysOfContact doc id ↔ key ∈ doc.keys ∧
    (key.isOfContact id ∨ ∃ source ∈ observationSources doc id, key.isOfSource source) := by
  rw [keysOfContact, List.mem_filter, decide_eq_true_iff]

/-- A key that is not of the contact nor of its sources is not touched. -/
theorem shown_deleteContact {key : Key} (hcontact : key.isOfContact id = false)
    (hsource : ∀ source ∈ observationSources doc id, key.isOfSource source = false) :
    (doc.deleteAll (keysOfContact doc id)).history.shown key = doc.history.shown key := by
  rw [RootMap.shown_deleteAll, if_neg]
  rw [mem_keysOfContact]
  rintro ⟨-, hof | ⟨source, hmem, hof⟩⟩
  · rw [hcontact] at hof
    exact Bool.noConfusion hof
  · rw [hsource source hmem] at hof
    exact Bool.noConfusion hof

/-- A key that is, is gone. -/
theorem shown_deleteContact_of_mem {key : Key} (h : key.isOfContact id ∨
      ∃ source ∈ observationSources doc id, key.isOfSource source) :
    (doc.deleteAll (keysOfContact doc id)).history.shown key = [] := by
  rw [RootMap.shown_deleteAll]
  split_ifs with hmem
  · rfl
  · rw [mem_keysOfContact, not_and] at hmem
    by_contra hne
    exact hmem (RootMap.mem_keys.2 hne) h

/-- After `delete_contact` no key of the contact is left, nor one of a contact merged into it. -/
structure Deleted (doc doc' : Document) (id : Bytes) : Prop where
  contact : ∀ key ∈ doc'.keys, key.isOfContact id = false
  sources : ∀ key ∈ doc'.keys, ∀ source ∈ observationSources doc id, key.isOfSource source = false

theorem deleted (h : deleteContact f doc id = .ok doc') : Deleted doc doc' id := by
  rw [deleteContact] at h
  obtain ⟨-, -, h⟩ := of_bind h
  obtain rfl := Except.ok.inj h
  constructor
  · intro key hkey
    by_contra hof
    rw [Bool.not_eq_false] at hof
    exact RootMap.mem_keys.1 hkey (shown_deleteContact_of_mem (.inl hof))
  · intro key hkey source hsource
    by_contra hof
    rw [Bool.not_eq_false] at hof
    exact RootMap.mem_keys.1 hkey (shown_deleteContact_of_mem (.inr ⟨source, hsource, hof⟩))

/-- What `delete_contact` changes. -/
structure DeleteStep (f : Foreign) (doc doc' : Document) (id : Bytes) : Prop where
  isContact : (contact f doc id).isSome
  gone : ∀ key, (key.isOfContact id ∨ ∃ source ∈ observationSources doc id, key.isOfSource source) →
    doc'.history.shown key = []
  frame : ∀ key, key.isOfContact id = false →
    (∀ source ∈ observationSources doc id, key.isOfSource source = false) →
    doc'.history.shown key = doc.history.shown key

theorem deleteStep (h : deleteContact f doc id = .ok doc') : DeleteStep f doc doc' id := by
  rw [deleteContact, requireContact] at h
  obtain ⟨hid, h⟩ := of_check h
  obtain rfl := Except.ok.inj h
  exact ⟨hid, fun _ => shown_deleteContact_of_mem, fun _ => shown_deleteContact⟩

namespace DeleteStep

variable {source : Bytes} (m : DeleteStep f doc doc' id)
include m

/-- A key of a source that is not the contact's stays as it is. -/
theorem shown_of_source {key : Key} (hsource : ∀ s, key.isOfSource s → source = s)
    (hcontact : key.isOfContact id = false) (hnot : source ∉ observationSources doc id) :
    doc'.history.shown key = doc.history.shown key := by
  refine m.frame key hcontact fun s hs => ?_
  by_contra hof
  rw [Bool.not_eq_false] at hof
  exact hnot (hsource s hof ▸ hs)

theorem alias_eq (hnot : source ∉ observationSources doc id) :
    doc'.history.shown (.alias source) = doc.history.shown (.alias source) :=
  m.shown_of_source (fun _ hof => of_decide_eq_true hof) rfl hnot

theorem observation_eq (hnot : source ∉ observationSources doc id) (discriminator : Bytes)
    (field : ObservationField) :
    doc'.history.shown (.observation source discriminator field) =
      doc.history.shown (.observation source discriminator field) :=
  m.shown_of_source (fun _ hof => of_decide_eq_true hof) rfl hnot

theorem observation_gone (hmem : source ∈ observationSources doc id) (discriminator : Bytes) :
    Vacant doc' source discriminator :=
  fun _ => m.gone _ (.inr ⟨source, hmem, decide_eq_true rfl⟩)

theorem alias_gone (hmem : source ∈ observationSources doc id) :
    doc'.history.shown (.alias source) = [] :=
  m.gone _ (.inr ⟨source, hmem, decide_eq_true rfl⟩)

theorem contact_eq_of_ne {other : Bytes} (hne : other ≠ id) :
    contact f doc' other = contact f doc other :=
  contact_congr fun _ => m.frame _ (decide_eq_false hne) fun _ _ => rfl

theorem contact_self : contact f doc' id = none := by
  have hnil : doc'.history.shown (.contact id .present) = [] :=
    m.gone _ (.inl (decide_eq_true rfl))
  rw [contact, if_pos]
  rw [rootString_of_shown_eq_nil hnil]
  simp

theorem ne_of_isSome {other : Bytes} (hsome : (contact f doc' other).isSome) : other ≠ id := by
  rintro rfl
  rw [m.contact_self] at hsome
  exact Bool.noConfusion hsome

/-- The copies that are left are those of other sources. -/
theorem storedObservation_eq_some {discriminator : Bytes} {o : Observation} :
    storedObservation doc' source discriminator = some o ↔
      storedObservation doc source discriminator = some o ∧
        source ∉ observationSources doc id := by
  by_cases hin : source ∈ observationSources doc id
  · rw [storedObservation_of_vacant (m.observation_gone hin discriminator)]
    exact iff_of_false (fun hnone => by cases hnone) fun hboth => hboth.2 hin
  · have hsame : storedObservation doc' source discriminator =
        storedObservation doc source discriminator :=
      storedObservation_congr (m.observation_eq hin discriminator)
    rw [hsame]
    exact (and_iff_left hin).symm

/-- The preferences that are left are those of other sources. -/
theorem preferred_eq_some {name value : Bytes} :
    rootString doc' (.preferred source name) = some value ↔
      rootString doc (.preferred source name) = some value ∧
        source ∉ observationSources doc id := by
  by_cases hin : source ∈ observationSources doc id
  · have hnil : doc'.history.shown (.preferred source name) = [] :=
      m.gone _ (.inr ⟨source, hin, decide_eq_true rfl⟩)
    rw [rootString_of_shown_eq_nil hnil]
    exact iff_of_false (fun hnone => by cases hnone) fun hboth => hboth.2 hin
  · have hsame : doc'.history.shown (.preferred source name) =
        doc.history.shown (.preferred source name) :=
      m.shown_of_source (fun _ hof => of_decide_eq_true hof) rfl hin
    rw [rootString_congr hsame]
    exact (and_iff_left hin).symm

theorem held (hnot : source ∉ observationSources doc id) (h : Held f doc source) :
    Held f doc' source := by
  have hne : source ≠ id := fun heq => hnot (heq ▸ self_mem_observationSources doc id)
  rwa [Held, m.contact_eq_of_ne hne, rootString_congr (m.alias_eq hnot)]

/-- Another contact shares no source with the deleted one. -/
theorem not_mem_of_mem (h : Consistent f doc) {other : Bytes} (hne : other ≠ id)
    (hsome : (contact f doc other).isSome) (hsource : source ∈ observationSources doc other) :
    source ∉ observationSources doc id := by
  intro hin
  rcases mem_observationSources.1 hin with rfl | ha
  · rcases mem_observationSources.1 hsource with heq | ha'
    · exact hne heq.symm
    · have hid := m.isContact
      rw [(h.alias_of_rootString ha').2] at hid
      exact Bool.noConfusion hid
  · rcases mem_observationSources.1 hsource with rfl | ha'
    · rw [(h.alias_of_rootString ha).2] at hsome
      exact Bool.noConfusion hsome
    · exact hne (Option.some.inj (ha'.symm.trans ha))

/-- Another contact keeps its sources. -/
theorem mem_observationSources_iff (h : Consistent f doc) {other : Bytes} (hne : other ≠ id)
    (hsome : (contact f doc other).isSome) :
    source ∈ observationSources doc' other ↔ source ∈ observationSources doc other := by
  rw [mem_observationSources, mem_observationSources]
  constructor
  · refine Or.imp_right fun ha => ?_
    have hnot : source ∉ observationSources doc id := fun hin => by
      rw [rootString_of_shown_eq_nil (m.alias_gone hin)] at ha
      cases ha
    rwa [rootString_congr (m.alias_eq hnot)] at ha
  · refine Or.imp_right fun ha => ?_
    have hnot := m.not_mem_of_mem h hne hsome (mem_observationSources.2 (.inr ha))
    rwa [rootString_congr (m.alias_eq hnot)]

theorem whole (h : WellStored f doc) (discriminator : Bytes) :
    Vacant doc' source discriminator ∨ ∃ o,
      storedObservation doc' source discriminator = some o ∧
        observationDiscriminator f o = discriminator := by
  by_cases hin : source ∈ observationSources doc id
  · exact .inl (m.observation_gone hin discriminator)
  · rcases h.whole source discriminator with hvacant | ⟨o, ho, hdisc⟩
    · refine .inl fun field => ?_
      rw [m.observation_eq hin discriminator field]
      exact hvacant field
    · exact .inr ⟨o, m.storedObservation_eq_some.2 ⟨ho, hin⟩, hdisc⟩

theorem aliases (h : Consistent f doc) (hsource : .alias source ∈ doc'.keys) :
    ∃ target, rootString doc' (.alias source) = some target ∧ Keyed f doc' target ∧
      contact f doc' source = none := by
  have hnot : source ∉ observationSources doc id :=
    fun hin => RootMap.mem_keys.1 hsource (m.alias_gone hin)
  rw [RootMap.mem_keys, m.alias_eq hnot, ← RootMap.mem_keys] at hsource
  obtain ⟨target, htarget, ⟨c, hc, hkey⟩, hnone⟩ := h.aliases source hsource
  have htarget_ne : target ≠ id := by
    rintro rfl
    exact hnot (mem_observationSources.2 (.inr htarget))
  have hsource_ne : source ≠ id := fun heq => hnot (heq ▸ self_mem_observationSources doc id)
  exact ⟨target, (rootString_congr (m.alias_eq hnot)).trans htarget,
    ⟨c, (m.contact_eq_of_ne htarget_ne).trans hc, hkey⟩,
    (m.contact_eq_of_ne hsource_ne).trans hnone⟩

theorem consistent (h : Consistent f doc) : Consistent f doc' := by
  refine
    { whole := fun source discriminator => m.whole h.toWellStored discriminator
      same := fun ho ho' =>
        h.same (m.storedObservation_eq_some.1 ho).1 (m.storedObservation_eq_some.1 ho').1
      aliases := fun source hsource => m.aliases h hsource
      holder := ?holder
      prefers := ?prefers
      observed := ?observed }
  case holder =>
    intro source discriminator hcomplete
    obtain ⟨o, ho⟩ := Option.isSome_iff_exists.1 hcomplete
    obtain ⟨ho, hnot⟩ := m.storedObservation_eq_some.1 ho
    exact m.held hnot (h.holder (Option.isSome_iff_exists.2 ⟨o, ho⟩))
  case prefers =>
    intro source name value hpreferred
    obtain ⟨hpreferred, hnot⟩ := m.preferred_eq_some.1 hpreferred
    exact m.held hnot (h.prefers hpreferred)
  case observed =>
    intro other source name value hsome hsource hpreferred
    have hne := m.ne_of_isSome hsome
    rw [m.contact_eq_of_ne hne] at hsome
    have hsources {s : Bytes} : s ∈ observationSources doc' other ↔
        s ∈ observationSources doc other := m.mem_observationSources_iff h hne hsome
    obtain ⟨s, hs, discriminator, o, ho, hsays⟩ :=
      h.observed hsome (hsources.1 hsource) (m.preferred_eq_some.1 hpreferred).1
    exact ⟨s, hsources.2 hs, discriminator, o,
      m.storedObservation_eq_some.2 ⟨ho, m.not_mem_of_mem h hne hsome hs⟩, hsays⟩

end DeleteStep

theorem consistent_deleteContact (h : Consistent f doc)
    (hedit : deleteContact f doc id = .ok doc') : Consistent f doc' :=
  (deleteStep hedit).consistent h

/-! ## Merged contacts -/

/-- The labels of a contact with the empty ones filled in from another. -/
def Contact.labelledFrom (target source : Contact f) : Contact f :=
  { target with
    petname := if target.petname = [] then source.petname else target.petname
    glyph := if target.glyph = [] then source.glyph else target.glyph }

/-- What `merge` changes. -/
structure MergeStep (f : Foreign) (doc doc' : Document) (keyless into : Bytes)
    (source target : Contact f) : Prop where
  source_eq : contact f doc keyless = some source
  target_eq : contact f doc into = some target
  isKeyless : source.publicKey.isSome = false
  isKeyed : target.publicKey.isSome
  gone : contact f doc' keyless = none
  labelled : contact f doc' into = some (target.labelledFrom source)
  alias_eq : rootString doc' (.alias keyless) = some into
  frame : ∀ key, key ≠ .alias keyless → key.isOfContact keyless = false →
    key.isOfContact into = false → doc'.history.shown key = doc.history.shown key

/-- The labels are filled in. -/
theorem mergeLabels_spec {source target : Contact f} (htarget : contact f doc id = some target)
    (h : mergeLabels f doc source target = .ok doc') :
    contact f doc' id = some (target.labelledFrom source) ∧
      ∀ key, key ≠ .contact id .petname → key ≠ .contact id .glyph →
        doc'.history.shown key = doc.history.shown key := by
  have hid : target.id = id := by
    rw [contact] at htarget
    split_ifs at htarget
    rw [← Option.some.inj htarget]
  rw [mergeLabels, hid] at h
  by_cases hempty : target.petname = [] ∨ target.glyph = []
  · rw [if_pos hempty] at h
    obtain ⟨⟨c, hc, hc'⟩, hframe⟩ := contact_setLabel h
    rw [htarget] at hc
    obtain rfl := Option.some.inj hc
    exact ⟨hc', hframe⟩
  · rw [if_neg hempty] at h
    rw [not_or] at hempty
    obtain rfl := Except.ok.inj h
    refine ⟨?_, fun _ _ _ => rfl⟩
    rw [htarget, Contact.labelledFrom, if_neg hempty.1, if_neg hempty.2]

theorem mergeStep {keyless into : Bytes} (h : merge f doc keyless into = .ok doc') :
    ∃ source target, MergeStep f doc doc' keyless into source target := by
  unfold merge at h
  rcases hsource : contact f doc keyless with _ | source
  · rw [hsource] at h
    exact (nomatch h)
  rcases htarget : contact f doc into with _ | target
  · rw [hsource, htarget] at h
    exact (nomatch h)
  rw [hsource, htarget] at h
  obtain ⟨hkeys, h⟩ := of_check h
  rw [not_or, Bool.not_eq_true, Option.isNone_iff_eq_none, ← ne_eq, Option.ne_none_iff_isSome]
    at hkeys
  obtain ⟨labelled, hlabelled, h⟩ := of_bind h
  obtain rfl := Except.ok.inj h
  -- one of them has a key and the other has none
  have hne : into ≠ keyless := by
    rintro rfl
    rw [hsource] at htarget
    rw [Option.some.inj htarget, hkeys.2] at hkeys
    exact Bool.noConfusion hkeys.1
  have hput (key : Key) (halias : key ≠ .alias keyless) :
      (doc.put (.alias keyless) (.text into)).history.shown key = doc.history.shown key :=
    RootMap.shown_put_of_ne halias
  have hcontact (other : Bytes) :
      contact f (doc.put (.alias keyless) (.text into)) other = contact f doc other :=
    contact_congr fun field => hput _ (by simp)
  obtain ⟨hlabels, hframe⟩ := mergeLabels_spec ((hcontact into).trans htarget) hlabelled
  have hdelete (key : Key) (hof : key.isOfContact keyless = false) :
      (labelled.deleteAll (labelled.keys.filter fun key => key.isOfContact keyless)).history.shown
        key = labelled.history.shown key := by
    rw [RootMap.shown_deleteAll, if_neg]
    rw [List.mem_filter, hof]
    exact fun hmem => Bool.noConfusion hmem.2
  refine ⟨source, target, hsource, htarget, hkeys.1, hkeys.2, ?_, ?_, ?_, ?_⟩
  · have hnil : (labelled.deleteAll (labelled.keys.filter fun key =>
        key.isOfContact keyless)).history.shown (.contact keyless .present) = [] := by
      rw [RootMap.shown_deleteAll]
      split_ifs with hmem
      · rfl
      · rw [List.mem_filter, not_and] at hmem
        by_contra hshown
        exact hmem (RootMap.mem_keys.2 hshown) (decide_eq_true rfl)
    rw [contact, if_pos]
    rw [rootString_of_shown_eq_nil hnil]
    simp
  · rw [← hlabels]
    exact contact_congr fun field => hdelete _ (decide_eq_false hne)
  · rw [rootString_congr (hdelete _ rfl), rootString_congr (hframe _ (by simp) (by simp)),
      rootString_put]
  · intro key halias hkeyless hinto
    have hlabel (field : ContactField) : key ≠ .contact into field := by
      rintro rfl
      simp [Key.isOfContact] at hinto
    rw [hdelete key hkeyless, hframe key (hlabel _) (hlabel _), hput key halias]

namespace MergeStep

variable {keyless into : Bytes} {source target : Contact f}
  (m : MergeStep f doc doc' keyless into source target)
include m

theorem storedObservation_eq (s d : Bytes) :
    storedObservation doc' s d = storedObservation doc s d :=
  storedObservation_congr fun field => m.frame _ (by simp) rfl rfl

theorem preferred_eq (s name : Bytes) :
    rootString doc' (.preferred s name) = rootString doc (.preferred s name) :=
  rootString_congr (m.frame _ (by simp) rfl rfl)

theorem alias_eq_of_ne {s : Bytes} (hne : s ≠ keyless) :
    doc'.history.shown (.alias s) = doc.history.shown (.alias s) :=
  m.frame _ (by simpa using hne) rfl rfl

theorem contact_eq_of_ne {other : Bytes} (hkeyless : other ≠ keyless) (hinto : other ≠ into) :
    contact f doc' other = contact f doc other :=
  contact_congr fun field =>
    m.frame _ (by simp) (decide_eq_false hkeyless) (decide_eq_false hinto)

/-- The contact without a key is now a source of the other one. -/
theorem mem_sources_into {s : Bytes} : s ∈ observationSources doc' into ↔
    s ∈ observationSources doc into ∨ s = keyless := by
  rw [mem_observationSources, mem_observationSources]
  by_cases hs : s = keyless
  · rw [hs, m.alias_eq]
    simp
  · rw [rootString_congr (m.alias_eq_of_ne hs)]
    exact (or_iff_left hs).symm

variable (h : Consistent f doc)
include h

theorem alias_keyless : rootString doc (.alias keyless) = none := by
  rcases ha : rootString doc (.alias keyless) with _ | t
  · rfl
  · have hnone := (h.alias_of_rootString ha).2
    rw [m.source_eq] at hnone
    exact (nomatch hnone)

/-- The contact without a key was a source of itself alone. -/
theorem mem_sources_keyless {s : Bytes} : s ∈ observationSources doc keyless ↔ s = keyless := by
  refine h.mem_observationSources_of_not_keyed ?_
  rintro ⟨c, hc, hkey⟩
  rw [m.source_eq] at hc
  rw [← Option.some.inj hc, m.isKeyless] at hkey
  exact Bool.noConfusion hkey

theorem sources_of_ne {other : Bytes} (hinto : other ≠ into) :
    observationSources doc' other = observationSources doc other := by
  refine observationSources_congr fun s => ?_
  by_cases hs : s = keyless
  · rw [hs, m.alias_eq, m.alias_keyless h]
    exact iff_of_false (fun heq => hinto (Option.some.inj heq).symm) fun heq => (nomatch heq)
  · rw [rootString_congr (m.alias_eq_of_ne hs)]

theorem consistent : Consistent f doc' := by
  have hkeyed {other : Bytes} (hother : Keyed f doc other) : Keyed f doc' other := by
    obtain ⟨c, hc, hkey⟩ := hother
    by_cases hinto : other = into
    · refine ⟨target.labelledFrom source, ?_, m.isKeyed⟩
      rw [hinto, m.labelled]
    · have hne : other ≠ keyless := by
        rintro rfl
        rw [m.source_eq] at hc
        rw [← Option.some.inj hc, m.isKeyless] at hkey
        exact Bool.noConfusion hkey
      exact ⟨c, (m.contact_eq_of_ne hne hinto).trans hc, hkey⟩
  have hheld {s : Bytes} (hs : Held f doc s) : Held f doc' s := by
    by_cases hkeyless : s = keyless
    · exact .inr (by rw [hkeyless, m.alias_eq]; rfl)
    · rcases hs with hsome | hsome
      · by_cases hinto : s = into
        · exact .inl (by rw [hinto, m.labelled]; rfl)
        · exact .inl (by rwa [m.contact_eq_of_ne hkeyless hinto])
      · exact .inr (by rwa [rootString_congr (m.alias_eq_of_ne hkeyless)])
  refine
    { toWellStored := h.toWellStored.of_marks fun _ _ _ => m.frame _ (by simp) rfl rfl
      aliases := ?_
      holder := ?_
      prefers := ?_
      observed := ?_ }
  · intro s hs
    by_cases hkeyless : s = keyless
    · subst hkeyless
      exact ⟨into, m.alias_eq, hkeyed ⟨target, m.target_eq, m.isKeyed⟩, m.gone⟩
    · rw [RootMap.mem_keys, m.alias_eq_of_ne hkeyless, ← RootMap.mem_keys] at hs
      obtain ⟨t, ht, hk, hnone⟩ := h.aliases s hs
      have hinto : s ≠ into := by
        rintro rfl
        rw [m.target_eq] at hnone
        exact (nomatch hnone)
      exact ⟨t, (rootString_congr (m.alias_eq_of_ne hkeyless)).trans ht, hkeyed hk,
        (m.contact_eq_of_ne hkeyless hinto).trans hnone⟩
  · intro s d hcomplete
    rw [Complete, m.storedObservation_eq] at hcomplete
    exact hheld (h.holder hcomplete)
  · intro s name value hread
    rw [m.preferred_eq] at hread
    exact hheld (h.prefers hread)
  · intro other s name value hsome hs hread
    rw [m.preferred_eq] at hread
    by_cases hinto : other = into
    · subst hinto
      -- the source of the preference was one of either contact, and so is that of what it is for
      have hobserved : Stored doc other name value ∨ Stored doc keyless name value := by
        rcases m.mem_sources_into.1 hs with hs | rfl
        · exact .inl (h.observed (by rw [m.target_eq]; rfl) hs hread)
        · exact .inr (h.observed (by rw [m.source_eq]; rfl)
            (self_mem_observationSources doc _) hread)
      rcases hobserved with ⟨s', hs', d, o, ho, hsays⟩ | ⟨s', hs', d, o, ho, hsays⟩
      · exact ⟨s', m.mem_sources_into.2 (.inl hs'), d, o,
          (m.storedObservation_eq s' d).trans ho, hsays⟩
      · exact ⟨s', m.mem_sources_into.2 (.inr ((m.mem_sources_keyless h).1 hs')), d, o,
          (m.storedObservation_eq s' d).trans ho, hsays⟩
    · have hkeyless : other ≠ keyless := by
        rintro rfl
        rw [m.gone] at hsome
        exact Bool.noConfusion hsome
      rw [m.sources_of_ne h hinto] at hs
      rw [m.contact_eq_of_ne hkeyless hinto] at hsome
      obtain ⟨s', hs', d, o, ho, hsays⟩ := h.observed hsome hs hread
      exact ⟨s', (m.sources_of_ne h hinto).symm ▸ hs', d, o,
        (m.storedObservation_eq s' d).trans ho, hsays⟩

end MergeStep

/-! ## What a merge is for -/

/-- For a name that `into` has no own preference for, the last contact merged into it that has one
either agrees with the contact without a key or sorts after it. -/
def Uncontested (doc : Document) (keyless into : Bytes) : Prop :=
  ∀ name value other, rootString doc (.preferred keyless name) = some value →
    rootString doc (.preferred into name) = none → ∀ last ∈ observationSources doc into,
      rootString doc (.preferred last name) = some other →
      (∀ source ∈ observationSources doc into,
        (rootString doc (.preferred source name)).isSome → source ≤ last) →
      other = value ∨ keyless < last

/-- `merge` unites what two contacts show, and what the destination prefers goes first. -/
structure Merged (f : Foreign) (doc doc' : Document) (keyless into : Bytes) : Prop where
  distinct : ((observations doc' into).map Observation.identity).Nodup
  shown : ∀ o ∈ observations doc' into, o ∈ observations doc keyless ∨ o ∈ observations doc into
  kept : ∀ o, o ∈ observations doc keyless ∨ o ∈ observations doc into →
    o.identity ∈ (observations doc' into).map Observation.identity
  preferred : ∀ name value, (name, value) ∈ preferredValues doc' into ↔
    (name, value) ∈ preferredValues doc into ∨
      (∀ own, (name, own) ∉ preferredValues doc into) ∧ (name, value) ∈ preferredValues doc keyless
  labels : ∃ source target, contact f doc keyless = some source ∧
    contact f doc into = some target ∧ contact f doc' into = some (target.labelledFrom source)
  gone : contact f doc' keyless = none
  others : ∀ id, id ≠ keyless → id ≠ into → card f doc' id = card f doc id

namespace MergeStep

variable {keyless into : Bytes} {source target : Contact f}
  (m : MergeStep f doc doc' keyless into source target) (h : Consistent f doc)
include m h

theorem storedPreference_keyless (name : Bytes) :
    storedPreference doc keyless name = rootString doc (.preferred keyless name) := by
  rcases hread : rootString doc (.preferred keyless name) with _ | value
  · rw [storedPreference_eq_none_iff]
    intro s hs
    rw [(m.mem_sources_keyless h).1 hs, hread]
  · exact storedPreference_eq_some_iff.2 (.inl hread)

omit h in
/-- The last source after an uncontested merge is the last of the destination, if it had one. -/
theorem storedPreference_into (huncontested : Uncontested doc keyless into) (name value : Bytes) :
    storedPreference doc' into name = some value ↔
      storedPreference doc into name = some value ∨ storedPreference doc into name = none ∧
        rootString doc (.preferred keyless name) = some value := by
  rw [storedPreference_eq_some_iff, m.preferred_eq]
  rcases hown : rootString doc (.preferred into name) with _ | own
  · have hlast' : LastPrefers doc' (· ∈ observationSources doc' into) name value ↔
        LastPrefers doc (fun s => s ∈ observationSources doc into ∨ s = keyless) name value := by
      simp only [LastPrefers, m.mem_sources_into, m.preferred_eq]
    rw [hlast']
    simp only [reduceCtorEq, true_and, false_or]
    have hbefore {other : Bytes} : storedPreference doc into name = some other ↔
        LastPrefers doc (· ∈ observationSources doc into) name other := by
      rw [storedPreference_eq_some_iff, hown]
      simp
    constructor
    · rintro ⟨s, hs | rfl, hread, hlast⟩
      · exact .inl (hbefore.2 ⟨s, hs, hread, fun s' hs' => hlast s' (.inl hs')⟩)
      · rcases hstored : storedPreference doc into name with _ | other
        · exact .inr ⟨rfl, hread⟩
        · obtain ⟨last, hin, hother, hle⟩ := hbefore.1 hstored
          rcases huncontested name value other hread hown last hin hother hle with rfl | hlt
          · exact .inl rfl
          · have hge := hlast last (.inl hin) (Option.isSome_iff_exists.2 ⟨other, hother⟩)
            exact absurd hlt (List.not_lt.2 hge)
    · rintro (hstored | ⟨hnone, hread⟩)
      · obtain ⟨last, hin, hread, hle⟩ := hbefore.1 hstored
        rcases hkeyless : rootString doc (.preferred keyless name) with _ | wanted
        · refine ⟨last, .inl hin, hread, fun s' hs' hsome => ?_⟩
          rcases hs' with hs' | rfl
          · exact hle s' hs' hsome
          · rw [hkeyless] at hsome
            exact Bool.noConfusion hsome
        · by_cases hlt : keyless < last
          · refine ⟨last, .inl hin, hread, fun s' hs' hsome => ?_⟩
            rcases hs' with hs' | rfl
            · exact hle s' hs' hsome
            · exact List.le_of_lt hlt
          · rcases huncontested name wanted value hkeyless hown last hin hread hle with rfl | hlt'
            · refine ⟨keyless, .inr rfl, hkeyless, fun s' hs' hsome => ?_⟩
              rcases hs' with hs' | rfl
              · exact List.le_trans (hle s' hs' hsome) (List.not_lt.1 hlt)
              · exact List.le_refl s'
            · exact absurd hlt' hlt
      · refine ⟨keyless, .inr rfl, hread, fun s' hs' hsome => ?_⟩
        rcases hs' with hs' | rfl
        · rw [storedPreference_eq_none_iff.1 hnone s' hs'] at hsome
          exact Bool.noConfusion hsome
        · exact List.le_refl s'
  · have hstored : storedPreference doc into name = some own :=
      storedPreference_eq_some_iff.2 (.inl hown)
    rw [hstored]
    simp

theorem mem_observations_into {o : Observation} (ho : o ∈ observations doc' into) :
    o ∈ observations doc keyless ∨ o ∈ observations doc into := by
  obtain ⟨s, hs, d, hstored, hleast⟩ := (m.consistent h).mem_observations.1 ho
  rw [m.storedObservation_eq] at hstored
  have hleast' (s' : Bytes) (hs' : s' ∈ observationSources doc into ∨ s' = keyless)
      (hcomplete : Complete doc (s', d)) : s ≤ s' := by
    refine hleast s' (m.mem_sources_into.2 hs') ?_
    rwa [Complete, m.storedObservation_eq]
  rcases m.mem_sources_into.1 hs with hin | rfl
  · exact .inr (h.mem_observations.2
      ⟨s, hin, d, hstored, fun s' hs' => hleast' s' (.inl hs')⟩)
  · exact .inl (h.mem_observations.2 ⟨s, self_mem_observationSources doc s, d, hstored,
      fun s' hs' => hleast' s' (.inr ((m.mem_sources_keyless h).1 hs'))⟩)

theorem identity_mem {o : Observation}
    (ho : o ∈ observations doc keyless ∨ o ∈ observations doc into) :
    o.identity ∈ (observations doc' into).map Observation.identity := by
  have hcopy : ∃ s, (s ∈ observationSources doc into ∨ s = keyless) ∧ ∃ d,
      storedObservation doc s d = some o := by
    rcases ho with ho | ho
    · obtain ⟨s, hs, d, hstored, -⟩ := h.mem_observations.1 ho
      exact ⟨s, .inr ((m.mem_sources_keyless h).1 hs), d, hstored⟩
    · obtain ⟨s, hs, d, hstored, -⟩ := h.mem_observations.1 ho
      exact ⟨s, .inl hs, d, hstored⟩
  obtain ⟨s, hs, d, hstored⟩ := hcopy
  rw [List.mem_map]
  refine ((m.consistent h).exists_observation_iff fun o₁ o₂ heq h₁ => heq.trans h₁).2 ?_
  exact ⟨s, m.mem_sources_into.2 hs, d, o, (m.storedObservation_eq s d).trans hstored, rfl⟩

theorem merged (huncontested : Uncontested doc keyless into) : Merged f doc doc' keyless into := by
  have hinto : (contact f doc into).isSome := by
    rw [m.target_eq]
    rfl
  have hkeyless : (contact f doc keyless).isSome := by
    rw [m.source_eq]
    rfl
  have hinto' : (contact f doc' into).isSome := by
    rw [m.labelled]
    rfl
  refine
    { distinct := (m.consistent h).nodup_identity into
      shown := fun o => m.mem_observations_into h
      kept := fun o => m.identity_mem h
      preferred := ?_
      labels := ⟨source, target, m.source_eq, m.target_eq, m.labelled⟩
      gone := m.gone
      others := ?_ }
  · intro name value
    rw [(m.consistent h).mem_preferredValues_iff hinto', m.storedPreference_into huncontested]
    simp only [h.mem_preferredValues_iff hinto, h.mem_preferredValues_iff hkeyless,
      m.storedPreference_keyless h, Option.eq_none_iff_forall_ne_some, ne_eq]
  · intro id hne hne'
    have hframe (key : Key) (halias : key ≠ .alias keyless)
        (hcontact : ∀ field, key ≠ .contact keyless field ∧ key ≠ .contact into field) :
        doc'.history.shown key = doc.history.shown key := by
      refine m.frame key halias ?_ ?_
      · rcases key with _ | _ | ⟨holder, field⟩ | _ | _ | _ | _ | _ <;> try rfl
        exact decide_eq_false fun heq => (hcontact field).1 (heq ▸ rfl)
      · rcases key with _ | _ | ⟨holder, field⟩ | _ | _ | _ | _ | _ <;> try rfl
        exact decide_eq_false fun heq => (hcontact field).2 (heq ▸ rfl)
    exact card_congr (fun field => hframe _ (by simp) (by simp [hne, hne']))
      (m.sources_of_ne h hne') (fun _ _ _ _ => hframe _ (by simp) (by simp))
      fun _ _ _ => hframe _ (by simp) (by simp)

end MergeStep

/-! ## Runs -/

/-- One operation. All of them check before they write, so that one that fails changes nothing. -/
def perform (f : Foreign) (doc : Document) (e : Edit) : Document :=
  match edit f doc e with
  | .ok doc' => doc'
  | .error _ => doc

/-- An operation that brings no merged contact back, confuses no two observations, leaves no
preference behind and contests none. -/
def Orderly (f : Foreign) (doc : Document) : Edit → Prop
  | .createContact _ _ _ entropy => rootString doc
    (.alias (localId f (utf8 "polyvisor:local-contact:v0\x00") entropy doc.actor)) = none
  | .writeObservation _ o => ∀ source o',
    storedObservation doc source (observationDiscriminator f o) = some o' →
      o'.identity = o.identity
  | .removeObservation id name value => LeavesPreferred doc id name value
  | .merge keyless into => Uncontested doc keyless into
  | _ => True

/-- What is wanted of every document. -/
structure Coherent (f : Foreign) (doc : Document) : Prop where
  aliases : ∀ source, .alias source ∈ doc.keys → ∃ target,
    rootString doc (.alias source) = some target ∧ (contact f doc target).isSome
  preferred : ∀ id, ∀ p ∈ preferredValues doc id,
    ∃ o ∈ observations doc id, o.name = p.1 ∧ o.value = p.2

/-- What is wanted of every operation. -/
def Keeps (f : Foreign) (doc : Document) : Edit → Prop
  | .merge keyless into => ∀ doc', merge f doc keyless into = .ok doc' →
    Merged f doc doc' keyless into
  | .deleteContact id => ∀ doc', deleteContact f doc id = .ok doc' → Deleted doc doc' id
  | _ => True

theorem Consistent.coherent (h : Consistent f doc) : Coherent f doc := by
  constructor
  · intro source hsource
    obtain ⟨target, htarget, ⟨c, hc, -⟩, -⟩ := h.aliases source hsource
    exact ⟨target, htarget, Option.isSome_iff_exists.2 ⟨c, hc⟩⟩
  · rintro id ⟨name, value⟩ hmem
    exact (mem_preferredValues.1 hmem).2

theorem consistent_empty (f : Foreign) (actor : Bytes) : Consistent f (RootMap.empty actor) := by
  have hshown (key : Key) : (RootMap.empty actor).history.shown key = [] := rfl
  have hread (key : Key) : rootString (RootMap.empty actor) key = none :=
    rootString_of_shown_eq_nil (hshown key)
  have hstored (source discriminator : Bytes) :
      storedObservation (RootMap.empty actor) source discriminator = none :=
    storedObservation_of_vacant fun field => hshown _
  refine
    { whole := fun source discriminator => .inl fun field => hshown _
      same := fun ho => ?_
      aliases := fun source hsource => absurd (hshown _) (RootMap.mem_keys.1 hsource)
      holder := fun hcomplete => ?_
      prefers := fun hpreferred => ?_
      observed := fun _ _ hpreferred => ?_ }
  · rw [hstored] at ho
    exact (nomatch ho)
  · rw [Complete, hstored] at hcomplete
    exact Bool.noConfusion hcomplete
  · rw [hread] at hpreferred
    exact (nomatch hpreferred)
  · rw [hread] at hpreferred
    exact (nomatch hpreferred)

/-- Orderly operations keep a document consistent. -/
theorem consistent_step {e : Edit} (horderly : Orderly f doc e) (h : Consistent f doc) :
    Consistent f (perform f doc e) := by
  unfold perform
  rcases hedit : edit f doc e with _ | doc'
  · exact h
  rcases e with ⟨publicKey, petname, glyph, entropy⟩ | ⟨method, source, sourceKey, occurred,
    verified, entropy⟩ | ⟨id, o⟩ | ⟨id, name, value⟩ | ⟨id, name, value⟩ | ⟨id, petname, glyph⟩ |
    ⟨keyless, into⟩ | id
  · rw [edit] at hedit
    rcases hcreate : createContact f doc publicKey petname glyph entropy with _ | ⟨created, id⟩
    · rw [hcreate] at hedit
      exact (nomatch hedit)
    · rw [hcreate] at hedit
      obtain rfl := Except.ok.inj hedit
      exact consistent_createContact h horderly hcreate
  · obtain rfl := Except.ok.inj hedit
    exact consistent_createMeeting h
  · exact consistent_writeObservation h horderly hedit
  · obtain rfl := Except.ok.inj hedit
    exact consistent_removeObservation h horderly
  · exact consistent_setPreferred h hedit
  · exact consistent_setLabel h hedit
  · obtain ⟨source, target, m⟩ := mergeStep hedit
    exact m.consistent h
  · exact consistent_deleteContact h hedit

theorem keeps_of_orderly {e : Edit} (h : Consistent f doc) (horderly : Orderly f doc e) :
    Keeps f doc e := by
  rcases e with _ | _ | _ | _ | _ | _ | ⟨keyless, into⟩ | id <;> try trivial
  · intro doc' hmerge
    obtain ⟨source, target, m⟩ := mergeStep hmerge
    exact m.merged h horderly
  · exact fun doc' => deleted

/-- In every run of orderly operations, aliases point to contacts and what is preferred is
observed; its merges unite what both contacts show, with the preferences of the destination first,
and its removals leave no key of a contact behind. -/
theorem edits_keep (f : Foreign) (actor : Bytes) (edits : List Edit)
    (h : Transition.Meets (perform f) (Orderly f) (.empty actor) edits) :
    Transition.Throughout (perform f) (Coherent f) (.empty actor) edits ∧
      Transition.Meets (perform f) (Keeps f) (.empty actor) edits := by
  have hstep (doc : Document) (e : Edit) : Orderly f doc e → Consistent f doc →
      Consistent f (perform f doc e) :=
    consistent_step
  refine ⟨Transition.throughout_iff.2 fun ms hms => ?_, Transition.meets_of_meets hstep
    (fun _ _ => keeps_of_orderly) h (consistent_empty f actor)⟩
  exact (Transition.throughout_iff.1
    (Transition.throughout_of_meets hstep h (consistent_empty f actor)) ms hms).coherent

/-- Two contacts hold one observation, and the one without a key prefers it. It is merged into the
other, which is then deleted. -/
def unitingEdits : List Edit :=
  sharedEdits ++
    [.setPreferred firstId [110] (some [118]), .merge firstId secondId, .deleteContact secondId]

/-- An observation is stored under one of the contacts that the document has observations of. -/
theorem source_mem_of_stored (sources : List Bytes) {source discriminator : Bytes}
    {o : Observation} (ho : storedObservation doc source discriminator = some o)
    (hkeys : (doc.keys.all fun key => match key with
      | .observation holder _ _ => decide (holder ∈ sources)
      | _ => true) = true) : source ∈ sources := by
  have hmem : Key.observation source discriminator .present ∈ doc.keys :=
    mem_keys_of_rootString (present_of_observationOf ho)
  exact of_decide_eq_true (List.all_eq_true.1 hkeys _ hmem)

theorem edits_keep_uniting :
    Transition.Throughout (perform hashingForeign) (Coherent hashingForeign) (.empty [1])
        unitingEdits ∧
      Transition.Meets (perform hashingForeign) (Keeps hashingForeign) (.empty [1])
        unitingEdits := by
  refine edits_keep hashingForeign [1] unitingEdits ⟨rootString_of_shown_eq_nil rfl, ?_, trivial,
    fun source o ho => ?_, fun source o ho => ?_, trivial, fun name value other _ hinto => ?_,
    trivial,
    trivial⟩
  · show rootString _ _ = none
    decide +kernel
  · -- nothing is observed before the first write
    have hsource := source_mem_of_stored [] ho (by decide +kernel)
    exact absurd hsource List.not_mem_nil
  · -- the second contact gets a copy of what the first one holds
    have hsource := source_mem_of_stored [firstId] ho (by decide +kernel)
    have hheld : (storedObservation (Transition.run (perform hashingForeign) (.empty [1])
        (unitingEdits.take 4)) firstId
          (observationDiscriminator hashingForeign heldObservation)).map Observation.identity =
        some heldObservation.identity := by
      decide +kernel
    rw [List.mem_singleton.1 hsource] at ho
    exact Option.some.inj ((congrArg (Option.map Observation.identity) ho).symm.trans hheld)
  · -- nothing was merged into the second contact yet
    intro last hlast hother
    have hsources : observationSources (Transition.run (perform hashingForeign) (.empty [1])
        (unitingEdits.take 6)) secondId = [secondId] := by
      decide +kernel
    rw [show last = secondId from List.mem_singleton.1 (hsources ▸ hlast), hinto] at hother
    exact nomatch hother

/-! ## A contested merge

Two contacts without a key prefer different values for one name. Both are merged into a contact that
has no preference of its own: with the second merge the value that the contact shows changes. -/

def thirdId : Bytes := localId hashingForeign (utf8 "polyvisor:local-contact:v0\x00") 4 [1]

def contestedEdits : List Edit :=
  [.createContact none [] [] 1, .createContact (some 5) [] [] 2, .createContact none [] [] 4,
    .createMeeting [] [] none 1 false 3, .writeObservation firstId heldObservation,
    .writeObservation thirdId { heldObservation with value := [119] },
    .setPreferred firstId [110] (some [118]), .setPreferred thirdId [110] (some [119]),
    .merge firstId secondId]

theorem second_merge_overrides :
    ¬ Transition.Meets (perform hashingForeign) (Keeps hashingForeign) (.empty [1])
      (contestedEdits ++ [.merge thirdId secondId]) := by
  rw [Transition.meets_append]
  rintro ⟨-, hkeeps, -⟩
  generalize hbefore : Transition.run (perform hashingForeign) (.empty [1]) contestedEdits =
    before at hkeeps
  have hrun : (merge hashingForeign before thirdId secondId).toOption.any (fun doc' =>
      ([110], [118]) ∈ preferredValues before secondId ∧
        ([110], [118]) ∉ preferredValues doc' secondId) = true := by
    rw [← hbefore]
    decide +kernel
  rcases hmerge : merge hashingForeign before thirdId secondId with e | doc'
  · rw [hmerge] at hrun
    exact Bool.noConfusion hrun
  · rw [hmerge, Except.toOption, Option.any_some, decide_eq_true_iff] at hrun
    obtain ⟨hold, hnew⟩ := hrun
    have hmerged : Merged hashingForeign before doc' thirdId secondId := hkeeps doc' hmerge
    exact hnew ((hmerged.preferred [110] [118]).2 (.inl hold))

end Polyvisor.Contacts
