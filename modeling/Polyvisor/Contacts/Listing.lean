import Polyvisor.Contacts.Observations
import Polyvisor.Contacts.RootBindings

/-!
# What a contact shows

How the listings of `Observations` depend on the document, and what the order of the sources does
to them. `observations` marks a discriminator as seen before it reads the copy, so that of several
copies the first one decides.

## Main results

* `mem_observationSources`, `mem_prefixes`, `storedPreference_eq`: the listings by their members.
* `observations_complete_iff`: every complete observation is listed unless a copy of it that is
  not complete comes first.
-/

namespace Polyvisor.Contacts

variable {doc doc' : Document} {id : Bytes}

/-! ## Sources and prefixes -/

theorem mem_aliasSources {source : Bytes} :
    source ∈ aliasSources doc id ↔ rootString doc (.alias source) = some id := by
  rw [aliasSources, List.mem_filter, decide_eq_true_iff, List.mem_dedup, List.mem_filterMap]
  refine ⟨fun h => h.2, fun h => ⟨⟨_, mem_keys_of_rootString h, rfl⟩, h⟩⟩

theorem mem_observationSources {source : Bytes} :
    source ∈ observationSources doc id ↔
      source = id ∨ rootString doc (.alias source) = some id := by
  rw [observationSources, List.mem_insertionSort, List.mem_cons, mem_aliasSources]

theorem self_mem_observationSources (doc : Document) (id : Bytes) :
    id ∈ observationSources doc id :=
  mem_observationSources.2 (.inl rfl)

/-- The sources depend on the aliases of the contact alone. -/
theorem observationSources_congr (h : ∀ source,
    rootString doc' (.alias source) = some id ↔ rootString doc (.alias source) = some id) :
    observationSources doc' id = observationSources doc id := by
  have hnodup (d : Document) : (aliasSources d id).Nodup := (List.nodup_dedup _).filter _
  have halias : (aliasSources doc' id).Perm (aliasSources doc id) :=
    (List.perm_ext_iff_of_nodup (hnodup _) (hnodup _)).2 fun source => by
      rw [mem_aliasSources, mem_aliasSources, h]
  have hperm : (observationSources doc' id).Perm (observationSources doc id) :=
    (List.perm_insertionSort _ _).trans
      ((halias.cons id).trans (List.perm_insertionSort _ _).symm)
  exact hperm.eq_of_pairwise' (List.pairwise_insertionSort _ _) (List.pairwise_insertionSort _ _)

theorem mem_observationPrefixes {source discriminator : Bytes} :
    discriminator ∈ observationPrefixes doc source ↔
      ∃ field, doc.history.shown (.observation source discriminator field) ≠ [] := by
  rw [observationPrefixes, mem_asSet, List.mem_filterMap]
  constructor
  · rintro ⟨key, hkey, hdisc⟩
    rcases key with _ | _ | _ | _ | ⟨holder, held, field⟩ | _ | _ | _ <;>
      simp only [Key.discriminator?, reduceCtorEq, Option.ite_none_right_eq_some,
        Option.some.injEq] at hdisc
    obtain ⟨rfl, rfl⟩ := hdisc
    exact ⟨field, RootMap.mem_keys.1 hkey⟩
  · rintro ⟨field, hshown⟩
    exact ⟨_, RootMap.mem_keys.2 hshown, if_pos rfl⟩

theorem observationPrefixes_congr {source : Bytes}
    (h : ∀ discriminator field, doc'.history.shown (.observation source discriminator field) =
      doc.history.shown (.observation source discriminator field)) :
    observationPrefixes doc' source = observationPrefixes doc source := by
  have hmem (d : Document) (disc : Bytes) :
      disc ∈ d.keys.filterMap (Key.discriminator? source) ↔
        disc ∈ observationPrefixes d source := by
    rw [observationPrefixes, mem_asSet]
  refine asSet_congr fun discriminator => ?_
  rw [hmem, hmem, mem_observationPrefixes, mem_observationPrefixes]
  simp only [h]

theorem mem_prefixes {source discriminator : Bytes} :
    (source, discriminator) ∈ prefixes doc id ↔
      source ∈ observationSources doc id ∧ discriminator ∈ observationPrefixes doc source := by
  simp only [prefixes, List.mem_flatMap, List.mem_map, Prod.mk.injEq]
  constructor
  · rintro ⟨s, hs, d, hd, rfl, rfl⟩
    exact ⟨hs, hd⟩
  · rintro ⟨hs, hd⟩
    exact ⟨_, hs, _, hd, rfl, rfl⟩

/-! ## Observations -/

/-- A copy is whole and present. -/
def Complete (doc : Document) (copy : Bytes × Bytes) : Prop :=
  (storedObservation doc copy.1 copy.2).isSome

instance (doc : Document) : DecidablePred (Complete doc) :=
  fun copy => inferInstanceAs (Decidable ((storedObservation doc copy.1 copy.2).isSome = true))

theorem present_of_observationOf {read : ObservationField → Option Bytes} {o : Observation}
    (h : observationOf read = some o) : read .present = some (utf8 "true") := by
  rw [observationOf] at h
  split_ifs at h with hpresent
  exact not_not.1 hpresent

/-- A whole copy has its prefix listed. -/
theorem mem_observationPrefixes_of_complete {source discriminator : Bytes}
    (h : Complete doc (source, discriminator)) :
    discriminator ∈ observationPrefixes doc source := by
  refine mem_observationPrefixes.2 ⟨.present, fun hnil => ?_⟩
  obtain ⟨o, ho⟩ := Option.isSome_iff_exists.1 h
  have hpresent := present_of_observationOf ho
  rw [rootString_of_shown_eq_nil hnil] at hpresent
  exact (nomatch hpresent)

theorem storedObservation_congr {source discriminator : Bytes}
    (h : ∀ field, doc'.history.shown (.observation source discriminator field) =
      doc.history.shown (.observation source discriminator field)) :
    storedObservation doc' source discriminator = storedObservation doc source discriminator := by
  have hread (field : ObservationField) :
      rootString doc' (.observation source discriminator field) =
        rootString doc (.observation source discriminator field) :=
    rootString_congr (h field)
  simp only [storedObservation, hread]

theorem listed_congr {seen : List Bytes} {copies : List (Bytes × Bytes)}
    (h : ∀ copy ∈ copies,
      storedObservation doc' copy.1 copy.2 = storedObservation doc copy.1 copy.2) :
    listed doc' seen copies = listed doc seen copies := by
  induction copies generalizing seen with
  | nil => rfl
  | cons copy rest ih =>
    obtain ⟨hcopy, hrest⟩ := List.forall_mem_cons.1 h
    rw [listed, listed, ih hrest, ih hrest, hcopy]

/-- A contact lists the same where its sources and what is stored under them are the same. -/
theorem observations_congr (hsources : observationSources doc' id = observationSources doc id)
    (h : ∀ source ∈ observationSources doc id, ∀ discriminator field,
      doc'.history.shown (.observation source discriminator field) =
        doc.history.shown (.observation source discriminator field)) :
    observations doc' id = observations doc id := by
  have hprefixes : prefixes doc' id = prefixes doc id := by
    rw [prefixes, prefixes, hsources]
    refine List.flatMap_congr fun source hsource => ?_
    rw [observationPrefixes_congr (h source hsource)]
  rw [observations, observations, hprefixes, listed_congr]
  rintro ⟨source, discriminator⟩ hcopy
  exact storedObservation_congr (h source (mem_prefixes.1 hcopy).1 discriminator)

/-! ## Preferences -/

theorem mem_preferredUnder {source name value : Bytes} :
    (name, value) ∈ preferredUnder doc source ↔
      rootString doc (.preferred source name) = some value := by
  simp only [preferredUnder, List.mem_filterMap, List.mem_dedup, Option.map_eq_some_iff,
    Prod.mk.injEq]
  constructor
  · rintro ⟨n, -, v, hread, rfl, rfl⟩
    exact hread
  · intro hread
    exact ⟨name, ⟨_, mem_keys_of_rootString hread, if_pos rfl⟩, value, hread, rfl, rfl⟩

/-- A name is preferred once under each source. -/
theorem lookup_preferredUnder (doc : Document) (source name : Bytes) :
    (preferredUnder doc source).reverse.lookup name = rootString doc (.preferred source name) := by
  rcases hlookup : (preferredUnder doc source).reverse.lookup name with _ | value
  · rcases hread : rootString doc (.preferred source name) with _ | value
    · rfl
    · rw [List.lookup_eq_none_iff] at hlookup
      have hmem := mem_preferredUnder.2 hread
      have hne := hlookup _ (List.mem_reverse.2 hmem)
      simp at hne
  · obtain ⟨before, after, heq, -⟩ := List.lookup_eq_some_iff.1 hlookup
    have hmem : (name, value) ∈ preferredUnder doc source := by
      rw [← List.mem_reverse, heq]
      exact List.mem_append_right _ List.mem_cons_self
    exact (mem_preferredUnder.1 hmem).symm

theorem lookup_append {α β : Type} [BEq α] (l l' : List (α × β)) (a : α) :
    (l ++ l').lookup a = (l.lookup a).or (l'.lookup a) := by
  induction l with
  | nil => rfl
  | cons p l ih =>
    rw [List.cons_append, List.lookup_cons, List.lookup_cons]
    split
    · rfl
    · exact ih

theorem lookup_flatMap {α β γ : Type} [BEq α] (l : List γ) (g : γ → List (α × β)) (a : α) :
    (l.flatMap g).lookup a = l.findSome? fun c => (g c).lookup a := by
  induction l with
  | nil => rfl
  | cons c l ih =>
    rw [List.flatMap_cons, lookup_append, ih, List.findSome?_cons]
    rcases (g c).lookup a with _ | b
    · rfl
    · rfl

/-- The contacts merged into one, the last one first. -/
def mergedSources (doc : Document) (id : Bytes) : List Bytes :=
  ((observationSources doc id).filter (· ≠ id)).reverse

/-- The contact's own preference goes before those of its sources, and of these the last one
counts. -/
theorem storedPreference_eq (doc : Document) (id name : Bytes) : storedPreference doc id name =
    (rootString doc (.preferred id name)).or
      ((mergedSources doc id).findSome? fun source => rootString doc (.preferred source name)) := by
  rw [storedPreference, preferences, List.reverse_append, lookup_append, lookup_preferredUnder,
    List.reverse_flatMap, lookup_flatMap, mergedSources]
  simp only [Function.comp, lookup_preferredUnder]

theorem mem_preferences {name value : Bytes} : (name, value) ∈ preferences doc id ↔
    ∃ source ∈ observationSources doc id, rootString doc (.preferred source name) = some value := by
  simp only [preferences, List.mem_append, List.mem_flatMap, List.mem_filter, decide_eq_true_iff,
    mem_preferredUnder]
  constructor
  · rintro (⟨source, ⟨hsource, -⟩, hread⟩ | hread)
    · exact ⟨source, hsource, hread⟩
    · exact ⟨id, self_mem_observationSources doc id, hread⟩
  · rintro ⟨source, hsource, hread⟩
    by_cases hself : source = id
    · exact .inr (hself ▸ hread)
    · exact .inl ⟨source, ⟨hsource, hself⟩, hread⟩

theorem mem_preferredValues {name value : Bytes} : (name, value) ∈ preferredValues doc id ↔
    storedPreference doc id name = some value ∧
      ∃ o ∈ observations doc id, o.name = name ∧ o.value = value := by
  simp only [preferredValues, List.mem_filter, List.mem_filterMap, mem_asSet, decide_eq_true_iff,
    Option.map_eq_some_iff, Prod.mk.injEq]
  constructor
  · rintro ⟨⟨n, -, v, hstored, rfl, rfl⟩, hobserved⟩
    exact ⟨hstored, hobserved⟩
  · rintro ⟨hstored, hobserved⟩
    refine ⟨⟨name, ?_, value, hstored, rfl, rfl⟩, hobserved⟩
    obtain ⟨before, after, heq, -⟩ := List.lookup_eq_some_iff.1 hstored
    have hmem : (name, value) ∈ preferences doc id := by
      rw [← List.mem_reverse, heq]
      exact List.mem_append_right _ List.mem_cons_self
    exact List.mem_map.2 ⟨_, hmem, rfl⟩

theorem findSome?_congr {α β : Type} {l : List α} {g g' : α → Option β}
    (h : ∀ a ∈ l, g a = g' a) : l.findSome? g = l.findSome? g' := by
  induction l with
  | nil => rfl
  | cons a l ih =>
    obtain ⟨ha, hl⟩ := List.forall_mem_cons.1 h
    rw [List.findSome?_cons, List.findSome?_cons, ha, ih hl]

/-- A contact prefers the same where its sources, what they prefer and its observations are the
same. -/
theorem preferredValues_congr (hsources : observationSources doc' id = observationSources doc id)
    (hread : ∀ source ∈ observationSources doc id, ∀ name,
      rootString doc' (.preferred source name) = rootString doc (.preferred source name))
    (hobserved : observations doc' id = observations doc id) :
    preferredValues doc' id = preferredValues doc id := by
  have hstored (name : Bytes) : storedPreference doc' id name = storedPreference doc id name := by
    rw [storedPreference_eq, storedPreference_eq, hread id (self_mem_observationSources doc id),
      mergedSources, mergedSources, hsources]
    have hmerged : ∀ source ∈ ((observationSources doc id).filter (· ≠ id)).reverse,
        rootString doc' (.preferred source name) = rootString doc (.preferred source name) :=
      fun source hsource => hread source (List.mem_filter.1 (List.mem_reverse.1 hsource)).1 name
    rw [findSome?_congr hmerged]
  have hnames : asSet ((preferences doc' id).map Prod.fst) =
      asSet ((preferences doc id).map Prod.fst) := by
    refine asSet_congr fun name => ?_
    simp only [List.mem_map, Prod.exists, mem_preferences, hsources, exists_and_right,
      exists_eq_right]
    refine exists_congr fun value => exists_congr fun source => and_congr_right fun hsource => ?_
    rw [hread source hsource]
  rw [preferredValues, preferredValues, hnames, hobserved]
  simp only [hstored]

/-! ## The whole of a contact -/

theorem contact_congr {f : Foreign} (h : ∀ field,
    doc'.history.shown (.contact id field) = doc.history.shown (.contact id field)) :
    contact f doc' id = contact f doc id := by
  have hread (field : ContactField) : rootString doc' (.contact id field) =
      rootString doc (.contact id field) :=
    rootString_congr (h field)
  have hretained : retainedIdentityAt f doc' id = retainedIdentityAt f doc id := by
    rw [retainedIdentityAt, retainedIdentityAt, allRootBytes_congr (h .retainedIdentity)]
  simp only [contact, hread, hretained]

/-- A contact reads the same where its keys and those of its sources show the same. -/
theorem card_congr {f : Foreign} (hcontact : ∀ field,
      doc'.history.shown (.contact id field) = doc.history.shown (.contact id field))
    (hsources : observationSources doc' id = observationSources doc id)
    (hobservation : ∀ source ∈ observationSources doc id, ∀ discriminator field,
      doc'.history.shown (.observation source discriminator field) =
        doc.history.shown (.observation source discriminator field))
    (hpreferred : ∀ source ∈ observationSources doc id, ∀ name,
      doc'.history.shown (.preferred source name) = doc.history.shown (.preferred source name)) :
    card f doc' id = card f doc id := by
  have hobserved := observations_congr hsources hobservation
  rw [card, card, contact_congr hcontact, hobserved, preferredValues_congr hsources
    (fun source hsource name => rootString_congr (hpreferred source hsource name)) hobserved]

/-! ## The order of the sources -/

/-- The copies that are read: the first one of each discriminator that was not seen. -/
def firstCopies (seen : List Bytes) : List (Bytes × Bytes) → List (Bytes × Bytes)
  | [] => []
  | copy :: rest =>
    if copy.2 ∈ seen then firstCopies seen rest else copy :: firstCopies (copy.2 :: seen) rest

theorem listed_eq (doc : Document) (seen : List Bytes) (copies : List (Bytes × Bytes)) :
    listed doc seen copies =
      (firstCopies seen copies).filterMap fun copy => storedObservation doc copy.1 copy.2 := by
  induction copies generalizing seen with
  | nil => rfl
  | cons copy rest ih =>
    rw [listed, firstCopies]
    split_ifs
    · exact ih seen
    · rw [ih, List.filterMap_cons]
      rcases storedObservation doc copy.1 copy.2 with _ | o
      · rfl
      · rfl

theorem not_mem_seen {seen : List Bytes} {copies : List (Bytes × Bytes)} {copy : Bytes × Bytes}
    (h : copy ∈ firstCopies seen copies) : copy.2 ∉ seen := by
  induction copies generalizing seen with
  | nil => exact absurd h List.not_mem_nil
  | cons head rest ih =>
    rw [firstCopies] at h
    split_ifs at h with hseen
    · exact ih h
    · rcases List.mem_cons.1 h with rfl | h
      · exact hseen
      · exact fun hmem => ih h (List.mem_cons_of_mem _ hmem)

theorem nodup_firstCopies (seen : List Bytes) (copies : List (Bytes × Bytes)) :
    ((firstCopies seen copies).map Prod.snd).Nodup := by
  induction copies generalizing seen with
  | nil => exact List.nodup_nil
  | cons copy rest ih =>
    rw [firstCopies]
    split_ifs
    · exact ih seen
    · refine List.nodup_cons.2 ⟨fun hmem => ?_, ih _⟩
      obtain ⟨later, hlater, heq⟩ := List.mem_map.1 hmem
      exact not_mem_seen hlater (heq ▸ List.mem_cons_self)

/-- What is found first for a discriminator is what is read of it. -/
theorem mem_firstCopies {seen : List Bytes} {copies : List (Bytes × Bytes)}
    {copy : Bytes × Bytes} : copy ∈ firstCopies seen copies ↔
      copy.2 ∉ seen ∧ copies.find? (fun c => c.2 = copy.2) = some copy := by
  induction copies generalizing seen with
  | nil => simp [firstCopies]
  | cons head rest ih =>
    rw [firstCopies, List.find?_cons]
    by_cases hsame : head.2 = copy.2
    · simp only [hsame, decide_true]
      split_ifs with hseen
      · refine iff_of_false (fun hmem => ?_) fun h => h.1 hseen
        exact not_mem_seen hmem hseen
      · rw [List.mem_cons]
        constructor
        · rintro (rfl | hmem)
          · exact ⟨hseen, rfl⟩
          · exact absurd List.mem_cons_self (not_mem_seen hmem)
        · rintro ⟨-, heq⟩
          exact .inl (Option.some.inj heq).symm
    · simp only [hsame, decide_false]
      split_ifs with hseen
      · exact ih
      · rw [List.mem_cons, ih, List.mem_cons, not_or]
        constructor
        · rintro (rfl | ⟨⟨-, hnot⟩, hfind⟩)
          · exact absurd rfl hsame
          · exact ⟨hnot, hfind⟩
        · rintro ⟨hnot, hfind⟩
          exact .inr ⟨⟨fun heq => hsame heq.symm, hnot⟩, hfind⟩

/-- Every complete observation of the contact is in the list once, and nothing else: of the
complete copies of each discriminator the list has one. -/
def ListsComplete (doc : Document) (id : Bytes) (out : List Observation) : Prop :=
  ∃ chosen : List ((Bytes × Bytes) × Observation),
    (chosen.map Prod.snd).Perm out ∧
    (chosen.map fun c => c.1.2).Nodup ∧
    (∀ c ∈ chosen, c.1 ∈ prefixes doc id ∧ storedObservation doc c.1.1 c.1.2 = some c.2) ∧
    ∀ copy ∈ prefixes doc id, Complete doc copy → copy.2 ∈ chosen.map fun c => c.1.2

/-- The copies that are read and complete, with what they say. -/
def readCopies (doc : Document) (id : Bytes) : List ((Bytes × Bytes) × Observation) :=
  (firstCopies [] (prefixes doc id)).filterMap fun copy =>
    (storedObservation doc copy.1 copy.2).map fun o => (copy, o)

theorem mem_readCopies {c : (Bytes × Bytes) × Observation} : c ∈ readCopies doc id ↔
    (prefixes doc id).find? (fun copy => copy.2 = c.1.2) = some c.1 ∧
      storedObservation doc c.1.1 c.1.2 = some c.2 := by
  simp only [readCopies, List.mem_filterMap, Option.map_eq_some_iff, mem_firstCopies]
  constructor
  · rintro ⟨copy, ⟨-, hfind⟩, o, ho, rfl⟩
    exact ⟨hfind, ho⟩
  · rintro ⟨hfind, ho⟩
    exact ⟨c.1, ⟨List.not_mem_nil, hfind⟩, c.2, ho, rfl⟩

theorem observations_perm (doc : Document) (id : Bytes) :
    ((readCopies doc id).map Prod.snd).Perm (observations doc id) := by
  have hmap : (readCopies doc id).map Prod.snd = listed doc [] (prefixes doc id) := by
    rw [readCopies, listed_eq, List.map_filterMap]
    refine List.filterMap_congr fun copy _ => ?_
    rw [Option.map_map]
    exact Option.map_id'
  rw [hmap]
  exact (List.perm_insertionSort _ _).symm

theorem nodup_readCopies (doc : Document) (id : Bytes) :
    ((readCopies doc id).map fun c => c.1.2).Nodup := by
  rw [readCopies, List.Nodup, List.pairwise_map, List.pairwise_filterMap]
  refine (List.pairwise_map.1 (nodup_firstCopies [] (prefixes doc id))).imp ?_
  rintro copy copy' hne c hc c' hc'
  obtain ⟨o, -, rfl⟩ := Option.map_eq_some_iff.1 hc
  obtain ⟨o', -, rfl⟩ := Option.map_eq_some_iff.1 hc'
  exact hne

/-- For each discriminator the first copy is complete, or none is. -/
def FirstDecides (doc : Document) (id : Bytes) : Prop :=
  ∀ copy ∈ prefixes doc id, Complete doc copy → ∀ first,
    (prefixes doc id).find? (fun c => c.2 = copy.2) = some first → Complete doc first

theorem exists_first {copies : List (Bytes × Bytes)} {copy : Bytes × Bytes} (h : copy ∈ copies) :
    ∃ first, copies.find? (fun c => c.2 = copy.2) = some first ∧ first.2 = copy.2 := by
  have hfound : (copies.find? fun c => c.2 = copy.2).isSome :=
    List.find?_isSome.2 ⟨copy, h, decide_eq_true rfl⟩
  obtain ⟨first, hfirst⟩ := Option.isSome_iff_exists.1 hfound
  have hsame := List.find?_some hfirst
  exact ⟨first, hfirst, by simpa using hsame⟩

/-- The copies that are read are all there is, unless one that is not complete comes first. -/
theorem listsComplete_of_firstDecides (h : FirstDecides doc id) :
    ListsComplete doc id (observations doc id) := by
  refine ⟨readCopies doc id, observations_perm doc id, nodup_readCopies doc id, fun c hc => ?_,
    fun copy hcopy hcomplete => ?_⟩
  · obtain ⟨hfind, ho⟩ := mem_readCopies.1 hc
    exact ⟨List.mem_of_find?_eq_some hfind, ho⟩
  · obtain ⟨first, hfirst, hsame⟩ := exists_first hcopy
    obtain ⟨o, ho⟩ := Option.isSome_iff_exists.1 (h copy hcopy hcomplete first hfirst)
    refine List.mem_map.2 ⟨(first, o), mem_readCopies.2 ⟨?_, ho⟩, hsame⟩
    dsimp only
    rw [hsame]
    exact hfirst

/-- A list of all complete observations is no longer than what is read only if the first copies
decide. -/
theorem firstDecides_of_listsComplete (h : ListsComplete doc id (observations doc id)) :
    FirstDecides doc id := by
  obtain ⟨chosen, hperm, hnodup, -, hall⟩ := h
  intro copy hcopy hcomplete first hfirst
  -- the discriminators of what is read are among those chosen, and as many
  have hsub : ((readCopies doc id).map fun c => c.1.2).Subperm (chosen.map fun c => c.1.2) := by
    refine (nodup_readCopies doc id).subperm fun discriminator hmem => ?_
    obtain ⟨c, hc, rfl⟩ := List.mem_map.1 hmem
    obtain ⟨hfind, ho⟩ := mem_readCopies.1 hc
    exact hall c.1 (List.mem_of_find?_eq_some hfind) (Option.isSome_iff_exists.2 ⟨c.2, ho⟩)
  have hlength : (chosen.map fun c => c.1.2).length ≤
      ((readCopies doc id).map fun c => c.1.2).length := by
    have hread := (observations_perm doc id).length_eq
    have hchosen := hperm.length_eq
    simp only [List.length_map] at hread hchosen ⊢
    omega
  have hmem : copy.2 ∈ (readCopies doc id).map fun c => c.1.2 :=
    (hsub.perm_of_length_le hlength).mem_iff.2 (hall copy hcopy hcomplete)
  obtain ⟨c, hc, heq⟩ := List.mem_map.1 hmem
  obtain ⟨hfind, ho⟩ := mem_readCopies.1 hc
  rw [heq, hfirst] at hfind
  rw [Option.some.inj hfind]
  exact Option.isSome_iff_exists.2 ⟨c.2, ho⟩

/-- The observations of a contact are exactly its complete ones when, of every discriminator that
has a complete copy, the first copy is complete, and only then. -/
theorem observations_complete_iff (doc : Document) (id : Bytes) :
    ListsComplete doc id (observations doc id) ↔ FirstDecides doc id :=
  ⟨firstDecides_of_listsComplete, listsComplete_of_firstDecides⟩

/-! ## A copy that is not complete comes first

Two contacts hold the same observation. One replica removes it from the first contact while another
writes it there again, received later. After both are merged the first contact still holds the time
of receipt and nothing else, and it is then merged into the second one. -/

/-- A digest by reduction, whose first half depends on the whole input. -/
def hashingForeign : Foreign :=
  { exampleForeign with
    sha := fun bytes => BitVec.ofNat 256 (BigEndian.ofBytes bytes % (2 ^ 127 - 1) * 2 ^ 128) }

def firstId : Bytes := localId hashingForeign (utf8 "polyvisor:local-contact:v0\x00") 1 [1]

def secondId : Bytes := localId hashingForeign (utf8 "polyvisor:local-contact:v0\x00") 2 [1]

def heldObservation : Observation where
  name := [110]
  value := [118]
  provenance := .local
  issuer := none
  claimed := none
  received := 1
  meeting := localId hashingForeign (utf8 "polyvisor:meeting:v0\x00") 3 [1]

/-- Both contacts, and the observation under each. -/
def sharedEdits : List Edit :=
  [.createContact none [] [] 1, .createContact (some 5) [] [] 2,
    .createMeeting [] [] none 1 false 3, .writeObservation firstId heldObservation,
    .writeObservation secondId heldObservation]

/-- The document after the edits, if all succeed. -/
def edited (f : Foreign) (doc : Document) (edits : List Edit) : Except String Document :=
  edits.foldlM (edit f) doc

theorem reachable_edited {f : Foreign} {edits : List Edit} {doc doc' : Document}
    (hdoc : Reachable f doc) (h : edited f doc edits = .ok doc') : Reachable f doc' := by
  induction edits generalizing doc with
  | nil =>
    obtain rfl := Except.ok.inj h
    exact hdoc
  | cons e rest ih =>
    rw [edited, List.foldlM_cons] at h
    obtain ⟨next, hnext, h⟩ := of_bind h
    exact ih (hdoc.edit e hnext) h

/-- The two replicas, merged, and then the contacts. -/
def shadowed : Except String Document := do
  let shared ← edited hashingForeign (.empty [1]) sharedEdits
  let left ← edited hashingForeign { shared with actor := [2] }
    [.removeObservation firstId [110] [118]]
  let right ← edited hashingForeign { shared with actor := [3] }
    [.writeObservation firstId { heldObservation with received := 2 }]
  edited hashingForeign (left.mergeSnapshot right) [.merge firstId secondId]

theorem reachable_of_shadowed {doc : Document} (h : shadowed = .ok doc) :
    Reachable hashingForeign doc := by
  rw [shadowed] at h
  obtain ⟨shared, hshared, h⟩ := of_bind h
  obtain ⟨left, hleft, h⟩ := of_bind h
  obtain ⟨right, hright, h⟩ := of_bind h
  have hreachable := reachable_edited (.empty [1]) hshared
  exact reachable_edited ((reachable_edited (hreachable.load [2]) hleft).merge
    (reachable_edited (hreachable.load [3]) hright)) h

def shadowedCopy : Bytes × Bytes :=
  (secondId, observationDiscriminator hashingForeign heldObservation)

/-- The second contact holds a complete observation and lists none. -/
theorem complete_copy_is_hidden : ∃ doc, Reachable hashingForeign doc ∧
    shadowedCopy ∈ prefixes doc secondId ∧ Complete doc shadowedCopy ∧
    (observations doc secondId).length = 0 ∧
    ¬ ListsComplete doc secondId (observations doc secondId) := by
  have hrun : shadowed.toOption.any (fun doc => shadowedCopy ∈ prefixes doc secondId ∧
      Complete doc shadowedCopy ∧ (observations doc secondId).length = 0) = true := by
    decide +kernel
  rcases hshadowed : shadowed with e | doc
  · rw [hshadowed] at hrun
    exact Bool.noConfusion hrun
  rw [hshadowed] at hrun
  obtain ⟨hmem, hcomplete, hlength⟩ := of_decide_eq_true hrun
  refine ⟨doc, reachable_of_shadowed hshadowed, hmem, hcomplete, hlength, ?_⟩
  rintro ⟨chosen, hperm, -, -, hall⟩
  have hnil : chosen = [] := by
    have hchosen := hperm.length_eq
    rw [List.length_map, hlength] at hchosen
    exact List.length_eq_zero_iff.1 hchosen
  have hchosen := hall shadowedCopy hmem hcomplete
  rw [hnil] at hchosen
  exact List.not_mem_nil hchosen

end Polyvisor.Contacts
