import Polyvisor.Contacts.Document

/-!
# Observations, aliases and preferences

The rest of `contacts-model/src/lib.rs` about one contact: what is listed for it, from its own keys
and from those of the contacts merged into it, and the operations that edit these.
-/

namespace Polyvisor.Contacts

/-! ## The keys of a contact -/

/-- The source in a key `alias:<source>`. -/
def Key.aliasSource? : Key → Option Bytes
  | .alias source => some source
  | _ => none

/-- The discriminator in a key `observation:<id>:<discriminator>:<field>`. -/
def Key.discriminator? (id : Bytes) : Key → Option Bytes
  | .observation holder discriminator _ => if holder = id then some discriminator else none
  | _ => none

/-- The name in a key `preferred:<id>:<name>`. -/
def Key.preferredName? (id : Bytes) : Key → Option Bytes
  | .preferred holder name => if holder = id then some name else none
  | _ => none

/-- The key starts with `contact:<id>:`. -/
def Key.isOfContact (id : Bytes) : Key → Bool
  | .contact holder _ => holder = id
  | _ => false

/-- The key starts with `observation:<source>:` or `preferred:<source>:`, or is `alias:<source>`. -/
def Key.isOfSource (source : Bytes) : Key → Bool
  | .observation holder _ _ => holder = source
  | .preferred holder _ => holder = source
  | .alias holder => holder = source
  | _ => false

/-- `OBS_FIELDS`. -/
def obsFields : List ObservationField :=
  [.name, .value, .provenance, .issuer, .claimedSeconds, .claimedNanos, .received, .meeting,
    .present]

/-! ## What is listed -/

/-- The keys of the loop in `observation_sources`. -/
def aliasSources (doc : Document) (id : Bytes) : List Bytes :=
  (doc.keys.filterMap Key.aliasSource?).dedup.filter fun source =>
    rootString doc (.alias source) = some id

/-- `observation_sources`. -/
def observationSources (doc : Document) (id : Bytes) : List Bytes :=
  (id :: aliasSources doc id).insertionSort (· ≤ ·)

/-- `observation_prefixes`: the discriminators in them. -/
def observationPrefixes (doc : Document) (id : Bytes) : List Bytes :=
  asSet (doc.keys.filterMap (Key.discriminator? id))

/-- `str::parse::<u32>`. -/
def parseU32 (text : Bytes) : Option ℕ :=
  (parseU64 text).filter fun n => n < 2 ^ 32

/-- `str::parse::<i64>`. -/
def parseI64 : Bytes → Option ℤ
  | 45 :: digits =>
    if digits.head? = some 43 then none
    else (parseU64 digits).bind fun n => if n ≤ 2 ^ 63 then some (-n) else none
  | text => (parseU64 text).bind fun n => if n < 2 ^ 63 then some (n : ℤ) else none

def Provenance.ofText (text : Bytes) : Option Provenance :=
  [Provenance.local, .imported, .verified].find? fun p => p.text = text

/-- The time in `observations`. -/
def storedTime (seconds nanos : Option Bytes) : Option ClaimedTime := do
  let seconds ← seconds.filter fun s => s ≠ []
  return ⟨← parseI64 seconds, ← parseU32 (← nanos)⟩

/-- The observation that the fields under a prefix spell, if it is whole and present. -/
def observationOf (read : ObservationField → Option Bytes) : Option Observation :=
  if read .present ≠ some (utf8 "true") then none
  else do
    let provenance ← Provenance.ofText (← read .provenance)
    return {
      name := ← read .name
      value := ← read .value
      provenance
      issuer := storedKey (read .issuer)
      claimed := storedTime (read .claimedSeconds) (read .claimedNanos)
      received := ((read .received).bind parseU64).getD 0
      meeting := (read .meeting).getD [] }

/-- What `observations` reads under one prefix. -/
def storedObservation (doc : Document) (source discriminator : Bytes) : Option Observation :=
  observationOf fun field => rootString doc (.observation source discriminator field)

/-- The prefixes that `observations` goes through, as source and discriminator. -/
def prefixes (doc : Document) (id : Bytes) : List (Bytes × Bytes) :=
  (observationSources doc id).flatMap fun source =>
    (observationPrefixes doc source).map fun discriminator => (source, discriminator)

/-- The loop of `observations`, with the discriminators it has seen. -/
def listed (doc : Document) (seen : List Bytes) : List (Bytes × Bytes) → List Observation
  | [] => []
  | (source, discriminator) :: rest =>
    if discriminator ∈ seen then listed doc seen rest
    else
      -- seen before it is read, whether it is whole or not
      (storedObservation doc source discriminator).toList ++
        listed doc (discriminator :: seen) rest

/-- `observations`. -/
def observations (doc : Document) (id : Bytes) : List Observation :=
  (listed doc [] (prefixes doc id)).insertionSort fun a b =>
    a.name < b.name ∨ a.name = b.name ∧ a.value ≤ b.value

/-- What is preferred under one source, by name. -/
def preferredUnder (doc : Document) (source : Bytes) : List (Bytes × Bytes) :=
  (doc.keys.filterMap (Key.preferredName? source)).dedup.filterMap fun name =>
    (rootString doc (.preferred source name)).map fun value => (name, value)

/-- The insertions of `preferred_values` in their order: the contact's own come last. -/
def preferences (doc : Document) (id : Bytes) : List (Bytes × Bytes) :=
  ((observationSources doc id).filter (· ≠ id)).flatMap (preferredUnder doc) ++
    preferredUnder doc id

/-- The value that a name has after all insertions. -/
def storedPreference (doc : Document) (id name : Bytes) : Option Bytes :=
  (preferences doc id).reverse.lookup name

/-- `preferred_values`. -/
def preferredValues (doc : Document) (id : Bytes) : List (Bytes × Bytes) :=
  ((asSet ((preferences doc id).map Prod.fst)).filterMap fun name =>
    (storedPreference doc id name).map fun value => (name, value)).filter fun p =>
      ∃ o ∈ observations doc id, o.name = p.1 ∧ o.value = p.2

/-- `Contact`, with its observations and what is preferred among them. -/
structure Card (f : Foreign) where
  contact : Contact f
  observations : List Observation
  preferred : List (Bytes × Bytes)

/-- `contact`. -/
def card (f : Foreign) (doc : Document) (id : Bytes) : Option (Card f) :=
  (contact f doc id).map fun c => ⟨c, observations doc id, preferredValues doc id⟩

/-! ## What is edited -/

/-- `remove_observation`. -/
def removeObservation (doc : Document) (id name value : Bytes) : Document :=
  let found := (prefixes doc id).filter fun p =>
    rootString doc (.observation p.1 p.2 .name) = some name ∧
      rootString doc (.observation p.1 p.2 .value) = some value
  let preferred := (observationSources doc id).filter fun source =>
    rootString doc (.preferred source name) = some value
  (doc.deleteAll (found.flatMap fun p => obsFields.map (.observation p.1 p.2))).deleteAll
    (preferred.map fun source => .preferred source name)

/-- `set_preferred`. -/
def setPreferred (f : Foreign) (doc : Document) (id name : Bytes) (value : Option Bytes) :
    Except String Document := do
  requireContact f doc id
  match value with
  | some wanted =>
    check (∃ o ∈ observations doc id, o.name = name ∧ o.value = wanted)
      "preferred value is not an observation"
    return doc.put (.preferred id name) (.text wanted)
  | none =>
    let held := (observationSources doc id).filter fun source =>
      (rootString doc (.preferred source name)).isSome
    return doc.deleteAll (held.map fun source => .preferred source name)

/-- `set_label`. -/
def setLabel (f : Foreign) (doc : Document) (id petname glyph : Bytes) :
    Except String Document := do
  requireContact f doc id
  return doc.putAll [(.contact id .petname, .text petname), (.contact id .glyph, .text glyph)]

/-- The keys that `delete_contact` removes. -/
def keysOfContact (doc : Document) (id : Bytes) : List Key :=
  doc.keys.filter fun key =>
    key.isOfContact id ∨ ∃ source ∈ observationSources doc id, key.isOfSource source

/-- `delete_contact`. -/
def deleteContact (f : Foreign) (doc : Document) (id : Bytes) : Except String Document := do
  requireContact f doc id
  return doc.deleteAll (keysOfContact doc id)

/-- The labels that `merge` fills in. -/
def mergeLabels (f : Foreign) (doc : Document) (source target : Contact f) :
    Except String Document :=
  if target.petname = [] ∨ target.glyph = [] then
    setLabel f doc target.id (if target.petname = [] then source.petname else target.petname)
      (if target.glyph = [] then source.glyph else target.glyph)
  else .ok doc

/-- `merge`. -/
def merge (f : Foreign) (doc : Document) (keyless into : Bytes) : Except String Document :=
  match contact f doc keyless, contact f doc into with
  | none, _ => .error "no such keyless contact"
  | some _, none => .error "no such keyed contact"
  | some source, some target => do
    check (¬ (source.publicKey.isSome ∨ target.publicKey.isNone))
      "contacts can only merge keyless into keyed"
    let doc ← mergeLabels f (doc.put (.alias keyless) (.text into)) source target
    return doc.deleteAll (doc.keys.filter fun key => key.isOfContact keyless)

/-! ## Local operations -/

/-- An operation on one contacts document. -/
inductive Edit where
  | createContact (publicKey : Option Bytes32) (petname glyph : Bytes) (entropy : Bytes32)
  | createMeeting (method source : Bytes) (sourceKey : Option Bytes32) (occurred : ℕ)
    (verified : Bool) (entropy : Bytes32)
  | writeObservation (id : Bytes) (observation : Observation)
  | removeObservation (id name value : Bytes)
  | setPreferred (id name : Bytes) (value : Option Bytes)
  | setLabel (id petname glyph : Bytes)
  | merge (keyless into : Bytes)
  | deleteContact (id : Bytes)

/-- What an operation makes of the document. -/
def edit (f : Foreign) (doc : Document) : Edit → Except String Document
  | .createContact publicKey petname glyph entropy =>
    (createContact f doc publicKey petname glyph entropy).map Prod.fst
  | .createMeeting method source sourceKey occurred verified entropy =>
    .ok (createMeeting f doc method source sourceKey occurred verified entropy).1
  | .writeObservation id observation => writeObservation f doc id observation
  | .removeObservation id name value => .ok (removeObservation doc id name value)
  | .setPreferred id name value => setPreferred f doc id name value
  | .setLabel id petname glyph => setLabel f doc id petname glyph
  | .merge keyless into => merge f doc keyless into
  | .deleteContact id => deleteContact f doc id

/-- The documents that local operations and merges of replicas lead to. -/
inductive Reachable (f : Foreign) : Document → Prop where
  | empty (actor : Bytes) : Reachable f (.empty actor)
  /-- `Document::load` of a snapshot under another actor. -/
  | load {doc : Document} (h : Reachable f doc) (actor : Bytes) :
    Reachable f { doc with actor }
  | edit {doc doc' : Document} (h : Reachable f doc) (e : Edit)
    (hedit : edit f doc e = .ok doc') : Reachable f doc'
  | merge {doc source : Document} (h : Reachable f doc) (hsource : Reachable f source) :
    Reachable f (doc.mergeSnapshot source)

end Polyvisor.Contacts
