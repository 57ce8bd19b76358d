import Polyvisor.Contacts.Document
import Mathlib.Algebra.Group.Int.Defs

/-!
# Adopting a visor document

`visor-model/src/lib.rs`: the personalization of a device, and `adopt`, which takes over that of an
established one. The root keys of the document are `identity:hue`, `user:<field>`,
`app:<app>:<field>`, `share:personal:<app>` and others that `adopt` merges and does not write; the
app ids and the fields in them are spelled in hexadecimal digits, which is injective.

## Main results

* `Adopted.user`, `Adopted.apps`, `Adopted.personal`: what is read afterwards is the source's, also
  where both histories hold concurrent values.
* `Adopted.again`: adopting the same source again changes nothing.
* `takesOver_iff`: an app that only the current document shows keeps its fields exactly when the
  source's history does not hide the values they are read from.
-/

namespace Polyvisor.Visor

open Contacts

/-! ## The document -/

/-- A root key. -/
inductive Key where
  /-- `HUE`. -/
  | hue
  /-- `USER_PREFIX` and a field. -/
  | user (field : Bytes)
  /-- `APP_PREFIX`, an app id and a field. -/
  | app (app field : Bytes)
  /-- `PERSONAL_INSTANCE_PREFIX` and an app id. -/
  | personal (app : Bytes)
  | other (name : Bytes)
  deriving DecidableEq

/-- The field of a user key. -/
def Key.user? : Key → Option Bytes
  | .user field => some field
  | _ => none

/-- The app of an app key. -/
def Key.app? : Key → Option Bytes
  | .app id _ => some id
  | _ => none

/-- The field of a key of the app. -/
def Key.fieldOf? (id : Bytes) : Key → Option Bytes
  | .app id' field => if id' = id then some field else none
  | _ => none

/-- The app of a personal binding. -/
def Key.personal? : Key → Option Bytes
  | .personal id => some id
  | _ => none

/-- The visor document. -/
abbrev Document := RootMap Key

/-! ## Personalization -/

/-- A `BTreeMap`, in the order of its keys. -/
abbrev Entries (V : Type) := List (Bytes × V)

/-- `Personalization`. -/
structure Personalization where
  hue : Option ℕ
  user : Entries Bytes
  apps : Entries (Entries Bytes)
  deriving DecidableEq

/-- `Value::to_i64`. -/
def toInt : Value → Option ℤ
  | .int value => some value
  | _ => none

/-- The hue that is read: `u16::try_from`, and an angle. -/
def hue (doc : Document) : Option ℕ := do
  let value ← (doc.history.newest .hue).bind toInt
  if 0 ≤ value ∧ value < 2 ^ 16 ∧ value < 360 then some value.toNat else none

/-- The texts that are read at keys of one family. -/
def entries (doc : Document) (key : Bytes → Key) (names : List Bytes) : Entries Bytes :=
  (asSet names).filterMap fun name => (rootString doc (key name)).map fun value => (name, value)

/-- The fields of an app. -/
def fieldsOf (doc : Document) (app : Bytes) : Entries Bytes :=
  entries doc (.app app) (doc.keys.filterMap (Key.fieldOf? app))

/-- `personalization`. -/
def personalization (doc : Document) : Personalization where
  hue := hue doc
  user := entries doc .user (doc.keys.filterMap Key.user?)
  apps := (asSet (doc.keys.filterMap Key.app?)).filterMap fun app =>
    -- an app is entered with its first field
    if fieldsOf doc app = [] then none else some (app, fieldsOf doc app)

/-- A field of a patch: of an app, or of the user. -/
def fieldKey (app : Option Bytes) (field : Bytes) : Key :=
  match app with
  | some app => .app app field
  | none => .user field

/-- One step of the loop of `set_personalization`. -/
def setField (doc : Document) (key : Key) : Option Bytes → Document
  | some value => doc.put key (.text value)
  | none => doc.delete key

/-- Its loop over the fields. -/
def setFields (doc : Document) (fields : List (Option Bytes × Bytes × Option Bytes)) : Document :=
  fields.foldl (fun doc field => setField doc (fieldKey field.1 field.2.1) field.2.2) doc

/-- What it does to the hue. -/
def setHue (doc : Document) : Option (Option ℕ) → Document
  | none => doc
  | some (some value) => doc.put .hue (.int value)
  | some none => doc.delete .hue

/-- `set_personalization`. -/
def setPersonalization (doc : Document) (hue : Option (Option ℕ))
    (fields : List (Option Bytes × Bytes × Option Bytes)) : Document :=
  setFields (setHue doc hue) fields

/-- `personal_partition`; `fromStr` reads the JSON text of a string. -/
def personalPartition (fromStr : Bytes → Option Bytes) (doc : Document) (app : Bytes) :
    Option Bytes :=
  (rootString doc (.personal app)).bind fromStr

/-! ## Adoption -/

/-- The puts of the personal bindings. -/
def bindPersonal (source : Document) : List Bytes → Document → Except String Document
  | [], doc => .ok doc
  | app :: rest, doc =>
    match rootString source (.personal app) with
    | none => .error "the established personal binding is malformed"
    | some value => bindPersonal source rest (doc.put (.personal app) (.text value))

/-- The patch of the user fields. -/
def userFields (before wanted : Personalization) : List (Option Bytes × Bytes × Option Bytes) :=
  (asSet (before.user.map Prod.fst ++ wanted.user.map Prod.fst)).map fun key =>
    (none, key, wanted.user.lookup key)

/-- The patch of the app fields. -/
def appFields (before wanted : Personalization) : List (Option Bytes × Bytes × Option Bytes) :=
  (asSet (before.apps.map Prod.fst ++ wanted.apps.map Prod.fst)).flatMap fun app =>
    match wanted.apps.lookup app with
    | none => []
    | some new =>
      let old := (before.apps.lookup app).getD []
      (asSet (old.map Prod.fst ++ new.map Prod.fst)).map fun key =>
        (some app, key, new.lookup key)

/-- The personal bindings that a document lists. -/
def personalApps (doc : Document) : List Bytes :=
  asSet (doc.keys.filterMap Key.personal?)

/-- `adopt`. -/
def adopt (current source : Document) : Except String Document := do
  let wanted := personalization source
  check (wanted.hue.isSome ∧ (wanted.user.lookup (utf8 "petname")).getD [] ≠ [])
    "that device sent incomplete personalization"
  let before := personalization current
  let merged := current.mergeSnapshot source
  let wantedPersonal := personalApps source
  let cleared := merged.deleteAll
    (((personalApps merged).filter (· ∉ wantedPersonal)).map Key.personal)
  let bound ← bindPersonal source wantedPersonal cleared
  return setPersonalization bound (some wanted.hue)
    (userFields before wanted ++ appFields before wanted)

/-! ## What is read -/

/-- A field of the user. -/
def userField (doc : Document) (field : Bytes) : Option Bytes :=
  (personalization doc).user.lookup field

/-- A field of an app. -/
def appField (doc : Document) (app field : Bytes) : Option Bytes :=
  ((personalization doc).apps.lookup app).bind fun fields => fields.lookup field

/-- The app has a field. -/
def Shows (doc : Document) (app : Bytes) : Prop :=
  ∃ field, (appField doc app field).isSome

variable {doc doc' current source adopted : Document}

theorem lookup_filterMap {V : Type} {names : List Bytes} {g : Bytes → Option V} {name : Bytes}
    (h : (g name).isSome → name ∈ names) :
    (names.filterMap fun name => (g name).map fun value => (name, value)).lookup name =
      g name := by
  induction names with
  | nil =>
    rcases hname : g name with _ | value
    · rfl
    · exact absurd (h (by rw [hname]; rfl)) List.not_mem_nil
  | cons head rest ih =>
    rw [List.filterMap_cons]
    by_cases heq : name = head
    · subst heq
      rcases hname : g name with _ | value
      · rw [Option.map_none]
        dsimp only
        rw [ih fun hsome => by rw [hname] at hsome; exact Bool.noConfusion hsome, hname]
      · rw [Option.map_some]
        dsimp only
        rw [List.lookup_cons_self]
    · have hrest := ih fun hsome => (List.mem_cons.1 (h hsome)).resolve_left heq
      rcases g head with _ | value
      · exact hrest
      · rw [Option.map_some]
        dsimp only
        rw [List.lookup_cons, beq_false_of_ne heq]
        exact hrest

section Entries

variable {key : Bytes → Key} {names : List Bytes}
  (hnames : ∀ name, (rootString doc (key name)).isSome → name ∈ names)
include hnames

theorem lookup_entries (name : Bytes) :
    (entries doc key names).lookup name = rootString doc (key name) :=
  lookup_filterMap (g := fun name => rootString doc (key name)) fun hsome =>
    mem_asSet.2 (hnames name hsome)

theorem mem_entries {name : Bytes} :
    name ∈ (entries doc key names).map Prod.fst ↔ (rootString doc (key name)).isSome := by
  rw [entries, List.mem_map]
  constructor
  · rintro ⟨⟨name, value⟩, hmem, rfl⟩
    obtain ⟨name', -, hname⟩ := List.mem_filterMap.1 hmem
    obtain ⟨value', hvalue, heq⟩ := Option.map_eq_some_iff.1 hname
    rw [← (Prod.mk.inj heq).1, hvalue, Option.isSome_some]
  · intro hsome
    obtain ⟨value, hvalue⟩ := Option.isSome_iff_exists.1 hsome
    refine ⟨(name, value), List.mem_filterMap.2 ⟨name, mem_asSet.2 (hnames name hsome), ?_⟩, rfl⟩
    rw [hvalue, Option.map_some]

/-- Entries are known by what is read at their keys. -/
theorem entries_congr {names' : List Bytes}
    (hnames' : ∀ name, (rootString doc' (key name)).isSome → name ∈ names')
    (hread : ∀ name, rootString doc' (key name) = rootString doc (key name)) :
    entries doc' key names' = entries doc key names := by
  have hentry (name : Bytes) : (rootString doc' (key name)).map (fun value => (name, value)) =
      (rootString doc (key name)).map fun value => (name, value) := by
    rw [hread]
  rw [entries, entries]
  simp only [hentry]
  refine filterMap_asSet_congr fun name hsome => ?_
  rw [Option.isSome_map] at hsome
  exact iff_of_true (hnames' name (by rw [hread]; exact hsome)) (hnames name hsome)

end Entries

theorem user_mem_names {field : Bytes} (h : (rootString doc (.user field)).isSome) :
    field ∈ doc.keys.filterMap Key.user? := by
  obtain ⟨value, hvalue⟩ := Option.isSome_iff_exists.1 h
  exact List.mem_filterMap.2 ⟨_, mem_keys_of_rootString hvalue, rfl⟩

theorem field_mem_names {app field : Bytes} (h : (rootString doc (.app app field)).isSome) :
    field ∈ doc.keys.filterMap (Key.fieldOf? app) := by
  obtain ⟨value, hvalue⟩ := Option.isSome_iff_exists.1 h
  exact List.mem_filterMap.2 ⟨_, mem_keys_of_rootString hvalue, if_pos rfl⟩

theorem app_mem_names {app field : Bytes} (h : (rootString doc (.app app field)).isSome) :
    app ∈ doc.keys.filterMap Key.app? := by
  obtain ⟨value, hvalue⟩ := Option.isSome_iff_exists.1 h
  exact List.mem_filterMap.2 ⟨_, mem_keys_of_rootString hvalue, rfl⟩

theorem userField_eq (doc : Document) (field : Bytes) :
    userField doc field = rootString doc (.user field) :=
  lookup_entries (fun _ => user_mem_names) field

theorem mem_user {field : Bytes} : field ∈ (personalization doc).user.map Prod.fst ↔
    (rootString doc (.user field)).isSome :=
  mem_entries fun _ => user_mem_names

theorem lookup_fieldsOf (doc : Document) (app field : Bytes) :
    (fieldsOf doc app).lookup field = rootString doc (.app app field) :=
  lookup_entries (fun _ => field_mem_names) field

theorem mem_fieldsOf {app field : Bytes} :
    field ∈ (fieldsOf doc app).map Prod.fst ↔ (rootString doc (.app app field)).isSome :=
  mem_entries fun _ => field_mem_names

theorem fieldsOf_ne_nil {app : Bytes} :
    fieldsOf doc app ≠ [] ↔ ∃ field, (rootString doc (.app app field)).isSome := by
  constructor
  · intro hne
    obtain ⟨entry, hentry⟩ := List.exists_mem_of_ne_nil _ hne
    exact ⟨entry.1, mem_fieldsOf.1 (List.mem_map_of_mem hentry)⟩
  · rintro ⟨field, hsome⟩ hnil
    have hmem := mem_fieldsOf.2 hsome
    rw [hnil] at hmem
    exact List.not_mem_nil hmem

theorem lookup_apps (doc : Document) (app : Bytes) : (personalization doc).apps.lookup app =
    if fieldsOf doc app = [] then none else some (fieldsOf doc app) := by
  have hentry (name : Bytes) :
      (if fieldsOf doc name = [] then none else some (name, fieldsOf doc name)) =
        (if fieldsOf doc name = [] then none else some (fieldsOf doc name)).map
          fun fields => (name, fields) := by
    split
    · rfl
    · rfl
  rw [personalization]
  simp only [hentry]
  refine lookup_filterMap
    (g := fun name => if fieldsOf doc name = [] then none else some (fieldsOf doc name))
    fun hsome => ?_
  have hne : fieldsOf doc app ≠ [] := fun hnil => by
    rw [if_pos hnil] at hsome
    exact Bool.noConfusion hsome
  obtain ⟨field, hfield⟩ := fieldsOf_ne_nil.1 hne
  exact mem_asSet.2 (app_mem_names hfield)

theorem appField_eq (doc : Document) (app field : Bytes) :
    appField doc app field = rootString doc (.app app field) := by
  rw [appField, lookup_apps]
  split_ifs with hnil
  · rw [← lookup_fieldsOf, hnil]
    rfl
  · exact lookup_fieldsOf doc app field

theorem shows_iff {app : Bytes} : Shows doc app ↔ fieldsOf doc app ≠ [] := by
  rw [fieldsOf_ne_nil, Shows]
  simp only [appField_eq]

/-- The app is entered exactly when it has a field. -/
theorem mem_apps {app : Bytes} :
    app ∈ (personalization doc).apps.map Prod.fst ↔ Shows doc app := by
  rw [shows_iff, personalization, List.mem_map]
  constructor
  · rintro ⟨⟨name, fields⟩, hmem, rfl⟩
    obtain ⟨name', -, hname⟩ := List.mem_filterMap.1 hmem
    split_ifs at hname with hnil
    rw [← (Prod.mk.inj (Option.some.inj hname)).1]
    exact hnil
  · intro hne
    obtain ⟨field, hfield⟩ := fieldsOf_ne_nil.1 hne
    exact ⟨(app, fieldsOf doc app), List.mem_filterMap.2
      ⟨app, mem_asSet.2 (app_mem_names hfield), if_neg hne⟩, rfl⟩

/-- A personalization is known by what is read. -/
theorem personalization_congr (hhue : hue doc' = hue doc)
    (huser : ∀ field, rootString doc' (.user field) = rootString doc (.user field))
    (happs : ∀ app field, rootString doc' (.app app field) = rootString doc (.app app field)) :
    personalization doc' = personalization doc := by
  have hfields (app : Bytes) : fieldsOf doc' app = fieldsOf doc app :=
    entries_congr (fun _ => field_mem_names) (fun _ => field_mem_names) (happs app)
  rw [personalization, personalization, hhue,
    entries_congr (fun _ => user_mem_names) (fun _ => user_mem_names) huser]
  simp only [hfields]
  refine congrArg (Personalization.mk _ _) (filterMap_asSet_congr fun app hsome => ?_)
  have hne : fieldsOf doc app ≠ [] := fun hnil => by
    rw [if_pos hnil] at hsome
    exact Bool.noConfusion hsome
  obtain ⟨field, hfield⟩ := fieldsOf_ne_nil.1 hne
  exact iff_of_true (app_mem_names (by rw [happs]; exact hfield)) (app_mem_names hfield)

/-! ## Patches -/

theorem rootString_setField (doc : Document) (key : Key) (value : Option Bytes) :
    rootString (setField doc key value) key = value := by
  rcases value with _ | text
  · exact rootString_delete doc key
  · exact rootString_put doc key text

theorem shown_setField_of_ne {key key' : Key} {value : Option Bytes} (hne : key' ≠ key) :
    (setField doc key value).history.shown key' = doc.history.shown key' := by
  rcases value with _ | text
  · exact RootMap.shown_delete_of_ne hne
  · exact RootMap.shown_put_of_ne hne

theorem mem_writes_setField {key : Key} {value : Option Bytes}
    {w : Multivalue.Write Bytes Key Value} (hw : w ∈ doc.history.writes) :
    w ∈ (setField doc key value).history.writes := by
  rcases value with _ | text
  · exact RootMap.mem_writes_delete hw
  · exact RootMap.mem_writes_put hw

/-- The keys of a patch. -/
def patchKeys (fields : List (Option Bytes × Bytes × Option Bytes)) : List Key :=
  fields.map fun field => fieldKey field.1 field.2.1

theorem shown_setFields_of_not_mem (doc : Document)
    {fields : List (Option Bytes × Bytes × Option Bytes)} {key : Key}
    (hkey : key ∉ patchKeys fields) :
    (setFields doc fields).history.shown key = doc.history.shown key := by
  induction fields generalizing doc with
  | nil => rfl
  | cons field rest ih =>
    rw [patchKeys, List.map_cons, List.mem_cons, not_or] at hkey
    rw [setFields, List.foldl_cons]
    exact (ih _ hkey.2).trans (shown_setField_of_ne hkey.1)

/-- Where the values of a patch are a function of the keys, it is what is read at them. -/
theorem rootString_setFields {fields : List (Option Bytes × Bytes × Option Bytes)}
    {read : Key → Option Bytes}
    (hread : ∀ field ∈ fields, field.2.2 = read (fieldKey field.1 field.2.1)) {key : Key}
    (hkey : key ∈ patchKeys fields) : rootString (setFields doc fields) key = read key := by
  induction fields generalizing doc with
  | nil => exact absurd hkey List.not_mem_nil
  | cons field rest ih =>
    obtain ⟨hfirst, hrest⟩ := List.forall_mem_cons.1 hread
    rw [setFields, List.foldl_cons]
    by_cases hlater : key ∈ patchKeys rest
    · exact ih hrest hlater
    · -- the first field is the last one that writes the key
      have heq : key = fieldKey field.1 field.2.1 := (List.mem_cons.1 hkey).resolve_right hlater
      have hframe := rootString_congr (shown_setFields_of_not_mem
        (setField doc (fieldKey field.1 field.2.1) field.2.2) hlater)
      rw [setFields] at hframe
      rw [hframe, heq, rootString_setField, hfirst]

theorem mem_writes_setFields {fields : List (Option Bytes × Bytes × Option Bytes)}
    {w : Multivalue.Write Bytes Key Value} (hw : w ∈ doc.history.writes) :
    w ∈ (setFields doc fields).history.writes := by
  induction fields generalizing doc with
  | nil => exact hw
  | cons field rest ih => exact ih (mem_writes_setField hw)

/-! ## Personal bindings -/

theorem mem_personalApps {app : Bytes} :
    app ∈ personalApps doc ↔ doc.history.shown (.personal app) ≠ [] := by
  rw [personalApps, mem_asSet, List.mem_filterMap, ← RootMap.mem_keys]
  constructor
  · rintro ⟨key, hkey, hsome⟩
    rcases key with _ | _ | _ | id | _
    · exact (nomatch hsome)
    · exact (nomatch hsome)
    · exact (nomatch hsome)
    · rw [← Option.some.inj hsome]
      exact hkey
    · exact (nomatch hsome)
  · exact fun hkey => ⟨_, hkey, rfl⟩

theorem bindPersonal_spec {apps : List Bytes} {bound : Document}
    (h : bindPersonal source apps doc = .ok bound) :
    (∀ app ∈ apps, (rootString source (.personal app)).isSome ∧
      rootString bound (.personal app) = rootString source (.personal app)) ∧
    (∀ key, (∀ app ∈ apps, key ≠ .personal app) →
      bound.history.shown key = doc.history.shown key) ∧
    ∀ w ∈ doc.history.writes, w ∈ bound.history.writes := by
  induction apps generalizing doc with
  | nil =>
    rw [← Except.ok.inj h]
    exact ⟨fun _ happ => absurd happ List.not_mem_nil, fun _ _ => rfl, fun _ hw => hw⟩
  | cons app rest ih =>
    rw [bindPersonal] at h
    rcases hvalue : rootString source (.personal app) with _ | value
    · rw [hvalue] at h
      exact (nomatch h)
    rw [hvalue] at h
    obtain ⟨hbound, hframe, hwrites⟩ := ih h
    refine ⟨List.forall_mem_cons.2 ⟨⟨by rw [hvalue, Option.isSome_some], ?_⟩, hbound⟩,
      fun key hkey => ?_, fun w hw => hwrites w (RootMap.mem_writes_put hw)⟩
    · by_cases hlater : app ∈ rest
      · exact (hbound app hlater).2
      · rw [rootString_congr (hframe _ fun other hother heq => hlater ?_), rootString_put, hvalue]
        rw [Key.personal.inj heq]
        exact hother
    · rw [hframe key fun other hother => hkey other (List.mem_cons_of_mem _ hother)]
      exact RootMap.shown_put_of_ne (hkey app List.mem_cons_self)

/-- The bindings are put into any document if the source has texts for them. -/
theorem bindPersonal_isOk {apps : List Bytes}
    (h : ∀ app ∈ apps, (rootString source (.personal app)).isSome) (doc : Document) :
    ∃ bound, bindPersonal source apps doc = .ok bound := by
  induction apps generalizing doc with
  | nil => exact ⟨doc, rfl⟩
  | cons app rest ih =>
    obtain ⟨happ, hrest⟩ := List.forall_mem_cons.1 h
    obtain ⟨value, hvalue⟩ := Option.isSome_iff_exists.1 happ
    rw [bindPersonal, hvalue]
    exact ih hrest _

/-! ## Documents that hold texts -/

/-- A key that the crate writes texts to. -/
def Key.IsField (key : Key) : Prop :=
  key.user?.isSome ∨ key.app?.isSome

/-- The fields of a visor document hold texts: `set_personalization` is what writes them. -/
def Textual (doc : Document) : Prop :=
  ∀ w ∈ doc.history.writes, w.key.IsField → ∀ value, w.value = some value → value.text?.isSome

theorem textual_empty (actor : Bytes) : Textual (.empty actor) :=
  fun _ hw => absurd hw List.not_mem_nil

theorem Textual.put (h : Textual doc) {key : Key} {value : Value}
    (hvalue : key.IsField → value.text?.isSome) : Textual (doc.put key value) := by
  intro w hw hkey v hv
  rw [RootMap.put] at hw
  split at hw
  · exact h w hw hkey v hv
  · rcases List.mem_cons.1 hw with rfl | hw
    · rw [← Option.some.inj hv]
      exact hvalue hkey
    · exact h w hw hkey v hv

theorem Textual.delete (h : Textual doc) (key : Key) : Textual (doc.delete key) := by
  intro w hw hkey v hv
  rw [RootMap.delete] at hw
  split at hw
  · exact h w hw hkey v hv
  · rcases List.mem_cons.1 hw with rfl | hw
    · cases hv
    · exact h w hw hkey v hv

theorem Textual.deleteAll (h : Textual doc) (keys : List Key) : Textual (doc.deleteAll keys) := by
  induction keys generalizing doc with
  | nil => exact h
  | cons key rest ih => exact ih (h.delete key)

theorem Textual.mergeSnapshot (h : Textual doc) (hsource : Textual source) :
    Textual (doc.mergeSnapshot source) := by
  intro w hw
  rcases Multivalue.History.mem_writes_merge.1 hw with hw | hw
  · exact h w hw
  · exact hsource w hw

theorem Textual.setFields (h : Textual doc)
    (fields : List (Option Bytes × Bytes × Option Bytes)) : Textual (setFields doc fields) := by
  induction fields generalizing doc with
  | nil => exact h
  | cons field rest ih =>
    obtain ⟨app, name, value⟩ := field
    rcases value with _ | text
    · exact ih (h.delete _)
    · exact ih (h.put fun _ => rfl)

theorem Textual.setPersonalization (h : Textual doc) (hue : Option (Option ℕ))
    (fields : List (Option Bytes × Bytes × Option Bytes)) :
    Textual (setPersonalization doc hue fields) := by
  refine Textual.setFields ?_ fields
  rcases hue with _ | _ | value
  · exact h
  · exact h.delete .hue
  · exact h.put fun hfield => by simp [Key.IsField, Key.user?, Key.app?] at hfield

theorem Textual.bindPersonal (h : Textual doc) {apps : List Bytes} {bound : Document}
    (hbind : bindPersonal source apps doc = .ok bound) : Textual bound := by
  induction apps generalizing doc with
  | nil =>
    rw [← Except.ok.inj hbind]
    exact h
  | cons app rest ih =>
    rw [Visor.bindPersonal] at hbind
    rcases hvalue : rootString source (.personal app) with _ | value
    · rw [hvalue] at hbind
      exact (nomatch hbind)
    rw [hvalue] at hbind
    exact ih (h.put fun _ => rfl) hbind

/-- A field that is not read shows nothing. -/
theorem Textual.shown_eq_nil (h : Textual doc) {key : Key} (hkey : key.IsField)
    (hnone : rootString doc key = none) : doc.history.shown key = [] := by
  by_contra hne
  obtain ⟨w, hw, hnewest⟩ := Multivalue.History.exists_newest hne
  obtain ⟨hmem, heq, hsome, -⟩ := Multivalue.History.mem_shown.1 hw
  obtain ⟨value, hvalue⟩ := Option.isSome_iff_exists.1 hsome
  have htext := h w hmem (heq ▸ hkey) value hvalue
  rw [rootString, hnewest, hvalue, Option.bind_some] at hnone
  rw [hnone] at htext
  exact Bool.noConfusion htext

/-! ## The adoption -/

/-- What an adoption asks of the source. -/
structure Established (source : Document) : Prop where
  hue : (hue source).isSome
  petname : (userField source (utf8 "petname")).getD [] ≠ []
  bindings : ∀ app ∈ personalApps source, (rootString source (.personal app)).isSome

/-- The document once the bindings that the source does not list are gone. -/
def cleared (current source : Document) : Document :=
  (current.mergeSnapshot source).deleteAll (((personalApps (current.mergeSnapshot source)).filter
    (· ∉ personalApps source)).map Key.personal)

/-- What the personalization is patched with. -/
def adoptedFields (current source : Document) : List (Option Bytes × Bytes × Option Bytes) :=
  userFields (personalization current) (personalization source) ++
    appFields (personalization current) (personalization source)

theorem adopt_eq_ok : adopt current source = .ok adopted ↔
    ((hue source).isSome ∧ (userField source (utf8 "petname")).getD [] ≠ []) ∧
      ∃ bound, bindPersonal source (personalApps source) (cleared current source) = .ok bound ∧
        adopted = setPersonalization bound (some (hue source)) (adoptedFields current source) := by
  rw [adopt]
  constructor
  · intro h
    obtain ⟨hcheck, h⟩ := of_check h
    obtain ⟨bound, hbound, h⟩ := of_bind h
    exact ⟨hcheck, bound, hbound, (Except.ok.inj h).symm⟩
  · rintro ⟨hcheck, bound, hbound, rfl⟩
    show (check ((hue source).isSome ∧ (userField source (utf8 "petname")).getD [] ≠ []) _ >>=
      fun _ => bindPersonal source (personalApps source) (cleared current source) >>= fun bound =>
        pure (setPersonalization bound (some (hue source)) (adoptedFields current source))) = _
    rw [check_eq_ok.2 hcheck]
    show (bindPersonal source (personalApps source) (cleared current source) >>= fun _ => _) = _
    rw [hbound]
    rfl

theorem established (h : adopt current source = .ok adopted) : Established source := by
  obtain ⟨⟨hhue, hpetname⟩, bound, hbound, -⟩ := adopt_eq_ok.1 h
  exact ⟨hhue, hpetname, fun app happ => ((bindPersonal_spec hbound).1 app happ).1⟩

/-- Whether an adoption succeeds depends on the source alone. -/
theorem Established.adopt_isOk (h : Established source) (current : Document) :
    ∃ adopted, adopt current source = .ok adopted := by
  obtain ⟨bound, hbound⟩ := bindPersonal_isOk h.bindings (cleared current source)
  exact ⟨_, adopt_eq_ok.2 ⟨⟨h.hue, h.petname⟩, bound, hbound, rfl⟩⟩

/-! ### The patch -/

theorem lookup_apps_eq_some {app : Bytes} {fields : Entries Bytes}
    (h : (personalization doc).apps.lookup app = some fields) :
    fields = fieldsOf doc app ∧ Shows doc app := by
  rw [lookup_apps] at h
  split_ifs at h with hnil
  exact ⟨(Option.some.inj h).symm, shows_iff.2 hnil⟩

theorem getD_lookup_apps (doc : Document) (app : Bytes) :
    ((personalization doc).apps.lookup app).getD [] = fieldsOf doc app := by
  rw [lookup_apps]
  split_ifs with hnil
  · rw [hnil, Option.getD_none]
  · rw [Option.getD_some]

theorem mem_appFields {field : Option Bytes × Bytes × Option Bytes} :
    field ∈ appFields (personalization current) (personalization source) ↔
      ∃ app, Shows source app ∧ ∃ name,
        ((rootString current (.app app name)).isSome ∨
          (rootString source (.app app name)).isSome) ∧
        field = (some app, name, rootString source (.app app name)) := by
  rw [appFields, List.mem_flatMap]
  constructor
  · rintro ⟨app, -, hmem⟩
    rcases hnew : (personalization source).apps.lookup app with _ | new
    · rw [hnew] at hmem
      exact absurd hmem List.not_mem_nil
    obtain ⟨rfl, hshows⟩ := lookup_apps_eq_some hnew
    rw [hnew] at hmem
    obtain ⟨name, hname, rfl⟩ := List.mem_map.1 hmem
    rw [getD_lookup_apps, mem_asSet, List.mem_append, mem_fieldsOf, mem_fieldsOf] at hname
    refine ⟨app, hshows, name, hname, ?_⟩
    rw [lookup_fieldsOf]
  · rintro ⟨app, hshows, name, hname, rfl⟩
    have hnew : (personalization source).apps.lookup app = some (fieldsOf source app) := by
      rw [lookup_apps, if_neg (shows_iff.1 hshows)]
    refine ⟨app, mem_asSet.2 (List.mem_append_right _ (mem_apps.2 hshows)), ?_⟩
    rw [hnew]
    refine List.mem_map.2 ⟨name, ?_, ?_⟩
    · rw [getD_lookup_apps, mem_asSet, List.mem_append, mem_fieldsOf, mem_fieldsOf]
      exact hname
    · rw [lookup_fieldsOf]

theorem mem_userFields {field : Option Bytes × Bytes × Option Bytes} :
    field ∈ userFields (personalization current) (personalization source) ↔
      ∃ name, ((rootString current (.user name)).isSome ∨
          (rootString source (.user name)).isSome) ∧
        field = (none, name, rootString source (.user name)) := by
  rw [userFields, List.mem_map]
  simp only [mem_asSet, List.mem_append, mem_user]
  refine exists_congr fun name => and_congr_right fun _ => ?_
  rw [← userField_eq source name, userField, eq_comm]

/-- The patch writes what the source reads. -/
theorem adoptedFields_read : ∀ field ∈ adoptedFields current source,
    field.2.2 = rootString source (fieldKey field.1 field.2.1) := by
  intro field hfield
  rcases List.mem_append.1 hfield with huser | happ
  · obtain ⟨name, -, rfl⟩ := mem_userFields.1 huser
    rfl
  · obtain ⟨app, -, name, -, rfl⟩ := mem_appFields.1 happ
    rfl

theorem mem_patchKeys {key : Key} : key ∈ patchKeys (adoptedFields current source) ↔
    ((rootString current key).isSome ∨ (rootString source key).isSome) ∧
      ((∃ name, key = .user name) ∨ ∃ app name, Shows source app ∧ key = .app app name) := by
  rw [patchKeys, List.mem_map]
  constructor
  · rintro ⟨field, hfield, rfl⟩
    rcases List.mem_append.1 hfield with huser | happ
    · obtain ⟨name, hname, rfl⟩ := mem_userFields.1 huser
      exact ⟨hname, .inl ⟨name, rfl⟩⟩
    · obtain ⟨app, hshows, name, hname, rfl⟩ := mem_appFields.1 happ
      exact ⟨hname, .inr ⟨app, name, hshows, rfl⟩⟩
  · rintro ⟨hread, ⟨name, rfl⟩ | ⟨app, name, hshows, rfl⟩⟩
    · exact ⟨_, List.mem_append_left _ (mem_userFields.2 ⟨name, hread, rfl⟩), rfl⟩
    · exact ⟨_, List.mem_append_right _ (mem_appFields.2 ⟨app, hshows, name, hread, rfl⟩), rfl⟩

/-! ### What was adopted -/

/-- What is read after an adoption, and which registers show what the merge does. -/
structure Adopted (current source adopted : Document) : Prop where
  hue : Visor.hue adopted = Visor.hue source
  user : ∀ field, rootString adopted (.user field) = rootString source (.user field)
  apps : ∀ app, Shows source app → ∀ field,
    rootString adopted (.app app field) = rootString source (.app app field)
  personal : ∀ app, rootString adopted (.personal app) = rootString source (.personal app)
  /-- The apps that the source does not show are only merged. -/
  locals : ∀ app, ¬ Shows source app → ∀ field, adopted.history.shown (.app app field) =
    (current.mergeSnapshot source).history.shown (.app app field)
  others : ∀ name, adopted.history.shown (.other name) =
    (current.mergeSnapshot source).history.shown (.other name)
  writes : ∀ w ∈ source.history.writes, w ∈ adopted.history.writes
  textual : Textual adopted

/-- A register that neither document shows, the merge does not show. -/
theorem shown_mergeSnapshot_eq_nil {key : Key} (hcurrent : current.history.shown key = [])
    (hsource : source.history.shown key = []) :
    (current.mergeSnapshot source).history.shown key = [] := by
  rw [RootMap.mergeSnapshot, Multivalue.History.shown_merge_of_shown_eq_nil hsource, hcurrent]
  rfl

theorem hue_put {value : ℕ} (h : Visor.hue source = some value) :
    Visor.hue (doc.put .hue (.int value)) = some value := by
  rw [Visor.hue, Option.bind_eq_bind, Option.bind_eq_some_iff] at h
  obtain ⟨held, -, hrange⟩ := h
  split_ifs at hrange with hin
  obtain rfl := Option.some.inj hrange
  have hheld : ((held.toNat : ℕ) : ℤ) = held := Int.toNat_of_nonneg hin.1
  rw [Visor.hue, RootMap.newest_put, Option.bind_some, toInt, hheld]
  show (if _ then _ else _) = _
  rw [if_pos hin]

/-- A register that the patch does not name shows what the bound document shows. -/
theorem shown_adopted {bound : Document} {key : Key} (hhue : key ≠ .hue)
    (hkey : key ∉ patchKeys (adoptedFields current source)) :
    (setPersonalization bound (some (hue source)) (adoptedFields current source)).history.shown
      key = bound.history.shown key := by
  rw [setPersonalization, shown_setFields_of_not_mem _ hkey]
  rcases hue source with _ | value
  · exact RootMap.shown_delete_of_ne hhue
  · exact RootMap.shown_put_of_ne hhue

section Adopted

variable (hcurrent : Textual current) (hsource : Textual source)
  {bound : Document}
  (hbound : bindPersonal source (personalApps source) (cleared current source) = .ok bound)
include hbound

/-- Outside of the personal bindings, the bound document shows what the merge does. -/
theorem shown_bound {key : Key} (hkey : ∀ app, key ≠ .personal app) :
    bound.history.shown key = (current.mergeSnapshot source).history.shown key := by
  rw [(bindPersonal_spec hbound).2.1 key fun app _ => hkey app, cleared, RootMap.shown_deleteAll,
    if_neg]
  intro hmem
  obtain ⟨app, -, heq⟩ := List.mem_map.1 hmem
  exact hkey app heq.symm

/-- The bindings of the bound document are the source's. -/
theorem personal_bound (app : Bytes) :
    rootString bound (.personal app) = rootString source (.personal app) := by
  obtain ⟨hread, hframe, -⟩ := bindPersonal_spec hbound
  by_cases happ : app ∈ personalApps source
  · exact (hread app happ).2
  have hnil : source.history.shown (.personal app) = [] := by
    by_contra hne
    exact happ (mem_personalApps.2 hne)
  rw [rootString_of_shown_eq_nil hnil]
  refine rootString_of_shown_eq_nil ?_
  have hother (other : Bytes) (hin : other ∈ personalApps source) :
      Key.personal app ≠ .personal other := fun heq => happ (by
    rw [Key.personal.inj heq]
    exact hin)
  rw [hframe _ hother, cleared, RootMap.shown_deleteAll]
  split_ifs with hdeleted
  · rfl
  · -- what is not listed shows nothing
    by_contra hne
    exact hdeleted (List.mem_map_of_mem (List.mem_filter.2
      ⟨mem_personalApps.2 hne, decide_eq_true happ⟩))

include hcurrent hsource

/-- A field that the patch is about reads as in the source. -/
theorem rootString_adopted {key : Key} (hfield : key.IsField)
    (hkey : (∃ name, key = .user name) ∨ ∃ app name, Shows source app ∧ key = .app app name) :
    rootString (setPersonalization bound (some (hue source)) (adoptedFields current source)) key =
      rootString source key := by
  by_cases hread : (rootString current key).isSome ∨ (rootString source key).isSome
  · exact rootString_setFields adoptedFields_read (mem_patchKeys.2 ⟨hread, hkey⟩)
  · -- neither document reads anything, so that nothing is shown
    rw [not_or, Option.not_isSome_iff_eq_none, Option.not_isSome_iff_eq_none] at hread
    have hpersonal (app : Bytes) : key ≠ .personal app := by
      rintro rfl
      simp [Key.IsField, Key.user?, Key.app?] at hfield
    have hhue : key ≠ .hue := by
      rintro rfl
      simp [Key.IsField, Key.user?, Key.app?] at hfield
    rw [hread.2]
    refine rootString_of_shown_eq_nil ?_
    rw [shown_adopted hhue fun hmem => ?_, shown_bound hbound hpersonal]
    · exact shown_mergeSnapshot_eq_nil (hcurrent.shown_eq_nil hfield hread.1)
        (hsource.shown_eq_nil hfield hread.2)
    · obtain ⟨hsome, -⟩ := mem_patchKeys.1 hmem
      rw [hread.1, hread.2] at hsome
      simp at hsome

end Adopted

theorem adopted_of_adopt (hcurrent : Textual current) (hsource : Textual source)
    (h : adopt current source = .ok adopted) : Adopted current source adopted := by
  obtain ⟨⟨hhue, -⟩, bound, hbound, rfl⟩ := adopt_eq_ok.1 h
  have hmerged : Textual (current.mergeSnapshot source) := hcurrent.mergeSnapshot hsource
  have hkeep {key : Key} (hne : key ≠ .hue) (hpersonal : ∀ app, key ≠ .personal app)
      (hkey : key ∉ patchKeys (adoptedFields current source)) :=
    (shown_adopted hne hkey).trans (shown_bound hbound hpersonal)
  refine
    { hue := ?_
      user := fun field => rootString_adopted hcurrent hsource hbound (.inl rfl) (.inl ⟨_, rfl⟩)
      apps := fun app hshows field =>
        rootString_adopted hcurrent hsource hbound (.inr rfl) (.inr ⟨_, _, hshows, rfl⟩)
      personal := fun app => ?_
      locals := fun app hshows field => hkeep (by simp) (by simp) fun hmem => ?_
      others := fun name => hkeep (by simp) (by simp) fun hmem => ?_
      writes := fun w hw => ?_
      textual := ((hmerged.deleteAll _).bindPersonal hbound).setPersonalization _ _ }
  · obtain ⟨value, hvalue⟩ := Option.isSome_iff_exists.1 hhue
    have hnot : Key.hue ∉ patchKeys (adoptedFields current source) := fun hmem => by
      simpa using (mem_patchKeys.1 hmem).2
    have hframe := shown_setFields_of_not_mem (setHue bound (some (hue source))) hnot
    rw [Visor.hue, Multivalue.History.newest_eq, setPersonalization, hframe,
      ← Multivalue.History.newest_eq, hvalue]
    exact hue_put hvalue
  · have hnot : Key.personal app ∉ patchKeys (adoptedFields current source) := fun hmem => by
      simpa using (mem_patchKeys.1 hmem).2
    rw [rootString_congr (shown_adopted (by simp) hnot), personal_bound hbound]
  · have hcase := (mem_patchKeys.1 hmem).2
    simp only [reduceCtorEq, exists_false, false_or, Key.app.injEq] at hcase
    obtain ⟨app', -, hshows', rfl, -⟩ := hcase
    exact hshows hshows'
  · simpa using (mem_patchKeys.1 hmem).2
  · rw [setPersonalization]
    refine mem_writes_setFields ?_
    have hin : w ∈ bound.history.writes := (bindPersonal_spec hbound).2.2 w
      (RootMap.mem_writes_deleteAll (Multivalue.History.mem_writes_merge.2 (.inr hw)))
    rcases hue source with _ | value
    · exact RootMap.mem_writes_delete hin
    · exact RootMap.mem_writes_put hin

/-! ## The adoption as a whole -/

/-- The current document takes over what the source shows, and keeps the apps that it alone shows;
adopting the same source again changes nothing that is read. -/
structure TakesOver (fromStr : Bytes → Option Bytes) (current source adopted : Document) :
    Prop where
  hue : Visor.hue adopted = Visor.hue source
  user : ∀ field, userField adopted field = userField source field
  apps : ∀ app, Shows source app → ∀ field, appField adopted app field = appField source app field
  personal : ∀ app,
    personalPartition fromStr adopted app = personalPartition fromStr source app
  locals : ∀ app, ¬ Shows source app → ∀ field value, appField current app field = some value →
    appField adopted app field = some value
  again : ∃ again, adopt adopted source = .ok again ∧
    personalization again = personalization adopted ∧
    (∀ app, personalPartition fromStr again app = personalPartition fromStr adopted app) ∧
    ∀ name, again.history.shown (.other name) = adopted.history.shown (.other name)

/-- The source's history does not hide a write that the current document reads a field of its own
app from, or leaves a concurrent one with the same text as the newest. -/
def Spared (current source : Document) : Prop :=
  ∀ app, ¬ Shows source app → ∀ field value, appField current app field = some value →
    (Multivalue.History.latest ((current.history.shown (.app app field)).filter fun w =>
      ∀ u ∈ source.history.writes, ¬ u.Hides w)).bind Value.text? = some value

/-- Where the source's history hides nothing of the current one's, all is spared. -/
theorem spared_of_not_hides (h : ∀ w ∈ current.history.writes,
    ∀ u ∈ source.history.writes, ¬ u.Hides w) : Spared current source := by
  intro app _ field value hvalue
  rw [List.filter_eq_self.2 fun w hw =>
    decide_eq_true (h w (Multivalue.History.mem_shown.1 hw).1)]
  rw [appField_eq, rootString, Multivalue.History.newest_eq] at hvalue
  exact hvalue

/-- A field of an app that only the current document shows reads from what the source's history
leaves of its writes. -/
theorem Adopted.appField_of_not_shows (h : Adopted current source adopted)
    (hsource : Textual source) {app : Bytes} (hshows : ¬ Shows source app) (field : Bytes) :
    appField adopted app field =
      (Multivalue.History.latest ((current.history.shown (.app app field)).filter fun w =>
        ∀ u ∈ source.history.writes, ¬ u.Hides w)).bind Value.text? := by
  have hnone : rootString source (.app app field) = none := by
    rw [← appField_eq]
    exact Option.not_isSome_iff_eq_none.1 fun hsome => hshows ⟨field, hsome⟩
  have hnil := hsource.shown_eq_nil (.inr rfl) hnone
  rw [appField_eq, rootString, Multivalue.History.newest_eq, h.locals app hshows field,
    RootMap.mergeSnapshot, Multivalue.History.shown_merge_of_shown_eq_nil hnil]

/-- Adopting the same source again changes nothing that is read. -/
theorem Adopted.again (h : Adopted current source adopted) (hsource : Textual source)
    {again : Document} (hagain : adopt adopted source = .ok again) :
    personalization again = personalization adopted ∧
      (∀ app, rootString again (.personal app) = rootString adopted (.personal app)) ∧
      ∀ name, again.history.shown (.other name) = adopted.history.shown (.other name) := by
  have hsecond := adopted_of_adopt h.textual hsource hagain
  have hmerged : adopted.mergeSnapshot source = adopted := RootMap.mergeSnapshot_of_subset h.writes
  refine ⟨personalization_congr (hsecond.hue.trans h.hue.symm)
    (fun field => (hsecond.user field).trans (h.user field).symm) fun app field => ?_,
    fun app => (hsecond.personal app).trans (h.personal app).symm, fun name => ?_⟩
  · by_cases hshows : Shows source app
    · rw [hsecond.apps app hshows field, h.apps app hshows field]
    · refine rootString_congr ?_
      rw [hsecond.locals app hshows field, hmerged]
  · rw [hsecond.others name, hmerged]

/-- An adoption takes over what the source shows and keeps what only the current document shows
exactly when the source's history spares that. -/
theorem takesOver_iff (fromStr : Bytes → Option Bytes) (hcurrent : Textual current)
    (hsource : Textual source) (h : adopt current source = .ok adopted) :
    TakesOver fromStr current source adopted ↔ Spared current source := by
  have hadopted := adopted_of_adopt hcurrent hsource h
  constructor
  · intro htakes app hshows field value hvalue
    rw [← hadopted.appField_of_not_shows hsource hshows]
    exact htakes.locals app hshows field value hvalue
  · intro hspared
    refine
      { hue := hadopted.hue
        user := fun field => ?_
        apps := fun app hshows field => ?_
        personal := fun app => ?_
        locals := fun app hshows field value hvalue => ?_
        again := ?_ }
    · rw [userField_eq, userField_eq, hadopted.user]
    · rw [appField_eq, appField_eq, hadopted.apps app hshows]
    · rw [personalPartition, personalPartition, hadopted.personal]
    · rw [hadopted.appField_of_not_shows hsource hshows]
      exact hspared app hshows field value hvalue
    · obtain ⟨again, hagain⟩ := (established h).adopt_isOk adopted
      obtain ⟨hread, hpersonal, hothers⟩ := hadopted.again hsource hagain
      refine ⟨again, hagain, hread, fun app => ?_, hothers⟩
      rw [personalPartition, personalPartition, hpersonal]

/-! ## Examples -/

/-- The device of an established user. -/
def group : Document :=
  setPersonalization (.empty [1]) (some (some 42)) [(none, utf8 "petname", some [111])]

/-- A device that was used on its own before. -/
def joiner : Document :=
  setPersonalization (.empty [2]) (some (some 7))
    [(none, utf8 "petname", some [106]), (some [97], utf8 "petname", some [108])]

theorem group_takesOver_joiner : ∃ adopted, adopt joiner group = .ok adopted ∧
    TakesOver some joiner group adopted := by
  have hgroup : Established group := ⟨by decide +kernel, by decide +kernel, by decide +kernel⟩
  obtain ⟨adopted, hadopt⟩ := hgroup.adopt_isOk joiner
  refine ⟨adopted, hadopt, (takesOver_iff some ((textual_empty [2]).setPersonalization _ _)
    ((textual_empty [1]).setPersonalization _ _) hadopt).2 (spared_of_not_hides ?_)⟩
  decide +kernel

/-- A field of an app, shared by two devices. -/
def shared : Document :=
  setPersonalization group none [(some [97], [98], some [99])]

/-- One of them clears it. -/
def clearing : Document :=
  setPersonalization { shared with actor := [3] } none [(some [97], [98], none)]

/-- The other one shows the app, which the first does not any more, and loses its field. -/
theorem cleared_app_is_lost : ∃ adopted, adopt shared clearing = .ok adopted ∧
    ¬ Shows clearing [97] ∧ appField shared [97] [98] = some [99] ∧
    appField adopted [97] [98] = none := by
  have hclearing : Established clearing :=
    ⟨by decide +kernel, by decide +kernel, by decide +kernel⟩
  obtain ⟨adopted, hadopt⟩ := hclearing.adopt_isOk shared
  have hlost : (adopt shared clearing).toOption.all fun adopted =>
      (appField adopted [97] [98]).isNone := by
    decide +kernel
  rw [hadopt] at hlost
  refine ⟨adopted, hadopt, fun hshows => ?_, by decide +kernel,
    Option.isNone_iff_eq_none.1 hlost⟩
  have hnone : fieldsOf clearing [97] = [] := by decide +kernel
  exact shows_iff.1 hshows hnone

end Polyvisor.Visor
