import Mathlib.Data.String.Basic
import Polyvisor.Contacts.Document
import Polyvisor.Contacts.RootMap
import Polyvisor.Kernel.Route
import Polyvisor.Lib.Json
import Polyvisor.Lib.Replicas
import Polyvisor.Lib.Transition

/-!
# Links across devices

The route key, the installs and the document instances of the visor's document
(`route_key_or_create`, `install_or_create`, `share_instance` and `adopt_share_invitation` of
`visor-model/src/lib.rs`), what a link is written with, and what another device of the group reads
it as (`route_decode` of `kernel/src/lib.rs`). A device has a replica of the document; a replica
mints what it does not find, so several may be minted at once. Between what is read of the document
for a link, more may be merged.

The root map lists each install under its id, in the one spelling that `hex` has. Adopting a group's
document merges it and writes other keys.

## Main results

* `replicas_agree`: in every run, replicas with the same changes hold the same route key and list
  the same installs.
* `links_open`: in every run, a link opens on every device that has the app and what its author had,
  as the document it was written for, unless that device has a route key put after the author's.
-/

namespace Polyvisor.Links

open Contacts Fields Multivalue Transition

/-- A key of the root map, or `APP` of the object that an operation put. -/
inductive Key where
  | routeKey
  | install (id : Block 16)
  | entry (obj : ℕ × Bytes)
  | shareInstance (id : String)
  | other (name : Bytes)
  deriving DecidableEq

/-- The id of an install. -/
def Key.install? : Key → Option (Block 16)
  | .install id => some id
  | _ => none

/-- The id of a document instance. -/
def Key.shareInstance? : Key → Option String
  | .shareInstance id => some id
  | _ => none

abbrev Document := Doc Bytes Key Value

structure ShareInstanceRecord where
  partition : Bytes
  app : Bytes
  label : Bytes
  edit : Bool
  senderEndpoint : Bytes
  senderDevice : Block 32
  deriving DecidableEq

/-- `serde_json::to_string`. -/
def ShareInstanceRecord.json (record : ShareInstanceRecord) : Bytes :=
  Json.object
    [("partition", Json.string record.partition), ("app", Json.string record.app),
      ("label", Json.string record.label),
      ("edit", Json.text (if record.edit then "true" else "false")),
      ("sender_endpoint", Json.string record.senderEndpoint),
      ("sender_device", Json.bytes record.senderDevice.toList)]

/-! ## The model -/

/-- `route_key`. -/
def routeKey (doc : Document) : Option (Block 32) := do
  let value ← doc.history.newest .routeKey
  let text ← value.text?
  let bytes ← decodePairs text
  asBlock 32 bytes

/-- The app that an install is of. -/
def appOf (doc : Document) (id : Block 16) : Option Bytes := do
  let install ← doc.history.top (.install id)
  let app ← doc.history.newest (.entry install.id)
  app.text?

/-- The order of `found.sort()`. -/
def inOrder (a b : Block 16 × Bytes) : Prop :=
  a.1 ≠ b.1 ∧ a.1.toList ≤ b.1.toList ∨ a.1 = b.1 ∧ a.2 ≤ b.2

instance : DecidableRel inOrder := fun a b =>
  inferInstanceAs (Decidable (a.1 ≠ b.1 ∧ a.1.toList ≤ b.1.toList ∨ a.1 = b.1 ∧ a.2 ≤ b.2))

/-- The installs that the root map lists. -/
def ids (doc : Document) : List (Block 16) :=
  ((doc.history.writes.filterMap fun w => w.key.install?).filter fun id =>
    doc.history.shown (.install id) ≠ []).dedup

/-- `installs`. -/
def installs (doc : Document) : List (Block 16 × Bytes) :=
  ((ids doc).filterMap fun id => (appOf doc id).map (id, ·)).insertionSort inOrder

section Instances

-- `serde_json::from_str`
variable (fromStr : Bytes → Option ShareInstanceRecord)

/-- `share_instance`. -/
def shareInstance (doc : Document) (id : String) : Option ShareInstanceRecord := do
  let value ← doc.history.newest (.shareInstance id)
  let text ← value.text?
  fromStr text

/-- The instances that the root map lists. -/
def instanceIds (doc : Document) : List String :=
  ((doc.history.writes.filterMap fun w => w.key.shareInstance?).filter fun id =>
    doc.history.shown (.shareInstance id) ≠ []).dedup

/-- `instance_for_partition`. -/
def instanceForPartition (doc : Document) (partition : Bytes) : Option String :=
  ((instanceIds doc).filter fun id =>
    (shareInstance fromStr doc id).any (·.partition = partition)).min?

/-- `sharing_instance_partition`. -/
def instancePartition (doc : Document) (id : String) (app : Bytes) : Option Bytes :=
  (shareInstance fromStr doc id).bind fun record =>
    if record.app = app then some record.partition else none

/-- The one app whose documents are shared. -/
def todomvc : Bytes := utf8 "todomvc"

/-- The document that a session of an app is bound to: `launch`, or `launch_instance` of an
instance. The personal document of TodoMVC is in the root map too. -/
def sessionDocument (doc : Document) (personal app : Bytes) : Option String → Option (Option Bytes)
  | none => some (if app = todomvc then some personal else none)
  | some id => (instancePartition fromStr doc id app).map some

end Instances

variable (sha256 : Bytes → Block 32) (fromStr : Bytes → Option ShareInstanceRecord)

/-- `digest`. -/
def digest (domain : String) (parts : List Bytes) : Block 32 :=
  sha256 (utf8 domain ++ parts.flatten)

/-- What `set_route_key` writes. -/
def keyBatch (doc : Document) (key : Block 32) : List (Key × Option Value) :=
  doc.put .routeKey (.text (hex key.toList))

/-- What `add_install` writes: an object, and its app. -/
def installBatch (doc : Document) (actor : Bytes) (id : Block 16) (app : Bytes) :
    List (Key × Option Value) :=
  (.install id, some .other) :: doc.put (.entry (doc.history.next, actor)) (.text app)

/-- `route_key_or_create`. -/
def routeKeyOrCreate (doc : Document) (actor device entropy : Bytes) :
    Document × Block 32 × Bool :=
  match routeKey doc with
  | some key => (doc, key, false)
  | none =>
    let key := digest sha256 "polyvisor:route-key" [device, entropy]
    (doc.transact actor (keyBatch doc key), key, true)

/-- The id that a new install gets. -/
def newInstall (device entropy app : Bytes) : Block 16 :=
  (digest sha256 "polyvisor:install" [device, entropy, app]).take 16

/-- `install_or_create`. -/
def installOrCreate (doc : Document) (actor device entropy app : Bytes) :
    Document × Block 16 × Bool :=
  -- the first in the order of the ids, where there are several
  match (installs doc).find? (·.2 = app) with
  | some (id, _) => (doc, id, false)
  | none =>
    let id := newInstall sha256 device entropy app
    (doc.transact actor (installBatch doc actor id app), id, true)

/-- Why a link does not open. -/
inductive LinkError where
  /-- The link names an app that is not installed. -/
  | notInstalled
  /-- `unopenable_link`. -/
  | unopenable
  /-- No compatible document instance was adopted. -/
  | noInstance
  deriving DecidableEq

/-- `launch_app`. -/
def launchApp (fragment : String) : Option Bytes :=
  (Route.stripPrefix (utf8 "launch/") (utf8 fragment)).bind fun app =>
    if app = [] then none else some app

/-- `route_decode`, from the route key on, with the documents that the installs and the instance are
read of. -/
def routeDecode (f : Route.Primitives) (fromStr : Bytes → Option ShareInstanceRecord)
    (registry : List Bytes) (doc instancesDoc : Document) (key : Block 32) (fragment : String) :
    Except LinkError (Bytes × String × Option String) :=
  match launchApp fragment with
  | some app => if app ∈ registry then .ok (app, "", none) else .error .notInstalled
  | none =>
    match Route.decodeInstance f key fragment with
    | .error _ => .error .unopenable
    | .ok (install, instanceId, route) =>
      -- an install of another user, or one that has not arrived yet
      match (installs doc).find? (·.1 = install) with
      | none => .error .unopenable
      | some (_, app) =>
        if app ∉ registry then .error .notInstalled
        -- the document is read again for the instance
        else if instanceId.all fun id => (instancePartition fromStr instancesDoc id app).isSome then
          .ok (app, route, instanceId)
        else .error .noInstance

/-! ## Devices -/

structure Devices where
  replicas : Replicas Bytes Key Value := {}
  /-- What `sharing_adopt` has chosen to write: the instance, and the partition it is for. -/
  chosen : Bytes → Option (String × Bytes) := fun _ => none
  /-- The installs that were minted, each with its object. -/
  minted : List (Block 16 × (ℕ × Bytes)) := []
  /-- The records of instances that were written. -/
  adopted : List (String × ShareInstanceRecord) := []

/-- What happens to the replica of an actor. -/
inductive Event where
  /-- `visor_route_key`. -/
  | routeKey (actor device entropy : Bytes)
  /-- `visor_install`. -/
  | install (actor device entropy app : Bytes)
  /-- `sharing_adopt` reads whether the partition has an instance. -/
  | choose (actor partition : Bytes) (entropy : Block 16)
  /-- It writes the record of the instance it chose. -/
  | adopt (actor service label : Bytes) (edit : Bool) (senderEndpoint : Bytes)
      (senderDevice : Block 32)
  /-- It writes other keys, or a merge anchor. -/
  | other (actor : Bytes) (batch : List (Bytes × Option Value))
  | send (actor : Bytes)
  | deliver (actor : Bytes) (i : ℕ)

namespace Devices

abbrev doc (s : Devices) (actor : Bytes) : Document :=
  s.replicas.docs actor

/-- The hexadecimal text of an id. -/
def hexText (id : Block 16) : String :=
  String.ofList ((hex id.toList).map fun c => Char.ofNat c.toNat)

/-- What `adopt_share_invitation` writes of an instance. -/
def recordBatch (doc : Document) (id : String) (record : ShareInstanceRecord) :
    List (Key × Option Value) :=
  doc.put (.shareInstance id) (.text record.json)

def step (s : Devices) : Event → Devices
  | .routeKey actor device entropy =>
    let created := routeKeyOrCreate sha256 (s.doc actor) actor device entropy
    { s with replicas := s.replicas.setDoc actor created.1 }
  | .install actor device entropy app =>
    let created := installOrCreate sha256 (s.doc actor) actor device entropy app
    { s with
      replicas := s.replicas.setDoc actor created.1
      minted :=
        if created.2.2 then s.minted ++ [(created.2.1, (s.doc actor).history.next, actor)]
        else s.minted }
  | .choose actor partition entropy =>
    let id := (instanceForPartition fromStr (s.doc actor) partition).getD (hexText entropy)
    { s with chosen := Function.update s.chosen actor (some (id, partition)) }
  | .adopt actor service label edit senderEndpoint senderDevice =>
    match s.chosen actor with
    | none => s
    | some (id, partition) =>
      -- no other service is in the inbox: `verify_sender_identity` refuses it
      if service ≠ todomvc then s
      else
        let record := ⟨partition, service, label, edit, senderEndpoint, senderDevice⟩
        { s with
          replicas := s.replicas.setDoc actor
            ((s.doc actor).transact actor (recordBatch (s.doc actor) id record))
          chosen := Function.update s.chosen actor none
          adopted := s.adopted ++ [(id, record)] }
  | .other actor batch =>
    let batch := batch.map fun write => (Key.other write.1, write.2)
    { s with replicas := s.replicas.step (.commit actor batch) }
  | .send actor => { s with replicas := s.replicas.step (.send actor) }
  | .deliver actor i => { s with replicas := s.replicas.step (.deliver actor i) }

/-- No two installs were given one id, nor two documents one instance. -/
def Distinct (s : Devices) : Prop :=
  (s.minted.map Prod.fst).Nodup ∧
    ∀ a ∈ s.adopted, ∀ b ∈ s.adopted, a.1 = b.1 → a.2.partition = b.2.partition

instance (s : Devices) : Decidable s.Distinct :=
  inferInstanceAs (Decidable (_ ∧ _))

/-! ## What every write is -/

/-- What a write is: a route key hides no other; an install was minted; the app of an install is
written right behind it; and an instance was adopted, for a list of TodoMVC. -/
def Sound (minted : List (Block 16 × (ℕ × Bytes))) (adopted : List (String × ShareInstanceRecord))
    (w : Write Bytes Key Value) : Prop :=
  match w.key with
  | .routeKey => (∃ key : Block 32, w.value = some (.text (hex key.toList))) ∧ w.hides = []
  | .install id => w.value = some .other ∧ (id, w.id) ∈ minted
  | .entry obj => w.id = (obj.1 + 1, obj.2) ∧ ∃ app, w.value = some (.text app)
  | .shareInstance id => ∃ record, (id, record) ∈ adopted ∧ w.value = some (.text record.json)
  | .other _ => True

variable {minted : List (Block 16 × (ℕ × Bytes))} {adopted : List (String × ShareInstanceRecord)}
  {w : Write Bytes Key Value} {doc : Document} {id : Block 16} {app : Bytes}

theorem Sound.mono {minted' : List (Block 16 × (ℕ × Bytes))}
    {adopted' : List (String × ShareInstanceRecord)} (h : Sound minted adopted w)
    (hminted : minted ⊆ minted') (hadopted : adopted ⊆ adopted') : Sound minted' adopted' w := by
  rw [Sound] at h ⊢
  split at h
  · exact h
  · exact ⟨h.1, hminted h.2⟩
  · exact h
  · obtain ⟨record, hmem, hvalue⟩ := h
    exact ⟨record, hadopted hmem, hvalue⟩
  · trivial

theorem Sound.of_routeKey (h : Sound minted adopted w) (hkey : w.key = .routeKey) :
    (∃ key : Block 32, w.value = some (.text (hex key.toList))) ∧ w.hides = [] := by
  rwa [Sound, hkey] at h

theorem Sound.of_install (h : Sound minted adopted w) (hkey : w.key = .install id) :
    w.value = some .other ∧ (id, w.id) ∈ minted := by
  rwa [Sound, hkey] at h

theorem Sound.of_entry {obj : ℕ × Bytes} (h : Sound minted adopted w) (hkey : w.key = .entry obj) :
    w.id = (obj.1 + 1, obj.2) ∧ ∃ app, w.value = some (.text app) := by
  rwa [Sound, hkey] at h

theorem Sound.of_instance {id : String} (h : Sound minted adopted w)
    (hkey : w.key = .shareInstance id) :
    ∃ record, (id, record) ∈ adopted ∧ w.value = some (.text record.json) := by
  rwa [Sound, hkey] at h

/-- Every write of the document is sound and has an id of its own. -/
structure SoundDoc (minted : List (Block 16 × (ℕ × Bytes)))
    (adopted : List (String × ShareInstanceRecord)) (doc : Document) : Prop where
  named : doc.history.Named
  sound : ∀ w ∈ doc.history.writes, Sound minted adopted w

namespace SoundDoc

variable (h : SoundDoc minted adopted doc)
include h

/-! ## The route key -/

/-- A route key is never hidden. -/
theorem mem_shown_routeKey :
    w ∈ doc.history.shown .routeKey ↔ w ∈ doc.history.writes ∧ w.key = .routeKey := by
  rw [History.mem_shown]
  constructor
  · rintro ⟨hmem, hkey, -⟩
    exact ⟨hmem, hkey⟩
  · rintro ⟨hmem, hkey⟩
    obtain ⟨⟨key, hvalue⟩, -⟩ := (h.sound w hmem).of_routeKey hkey
    refine ⟨hmem, hkey, by simp [hvalue], fun u hu hhides => ?_⟩
    obtain ⟨-, hnone⟩ := (h.sound u hu).of_routeKey (hhides.1.trans hkey)
    have hid := hhides.2
    rw [hnone] at hid
    exact List.not_mem_nil hid

/-- The newest route key that was written is the one that is read. -/
theorem routeKey_eq_some {key : Block 32} : routeKey doc = some key ↔
    ∃ w, doc.history.top .routeKey = some w ∧ w.value = some (.text (hex key.toList)) := by
  -- what is written is the hexadecimal text, which reads back as the key
  have hread (key : Block 32) : asBlock 32 key.toList = some key := asBlock_eq_some.2 rfl
  rw [routeKey, History.newest_eq_top]
  cases htop : doc.history.top .routeKey with
  | none => simp
  | some w =>
    obtain ⟨hmem, hkey⟩ := h.mem_shown_routeKey.1 (History.mem_shown_of_top htop)
    obtain ⟨⟨held, hvalue⟩, -⟩ := (h.sound w hmem).of_routeKey hkey
    have hheld : (do
        let value ← (some w).bind Write.value
        let text ← value.text?
        let bytes ← decodePairs text
        asBlock 32 bytes) = some held := by
      simp [hvalue, Value.text?, decodePairs_hex, hread]
    rw [hheld]
    constructor
    · rintro ⟨⟩
      exact ⟨w, rfl, hvalue⟩
    · rintro ⟨u, hu, hvalue'⟩
      obtain rfl := Option.some.inj hu
      rw [hvalue] at hvalue'
      have hbytes := congrArg decodePairs (Value.text.inj (Option.some.inj hvalue'))
      rw [decodePairs_hex, decodePairs_hex] at hbytes
      exact congrArg some (List.Vector.toList_injective (Option.some.inj hbytes))

/-- Where no route key is read, none was written. -/
theorem shown_routeKey_eq_nil (hnone : routeKey doc = none) : doc.history.shown .routeKey = [] := by
  rw [← History.top_eq_none]
  by_contra hne
  obtain ⟨w, htop⟩ := Option.ne_none_iff_exists'.1 hne
  obtain ⟨hmem, hkey⟩ := h.mem_shown_routeKey.1 (History.mem_shown_of_top htop)
  obtain ⟨⟨key, hvalue⟩, -⟩ := (h.sound w hmem).of_routeKey hkey
  rw [h.routeKey_eq_some.2 ⟨w, htop, hvalue⟩] at hnone
  simp at hnone

/-! ## Installs -/

/-- Where no two installs got one id, an install that was written is the one its id is read as. -/
theorem top_install (hids : (minted.map Prod.fst).Nodup) (hmem : w ∈ doc.history.writes)
    (hkey : w.key = .install id) : doc.history.top (.install id) = some w := by
  -- every write of the key is this one
  have hone (u : Write Bytes Key Value) (hu : u ∈ doc.history.writes)
      (hukey : u.key = .install id) : u = w := by
    obtain ⟨-, hw⟩ := (h.sound w hmem).of_install hkey
    obtain ⟨-, hu'⟩ := (h.sound u hu).of_install hukey
    exact h.named u hu w hmem (congrArg Prod.snd (List.inj_on_of_nodup_map hids hu' hw rfl))
  have hshown : w ∈ doc.history.shown (.install id) := by
    obtain ⟨hvalue, -⟩ := (h.sound w hmem).of_install hkey
    refine History.mem_shown.2 ⟨hmem, hkey, by simp [hvalue], fun u hu hhides => ?_⟩
    obtain rfl := hone u hu (hhides.1.trans hkey)
    exact lt_irrefl _ (doc.history.causal u hu _ hhides.2)
  cases htop : doc.history.top (.install id) with
  | none =>
    rw [History.top_eq_none.1 htop] at hshown
    simp at hshown
  | some u =>
    obtain ⟨hu, hukey, -⟩ := History.mem_shown.1 (History.mem_shown_of_top htop)
    rw [hone u hu hukey]

/-- The app of an install that was written is the one it is read as. -/
theorem newest_entry {obj : ℕ × Bytes} (hmem : w ∈ doc.history.writes) (hkey : w.key = .entry obj) :
    doc.history.newest (.entry obj) = w.value := by
  have hone (u : Write Bytes Key Value) (hu : u ∈ doc.history.writes) (hukey : u.key = .entry obj) :
      u = w :=
    h.named u hu w hmem
      (((h.sound u hu).of_entry hukey).1.trans ((h.sound w hmem).of_entry hkey).1.symm)
  obtain ⟨-, app, hvalue⟩ := (h.sound w hmem).of_entry hkey
  have hshown : w ∈ doc.history.shown (.entry obj) := by
    refine History.mem_shown.2 ⟨hmem, hkey, by simp [hvalue], fun u hu hhides => ?_⟩
    obtain rfl := hone u hu (hhides.1.trans hkey)
    exact lt_irrefl _ (doc.history.causal u hu _ hhides.2)
  obtain ⟨u, hu, hnewest⟩ := History.exists_newest (List.ne_nil_of_mem hshown)
  obtain ⟨humem, hukey, -⟩ := History.mem_shown.1 hu
  rw [hnewest, hone u humem hukey]

/-- What an id is read as, where no two installs got one id. -/
theorem appOf_eq_some (hids : (minted.map Prod.fst).Nodup) : appOf doc id = some app ↔
    ∃ w ∈ doc.history.writes, w.key = .install id ∧
      ∃ e ∈ doc.history.writes, e.key = .entry w.id ∧ e.value = some (.text app) := by
  constructor
  · intro happ
    simp only [appOf, Option.bind_eq_bind, Option.bind_eq_some_iff] at happ
    obtain ⟨w, htop, value, hnewest, htext⟩ := happ
    obtain ⟨hmem, hkey, -⟩ := History.mem_shown.1 (History.mem_shown_of_top htop)
    obtain ⟨e, he, hvalue⟩ := History.mem_values.1 (History.mem_values_of_newest hnewest)
    obtain ⟨hemem, hekey, -⟩ := History.mem_shown.1 he
    refine ⟨w, hmem, hkey, e, hemem, hekey, ?_⟩
    obtain ⟨-, app', hvalue'⟩ := (h.sound e hemem).of_entry hekey
    rw [hvalue] at hvalue'
    obtain rfl := Option.some.inj hvalue'
    rw [hvalue, ← Option.some.inj htext]
  · rintro ⟨w, hmem, hkey, e, hemem, hekey, hvalue⟩
    simp [appOf, h.top_install hids hmem hkey, h.newest_entry hemem hekey, hvalue, Value.text?]

/-! ## Instances -/

variable {fromStr} in
/-- What an instance is read as was adopted. -/
theorem shareInstance_cases
    (hread : ∀ adoption ∈ adopted, fromStr adoption.2.json = some adoption.2) {id : String}
    {record : ShareInstanceRecord} (hrecord : shareInstance fromStr doc id = some record) :
    (id, record) ∈ adopted ∧ ∃ w ∈ doc.history.writes, w.key = .shareInstance id := by
  simp only [shareInstance, Option.bind_eq_bind, Option.bind_eq_some_iff] at hrecord
  obtain ⟨value, hnewest, text, htext, hrecord⟩ := hrecord
  obtain ⟨w, hw, hvalue⟩ := History.mem_values.1 (History.mem_values_of_newest hnewest)
  obtain ⟨hmem, hkey, -⟩ := History.mem_shown.1 hw
  obtain ⟨held, hheld, hvalue'⟩ := (h.sound w hmem).of_instance hkey
  rw [hvalue] at hvalue'
  obtain rfl := Option.some.inj hvalue'
  obtain rfl := Option.some.inj htext
  rw [hread _ hheld] at hrecord
  obtain rfl := Option.some.inj hrecord
  exact ⟨hheld, w, hmem, hkey⟩

variable {fromStr} in
/-- An instance that was written is read. -/
theorem exists_shareInstance
    (hread : ∀ adoption ∈ adopted, fromStr adoption.2.json = some adoption.2) {id : String}
    (hmem : w ∈ doc.history.writes) (hkey : w.key = .shareInstance id) :
    ∃ record, shareInstance fromStr doc id = some record := by
  -- no write of the key removes it, so the last one shows
  have hshown : doc.history.shown (.shareInstance id) ≠ [] := by
    refine History.shown_ne_nil hmem hkey fun u hu hukey => ?_
    obtain ⟨record, -, hvalue⟩ := (h.sound u hu).of_instance hukey
    simp [hvalue]
  obtain ⟨u, hu, hnewest⟩ := History.exists_newest hshown
  obtain ⟨humem, hukey, -⟩ := History.mem_shown.1 hu
  obtain ⟨record, hrecord, hvalue⟩ := (h.sound u humem).of_instance hukey
  refine ⟨record, ?_⟩
  simp [shareInstance, hnewest, hvalue, Value.text?, hread _ hrecord]

end SoundDoc

theorem mem_ids : id ∈ ids doc ↔ doc.history.shown (.install id) ≠ [] := by
  simp only [ids, List.mem_dedup, List.mem_filter, List.mem_filterMap, decide_eq_true_eq,
    and_iff_right_iff_imp]
  intro hshown
  obtain ⟨w, hw⟩ := List.exists_mem_of_ne_nil _ hshown
  obtain ⟨hmem, hkey, -⟩ := History.mem_shown.1 hw
  exact ⟨w, hmem, by rw [hkey]; rfl⟩

theorem mem_instanceIds {id : String} :
    id ∈ instanceIds doc ↔ doc.history.shown (.shareInstance id) ≠ [] := by
  simp only [instanceIds, List.mem_dedup, List.mem_filter, List.mem_filterMap, decide_eq_true_eq,
    and_iff_right_iff_imp]
  intro hshown
  obtain ⟨w, hw⟩ := List.exists_mem_of_ne_nil _ hshown
  obtain ⟨hmem, hkey, -⟩ := History.mem_shown.1 hw
  exact ⟨w, hmem, by rw [hkey]; rfl⟩

theorem mem_installs : (id, app) ∈ installs doc ↔ appOf doc id = some app := by
  simp only [installs, List.mem_insertionSort, List.mem_filterMap, Option.map_eq_some_iff,
    Prod.mk.injEq]
  constructor
  · rintro ⟨_, -, _, happ, rfl, rfl⟩
    exact happ
  · intro happ
    refine ⟨id, mem_ids.2 fun hnil => ?_, app, happ, rfl, rfl⟩
    simp [appOf, History.top_eq_none.2 hnil] at happ

/-- An id is looked up as what it is read as. -/
theorem find_installs (id : Block 16) :
    (installs doc).find? (·.1 = id) = (appOf doc id).map (id, ·) := by
  cases hfind : (installs doc).find? (·.1 = id) with
  | none =>
    cases happ : appOf doc id with
    | none => rfl
    | some app =>
      have hnone := List.find?_eq_none.1 hfind _ (mem_installs.2 happ)
      simp at hnone
  | some found =>
    have hid := List.find?_some hfind
    obtain rfl : found.1 = id := of_decide_eq_true hid
    rw [mem_installs.1 (List.mem_of_find?_eq_some hfind)]
    rfl

/-! ## Every run -/

structure Inv (s : Devices) : Prop where
  lawful : s.replicas.Lawful
  sound : s.replicas.Every (Sound s.minted s.adopted)
  /-- Only lists of TodoMVC are shared, under an id that is not empty. -/
  adopted : ∀ adoption ∈ s.adopted, adoption.1 ≠ "" ∧ adoption.2.app = todomvc
  chosen : ∀ actor, ∀ choice ∈ s.chosen actor, choice.1 ≠ ""

variable {s : Devices} {actor : Bytes} {sha256 : Bytes → Block 32}
  {fromStr : Bytes → Option ShareInstanceRecord}

theorem has_doc (s : Devices) (actor : Bytes) : s.replicas.Has (s.doc actor) :=
  .inl ⟨actor, rfl⟩

theorem Inv.soundDoc (h : Inv s) (hdoc : s.replicas.Has doc) :
    SoundDoc s.minted s.adopted doc :=
  ⟨(h.lawful.doc doc hdoc).named, h.sound doc hdoc⟩

theorem Inv.moves (h : Inv s) {minted : List (Block 16 × (ℕ × Bytes))}
    {adopted : List (String × ShareInstanceRecord)} (hminted : s.minted ⊆ minted)
    (hadopted : s.adopted ⊆ adopted) (ev : Replicas.Event Bytes Key Value)
    (hnew : ∀ a batch, ev = .commit a batch →
      ∀ w ∈ (s.doc a).history.added a batch, Sound minted adopted w) :
    (s.replicas.step ev).Lawful ∧ (s.replicas.step ev).Every (Sound minted adopted) := by
  have hbefore : s.replicas.Every (Sound minted adopted) :=
    fun d hd w hw => (h.sound d hd w hw).mono hminted hadopted
  exact ⟨Replicas.lawful_step _ ev h.lawful, hbefore.step ev hnew⟩

/-- A transaction of sound writes keeps what holds. -/
theorem Inv.transact (h : Inv s) {minted : List (Block 16 × (ℕ × Bytes))}
    {adopted : List (String × ShareInstanceRecord)} (hminted : s.minted ⊆ minted)
    (hadopted : s.adopted ⊆ adopted) {batch : List (Key × Option Value)}
    (hnew : ∀ w ∈ (s.doc actor).history.added actor batch, Sound minted adopted w) :
    (s.replicas.setDoc actor ((s.doc actor).transact actor batch)).Lawful ∧
      (s.replicas.setDoc actor ((s.doc actor).transact actor batch)).Every
        (Sound minted adopted) := by
  rw [Replicas.setDoc_transact]
  split_ifs
  · exact ⟨h.lawful, fun d hd w hw => (h.sound d hd w hw).mono hminted hadopted⟩
  · refine h.moves hminted hadopted (.commit actor batch) ?_
    rintro a batch' ⟨⟩
    exact hnew

theorem put_of_shown_eq_nil {key : Key} (hnil : doc.history.shown key = []) (value : Value) :
    doc.put key value = [(key, some value)] := by
  refine if_neg fun heq => ?_
  rw [History.values, hnil] at heq
  simp at heq

variable (sha256 fromStr) in
/-- `visor_route_key` changes nothing, or writes a key where none is read. -/
theorem step_routeKey (s : Devices) (actor device entropy : Bytes) :
    s.step sha256 fromStr (.routeKey actor device entropy) = s ∨
      Links.routeKey (s.doc actor) = none ∧ ∃ key,
        s.step sha256 fromStr (.routeKey actor device entropy) = { s with
          replicas := s.replicas.setDoc actor
            ((s.doc actor).transact actor (keyBatch (s.doc actor) key)) } := by
  simp only [step, routeKeyOrCreate]
  cases hkey : Links.routeKey (s.doc actor) with
  | some key =>
    refine .inl ?_
    simp only [Replicas.setDoc, Function.update_eq_self]
  -- a key is drawn only where none is read
  | none => exact .inr ⟨rfl, _, rfl⟩

variable (sha256) in
theorem installOrCreate_cases (doc : Document) (actor device entropy app : Bytes) :
    (∃ id, installOrCreate sha256 doc actor device entropy app = (doc, id, false)) ∨
      ∃ id, installOrCreate sha256 doc actor device entropy app =
        (doc.transact actor (installBatch doc actor id app), id, true) := by
  rw [installOrCreate]
  cases (installs doc).find? (·.2 = app) with
  | some found => exact .inl ⟨found.1, rfl⟩
  | none => exact .inr ⟨_, rfl⟩

variable (sha256 fromStr) in
/-- `visor_install` changes nothing, or mints an install. -/
theorem step_install (s : Devices) (actor device entropy app : Bytes) :
    s.step sha256 fromStr (.install actor device entropy app) = s ∨
      ∃ id, s.step sha256 fromStr (.install actor device entropy app) = { s with
        replicas := s.replicas.setDoc actor
          ((s.doc actor).transact actor (installBatch (s.doc actor) actor id app))
        minted := s.minted ++ [(id, (s.doc actor).history.next, actor)] } := by
  obtain ⟨id, heq⟩ | ⟨id, heq⟩ :=
    installOrCreate_cases sha256 (s.doc actor) actor device entropy app
  · refine .inl ?_
    simp [step, heq, Replicas.setDoc, Function.update_eq_self]
  · refine .inr ⟨id, ?_⟩
    simp [step, heq]

theorem Inv.routeKey (h : Inv s) (actor device entropy : Bytes) :
    Inv (s.step sha256 fromStr (.routeKey actor device entropy)) := by
  have hdoc := h.soundDoc (s.has_doc actor)
  obtain hsame | ⟨hnone, key, hstep⟩ := step_routeKey sha256 fromStr s actor device entropy
  · rwa [hsame]
  · have hnil := hdoc.shown_routeKey_eq_nil hnone
    -- no key is shown, so the new one hides none
    rw [hstep, keyBatch, put_of_shown_eq_nil hnil]
    have hnew : ∀ w ∈ (s.doc actor).history.added actor
        [(.routeKey, some (.text (hex key.toList)))], Sound s.minted s.adopted w := by
      intro w hw
      obtain rfl := List.mem_singleton.1 hw
      refine ⟨⟨key, rfl⟩, ?_⟩
      show ((s.doc actor).history.shown .routeKey).map Write.id = []
      rw [hnil, List.map_nil]
    obtain ⟨hlawful, hsound⟩ := h.transact (List.Subset.refl _) (List.Subset.refl _) hnew
    exact ⟨hlawful, hsound, h.adopted, h.chosen⟩

/-- The object of a new install has no field yet. -/
theorem SoundDoc.shown_entry_next {minted : List (Block 16 × (ℕ × Bytes))}
    {adopted : List (String × ShareInstanceRecord)} (h : SoundDoc minted adopted doc)
    (actor : Bytes) :
    doc.history.shown (.entry (doc.history.next, actor)) = [] := by
  refine List.eq_nil_iff_forall_not_mem.2 fun w hw => ?_
  obtain ⟨hmem, hkey, -⟩ := History.mem_shown.1 hw
  have hcounter : w.counter = doc.history.next + 1 :=
    congrArg Prod.fst ((h.sound w hmem).of_entry hkey).1
  have hbefore := doc.history.counter_lt_next w hmem
  omega

theorem next_write_eq (h : History Bytes Key Value) (author : Bytes) (key : Key)
    (value : Option Value) : (h.write author key value).next = h.next + 1 := by
  show max (h.next + 1) h.next = h.next + 1
  omega

theorem Inv.install (h : Inv s) (actor device entropy app : Bytes) :
    Inv (s.step sha256 fromStr (.install actor device entropy app)) := by
  have hdoc := h.soundDoc (s.has_doc actor)
  obtain hsame | ⟨id, hstep⟩ := step_install sha256 fromStr s actor device entropy app
  · rwa [hsame]
  · rw [hstep, installBatch, put_of_shown_eq_nil (hdoc.shown_entry_next actor)]
    have hnew : ∀ w ∈ (s.doc actor).history.added actor [(.install id, some .other),
        (.entry ((s.doc actor).history.next, actor), some (.text app))],
        Sound (s.minted ++ [(id, (s.doc actor).history.next, actor)]) s.adopted w := by
      intro w hw
      obtain rfl | hw := List.mem_cons.1 hw
      · exact ⟨rfl, List.mem_append_right _ (List.mem_singleton_self _)⟩
      · obtain rfl := List.mem_singleton.1 hw
        refine ⟨?_, app, rfl⟩
        -- the second operation of the batch is the one after the first
        exact Prod.ext (next_write_eq _ _ _ _) rfl
    obtain ⟨hlawful, hsound⟩ :=
      h.transact (List.subset_append_left _ _) (List.Subset.refl _) hnew
    exact ⟨hlawful, hsound, h.adopted, h.chosen⟩

theorem hexText_ne_empty (id : Block 16) : hexText id ≠ "" := by
  intro hempty
  have hlength := congrArg (List.length ∘ String.toList) hempty
  simp [hexText, length_hex] at hlength

/-- The instance that is found for a partition was adopted. -/
theorem exists_adopted_of_instanceForPartition (h : Inv s) {partition : Bytes} {id : String}
    (hfound : instanceForPartition fromStr (s.doc actor) partition = some id) :
    ∃ record, (id, record) ∈ s.adopted := by
  have hmem := (List.mem_filter.1 (List.min?_mem hfound)).1
  obtain ⟨w, hw⟩ := List.exists_mem_of_ne_nil _ (mem_instanceIds.1 hmem)
  obtain ⟨hwrite, hkey, -⟩ := History.mem_shown.1 hw
  obtain ⟨record, hrecord, -⟩ := ((h.soundDoc (s.has_doc actor)).sound w hwrite).of_instance hkey
  exact ⟨record, hrecord⟩

theorem Inv.choose (h : Inv s) (actor partition : Bytes) (entropy : Block 16) :
    Inv (s.step sha256 fromStr (.choose actor partition entropy)) where
  lawful := h.lawful
  sound := h.sound
  adopted := h.adopted
  chosen actor' choice hchoice := by
    simp only [step, Function.update_apply] at hchoice
    split_ifs at hchoice with heq
    · obtain rfl := Option.mem_some_iff.1 hchoice
      cases hfound : instanceForPartition fromStr (s.doc actor) partition with
      | none => exact hexText_ne_empty entropy
      | some id =>
        obtain ⟨record, hrecord⟩ := exists_adopted_of_instanceForPartition h hfound
        exact (h.adopted _ hrecord).1
    · exact h.chosen actor' choice hchoice

theorem Inv.adopt (h : Inv s) (actor service label : Bytes) (edit : Bool) (senderEndpoint : Bytes)
    (senderDevice : Block 32) :
    Inv (s.step sha256 fromStr (.adopt actor service label edit senderEndpoint senderDevice)) := by
  simp only [step]
  split
  next => exact h
  next id partition hchosen =>
    split_ifs with hservice
    · exact h
    have hnew : ∀ w ∈ (s.doc actor).history.added actor (recordBatch (s.doc actor) id
        ⟨partition, service, label, edit, senderEndpoint, senderDevice⟩),
        Sound s.minted (s.adopted ++
          [(id, ⟨partition, service, label, edit, senderEndpoint, senderDevice⟩)]) w := by
      intro w hw
      -- nothing is written where the very record is there
      rw [recordBatch, Doc.put] at hw
      split_ifs at hw
      · simp [History.added] at hw
      · obtain rfl := List.mem_singleton.1 hw
        exact ⟨_, List.mem_append_right _ (List.mem_singleton_self _), rfl⟩
    obtain ⟨hlawful, hsound⟩ := h.transact (List.Subset.refl _) (List.subset_append_left _ _) hnew
    refine ⟨hlawful, hsound, fun adoption hadoption => ?_, fun actor' choice hchoice => ?_⟩
    · obtain hadoption | hadoption := List.mem_append.1 hadoption
      · exact h.adopted adoption hadoption
      · rw [List.mem_singleton.1 hadoption]
        exact ⟨h.chosen actor _ hchosen, not_not.1 hservice⟩
    · simp only [Function.update_apply] at hchoice
      split_ifs at hchoice
      · simp at hchoice
      · exact h.chosen actor' choice hchoice

theorem inv_step (s : Devices) (ev : Event) (h : Inv s) : Inv (s.step sha256 fromStr ev) := by
  cases ev with
  | routeKey actor device entropy => exact h.routeKey actor device entropy
  | install actor device entropy app => exact h.install actor device entropy app
  | choose actor partition entropy => exact h.choose actor partition entropy
  | adopt actor service label edit senderEndpoint senderDevice =>
    exact h.adopt actor service label edit senderEndpoint senderDevice
  | other actor batch =>
    have hother : ∀ a batch', Replicas.Event.commit actor (batch.map fun write =>
        (Key.other write.1, write.2)) = .commit a batch' →
        ∀ w ∈ (s.doc a).history.added a batch', Sound s.minted s.adopted w := by
      rintro a batch' ⟨⟩ w hw
      obtain ⟨write, hwrite, hkey⟩ := List.mem_map.1 (History.key_of_mem_added hw)
      obtain ⟨named, -, rfl⟩ := List.mem_map.1 hwrite
      rw [Sound, ← hkey]
      trivial
    obtain ⟨hlawful, hsound⟩ := h.moves (List.Subset.refl _) (List.Subset.refl _) _ hother
    exact ⟨hlawful, hsound, h.adopted, h.chosen⟩
  | send actor =>
    obtain ⟨hlawful, hsound⟩ := h.moves (List.Subset.refl _) (List.Subset.refl _) (.send actor)
      (by simp)
    exact ⟨hlawful, hsound, h.adopted, h.chosen⟩
  | deliver actor i =>
    obtain ⟨hlawful, hsound⟩ := h.moves (List.Subset.refl _) (List.Subset.refl _) (.deliver actor i)
      (by simp)
    exact ⟨hlawful, hsound, h.adopted, h.chosen⟩

theorem inv_start : Inv ({} : Devices) :=
  ⟨Replicas.lawful_start, Replicas.every_start, by simp, by simp⟩

variable (sha256 fromStr) in
/-- What the events have come to. -/
abbrev after (evs : List Event) : Devices :=
  run (step sha256 fromStr) {} evs

variable (sha256 fromStr) in
theorem inv_after (evs : List Event) : Inv (after sha256 fromStr evs) :=
  run_preserves inv_step inv_start evs

/-- A replica keeps its changes. -/
theorem mem_changes_step (s : Devices) (ev : Event) (actor : Bytes)
    {c : Multivalue.Change Bytes Key Value} (hc : c ∈ (s.doc actor).changes) :
    c ∈ ((s.step sha256 fromStr ev).doc actor).changes := by
  have htransact (a : Bytes) (batch : List (Key × Option Value)) :
      c ∈ ((s.replicas.setDoc a ((s.doc a).transact a batch)).docs actor).changes := by
    rw [Replicas.setDoc_transact]
    split_ifs
    · exact hc
    · exact s.replicas.mem_changes_step _ actor hc
  cases ev with
  | routeKey a device entropy =>
    obtain hsame | ⟨-, key, hstep⟩ := step_routeKey sha256 fromStr s a device entropy
    · rwa [hsame]
    · rw [hstep]
      exact htransact a _
  | install a device entropy app =>
    obtain hsame | ⟨id, hstep⟩ := step_install sha256 fromStr s a device entropy app
    · rwa [hsame]
    · rw [hstep]
      exact htransact a _
  | choose a partition entropy => exact hc
  | adopt a service label edit senderEndpoint senderDevice =>
    simp only [step]
    split
    · exact hc
    · split_ifs
      · exact hc
      · exact htransact a _
  | other a batch => exact s.replicas.mem_changes_step (.commit a _) actor hc
  | send a => exact s.replicas.mem_changes_step (.send a) actor hc
  | deliver a i => exact s.replicas.mem_changes_step (.deliver a i) actor hc

variable (sha256 fromStr) in
/-- What was minted and adopted stays. -/
theorem grows_step (s : Devices) (ev : Event) :
    s.minted <+: (s.step sha256 fromStr ev).minted ∧
      s.adopted <+: (s.step sha256 fromStr ev).adopted := by
  cases ev with
  | install a device entropy app =>
    obtain hsame | ⟨id, hstep⟩ := step_install sha256 fromStr s a device entropy app
    · rw [hsame]
      exact ⟨List.prefix_rfl, List.prefix_rfl⟩
    · rw [hstep]
      exact ⟨List.prefix_append _ _, List.prefix_rfl⟩
  | adopt a service label edit senderEndpoint senderDevice =>
    simp only [step]
    split
    · exact ⟨List.prefix_rfl, List.prefix_rfl⟩
    · split_ifs
      · exact ⟨List.prefix_rfl, List.prefix_rfl⟩
      · exact ⟨List.prefix_rfl, List.prefix_append _ _⟩
  | _ => exact ⟨List.prefix_rfl, List.prefix_rfl⟩

variable (sha256 fromStr) in
/-- The devices get from one state to another. -/
def Later (s t : Devices) : Prop :=
  ∃ ls, t = run (step sha256 fromStr) s ls

variable {t : Devices}

theorem Later.inv (h : Later sha256 fromStr s t) (hs : Inv s) : Inv t := by
  obtain ⟨ls, rfl⟩ := h
  exact run_preserves inv_step hs ls

theorem Later.trans {u : Devices} (h : Later sha256 fromStr s t) (h' : Later sha256 fromStr t u) :
    Later sha256 fromStr s u := by
  obtain ⟨ls, rfl⟩ := h
  obtain ⟨ms, rfl⟩ := h'
  exact ⟨ls ++ ms, (run_append _ _ _ _).symm⟩

theorem Later.changes (h : Later sha256 fromStr s t) (actor : Bytes)
    {c : Multivalue.Change Bytes Key Value} (hc : c ∈ (s.doc actor).changes) :
    c ∈ (t.doc actor).changes := by
  obtain ⟨ls, rfl⟩ := h
  exact run_preserves (fun s ev h => mem_changes_step s ev actor h) hc ls

theorem Later.grows (h : Later sha256 fromStr s t) :
    s.minted <+: t.minted ∧ s.adopted <+: t.adopted := by
  obtain ⟨ls, rfl⟩ := h
  have hstep (u : Devices) (ev : Event) (h : s.minted <+: u.minted ∧ s.adopted <+: u.adopted) :=
    And.intro (h.1.trans (grows_step sha256 fromStr u ev).1)
      (h.2.trans (grows_step sha256 fromStr u ev).2)
  exact run_preserves hstep ⟨List.prefix_rfl, List.prefix_rfl⟩ ls

theorem Distinct.before (hd : t.Distinct) (h : Later sha256 fromStr s t) : s.Distinct :=
  ⟨hd.1.sublist (h.grows.1.sublist.map _), fun a ha b hb =>
    hd.2 a (h.grows.2.subset ha) b (h.grows.2.subset hb)⟩

/-- What a replica has of another one, it had written. -/
theorem Inv.writes (hs : Inv s) (ht : Inv t) {a b : Bytes}
    (hhas : ∀ c ∈ (s.doc a).changes, c ∈ (t.doc b).changes) {w : Write Bytes Key Value}
    (hw : w ∈ (s.doc a).history.writes) : w ∈ (t.doc b).history.writes := by
  obtain ⟨c, hc, hwc⟩ := ((hs.lawful.doc _ (s.has_doc a)).writes w).1 hw
  exact ((ht.lawful.doc _ (t.has_doc b)).writes w).2 ⟨c, hhas c hc, hwc⟩

end Devices

open Devices

/-! ## What the devices read -/

variable {sha256 : Bytes → Block 32} {fromStr : Bytes → Option ShareInstanceRecord}
  {doc doc' : Document}

instance : Std.Total inOrder := ⟨fun a b => by
  by_cases heq : a.1 = b.1
  · exact (Std.le_total (a := a.2) (b := b.2)).imp (.inr ⟨heq, ·⟩) (.inr ⟨heq.symm, ·⟩)
  · exact (Std.le_total (a := a.1.toList) (b := b.1.toList)).imp (.inl ⟨heq, ·⟩)
      (.inl ⟨Ne.symm heq, ·⟩)⟩

/-- Two ids that are each before the other are one. -/
theorem eq_of_le_of_le {a b : Block 16} (hab : a.toList ≤ b.toList) (hba : b.toList ≤ a.toList) :
    a = b :=
  List.Vector.toList_injective (Std.le_antisymm hab hba)

instance : IsTrans (Block 16 × Bytes) inOrder := ⟨fun a b c hab hbc => by
  obtain ⟨hne, hle⟩ | ⟨heq, hle⟩ := hab <;> obtain ⟨hne', hle'⟩ | ⟨heq', hle'⟩ := hbc
  · refine .inl ⟨fun heq => hne (eq_of_le_of_le hle ?_), Std.le_trans hle hle'⟩
    rwa [heq]
  · exact .inl (heq' ▸ ⟨hne, hle⟩)
  · exact .inl (heq ▸ ⟨hne', hle'⟩)
  · exact .inr ⟨heq.trans heq', Std.le_trans hle hle'⟩⟩

theorem nodup_installs (doc : Document) : ((installs doc).map Prod.fst).Nodup := by
  have hfst : (((ids doc).filterMap fun id => (appOf doc id).map (id, ·)).map Prod.fst).Sublist
      (ids doc) := by
    generalize ids doc = ids
    induction ids with
    | nil => exact .slnil
    | cons id ids ih =>
      rw [List.filterMap_cons]
      cases appOf doc id with
      | none => exact ih.cons _
      | some app => exact ih.cons_cons _
  have hnodup : (ids doc).Nodup := List.nodup_dedup _
  exact (((List.perm_insertionSort _ _).map _).nodup_iff).2 (hnodup.sublist hfst)

/-- Documents that read every id alike list the same installs, in the same order. -/
theorem installs_congr (happ : appOf doc = appOf doc') : installs doc = installs doc' := by
  have hperm : (installs doc).Perm (installs doc') := by
    refine (List.perm_ext_iff_of_nodup (.of_map _ (nodup_installs doc))
      (.of_map _ (nodup_installs doc'))).2 fun install => ?_
    have hread (d : Document) : install ∈ installs d ↔ appOf d install.1 = some install.2 :=
      mem_installs
    rw [hread, hread, happ]
  -- both are in the order of the ids, and an id is listed once
  refine hperm.eq_of_pairwise (fun a b ha hb hab hba => ?_)
    (List.pairwise_insertionSort inOrder _) (List.pairwise_insertionSort inOrder _)
  have hid : a.1 = b.1 := by
    obtain ⟨-, hle⟩ | ⟨heq, -⟩ := hab
    · obtain ⟨-, hle'⟩ | ⟨heq, -⟩ := hba
      · exact eq_of_le_of_le hle hle'
      · exact heq.symm
    · exact heq
  have happs : appOf doc' a.1 = some a.2 := happ ▸ mem_installs.1 ha
  rw [hid, mem_installs.1 hb] at happs
  exact Prod.ext hid (Option.some.inj happs).symm

/-- In every run, devices whose documents have the same changes hold the same route key and list the
same installs. -/
theorem replicas_agree (evs : List Event) (a b : Bytes)
    (hsame : ∀ c, c ∈ ((after sha256 fromStr evs).doc a).changes ↔
      c ∈ ((after sha256 fromStr evs).doc b).changes) :
    routeKey ((after sha256 fromStr evs).doc a) = routeKey ((after sha256 fromStr evs).doc b) ∧
      installs ((after sha256 fromStr evs).doc a) =
        installs ((after sha256 fromStr evs).doc b) := by
  -- the same changes show the same newest write of every key
  obtain ⟨-, -, htop⟩ := Replicas.converge (inv_after sha256 fromStr evs).lawful
    (has_doc (after sha256 fromStr evs) a) (has_doc (after sha256 fromStr evs) b) hsame
  refine ⟨?_, installs_congr ?_⟩
  · rw [routeKey, routeKey, History.newest_eq_top, History.newest_eq_top, htop]
  · ext1 id
    simp only [appOf, History.newest_eq_top, htop]

theorem launchApp_of_encode {f : Route.Primitives} {key : Block 32} {install : Block 16}
    {instanceId : Option String} {route fragment : String}
    (h : Route.encodeInstance f key install instanceId route = .ok fragment) :
    launchApp fragment = none := by
  obtain ⟨-, -, ct, -, rfl⟩ := Route.encodeInstance_eq_ok.1 h
  rw [launchApp, Option.bind_eq_none_iff]
  intro app happ
  rw [Route.stripPrefix_eq_some, utf8_append] at happ
  -- one begins with `a`, the other with `l`
  have hkind : utf8 Route.kind = [97, 112, 112, 47] := by decide +kernel
  have hlaunch : utf8 "launch/" = [108, 97, 117, 110, 99, 104, 47] := by decide +kernel
  rw [hkind, hlaunch] at happ
  exact absurd (congrArg List.head? happ) (by simp)

/-- A hash that keeps the last bytes. -/
def lastBytes (bytes : Bytes) : Block 32 :=
  ⟨(bytes.reverse ++ List.replicate 32 0).take 32, by simp⟩

/-- A list of somebody else's. -/
def sampleRecord : ShareInstanceRecord :=
  ⟨utf8 "0f3a", todomvc, utf8 "Groceries", true, utf8 "e0", List.Vector.replicate 32 7⟩

def readSample (text : Bytes) : Option ShareInstanceRecord :=
  if text = sampleRecord.json then some sampleRecord else none

/-- Two devices: the first mints an install and the route key, and the second merges them. -/
def minting : List Event := [.install [1] [1] [] (utf8 "todomvc"), .routeKey [1] [1] []]

def merging : List Event := [.send [1], .deliver [2] 0]

theorem replicas_agree_merging :
    installs ((after lastBytes readSample (minting ++ merging)).doc [1]) =
      installs ((after lastBytes readSample (minting ++ merging)).doc [2]) := by
  have hsame : ((after lastBytes readSample (minting ++ merging)).doc [1]).changes =
      ((after lastBytes readSample (minting ++ merging)).doc [2]).changes := by decide +kernel
  exact (replicas_agree (minting ++ merging) [1] [2] fun c => by rw [hsame]).2

/-- A link to a place in an app, with what `route_encode` writes it with: an install and the route
key that the document holds, and the instance of the session's document. -/
def Writes (f : Route.Primitives) (fromStr : Bytes → Option ShareInstanceRecord)
    (installed keyed shared : Document) (app : Bytes) (partition : Option Bytes)
    (instanceId : Option String) (route fragment : String) : Prop :=
  ∃ id key, (id, app) ∈ installs installed ∧ routeKey keyed = some key ∧
    instanceId = partition.bind (instanceForPartition fromStr shared) ∧
    Route.encodeInstance f key id instanceId route = .ok fragment

variable {s t : Devices} {a b : Bytes}

/-- Only sessions of TodoMVC are bound to a document. -/
theorem app_of_sessionDocument (hs : Inv s)
    (hread : ∀ adoption ∈ s.adopted, fromStr adoption.2.json = some adoption.2)
    {personal app partition : Bytes} {selected : Option String}
    (hsession : sessionDocument fromStr (s.doc a) personal app selected = some (some partition)) :
    app = todomvc := by
  cases selected with
  | none =>
    simp only [sessionDocument, Option.some.injEq] at hsession
    split_ifs at hsession with happ
    exact happ
  | some id =>
    obtain ⟨found, hfound, -⟩ := Option.map_eq_some_iff.1 hsession
    obtain ⟨record, hrecord, hpartition⟩ := Option.bind_eq_some_iff.1 hfound
    split_ifs at hpartition with happ
    have hadopted := (hs.soundDoc (has_doc s a)).shareInstance_cases hread hrecord
    exact happ.symm.trans (hs.adopted _ hadopted.1).2

/-- The instance that one device finds for a document is of that document on every device that has
what it had, where no two documents got one instance. -/
theorem instancePartition_of_has (hs : Inv s) (ht : Inv t) (hd : t.Distinct)
    (hread : ∀ adoption ∈ t.adopted, fromStr adoption.2.json = some adoption.2)
    (hsub : s.adopted ⊆ t.adopted) (hhas : ∀ c ∈ (s.doc a).changes, c ∈ (t.doc b).changes)
    {partition : Bytes} {id : String}
    (hfound : instanceForPartition fromStr (s.doc a) partition = some id) :
    id ≠ "" ∧ instancePartition fromStr (t.doc b) id todomvc = some partition := by
  have hmem := (List.mem_filter.1 (List.min?_mem hfound)).2
  obtain ⟨record, hrecord, hpartition⟩ := (Option.any_eq_true _ _).1 hmem
  obtain ⟨hadopted, w, hw, hkey⟩ := (hs.soundDoc (has_doc s a)).shareInstance_cases
    (fun adoption hadoption => hread adoption (hsub hadoption)) hrecord
  refine ⟨(hs.adopted _ hadopted).1, ?_⟩
  -- there the instance is read as one of its records, and they are all of one document
  obtain ⟨record', hrecord'⟩ := (ht.soundDoc (has_doc t b)).exists_shareInstance hread
    (hs.writes ht hhas hw) hkey
  obtain ⟨hadopted', -⟩ := (ht.soundDoc (has_doc t b)).shareInstance_cases hread hrecord'
  have hsame := hd.2 _ hadopted' _ (hsub hadopted) rfl
  rw [instancePartition, hrecord', Option.bind_some, if_pos (ht.adopted _ hadopted').2, hsame,
    of_decide_eq_true hpartition]

/-- The route key that one device holds is held by every device that has what it had, where no key
was put after it. -/
theorem routeKey_of_has (hs : Inv s) (ht : Inv t)
    (hhas : ∀ c ∈ (s.doc a).changes, c ∈ (t.doc b).changes)
    (hearlier : ∀ w ∈ (t.doc b).history.writes, w.key = .routeKey →
      ∀ u ∈ (s.doc a).history.top .routeKey, w.Before u)
    {key : Block 32} (hkey : routeKey (s.doc a) = some key) : routeKey (t.doc b) = some key := by
  have hdocs := hs.soundDoc (has_doc s a)
  have hdoct := ht.soundDoc (has_doc t b)
  obtain ⟨w, htop, hvalue⟩ := hdocs.routeKey_eq_some.1 hkey
  obtain ⟨hmem, hwkey⟩ := hdocs.mem_shown_routeKey.1 (History.mem_shown_of_top htop)
  have hshown := hdoct.mem_shown_routeKey.2 ⟨hs.writes ht hhas hmem, hwkey⟩
  refine hdoct.routeKey_eq_some.2 ⟨w, ?_, hvalue⟩
  cases htop' : (t.doc b).history.top .routeKey with
  | none =>
    rw [History.top_eq_none.1 htop'] at hshown
    simp at hshown
  | some u =>
    -- each of the two is the newest
    obtain ⟨humem, hukey⟩ := hdoct.mem_shown_routeKey.1 (History.mem_shown_of_top htop')
    have hafter : w.Before u := (before_getLast htop').2 w hshown
    have hid := (hearlier u humem hukey w htop).antisymm hafter
    rw [hdoct.named u humem w (hs.writes ht hhas hmem) hid]

/-- The app of an install is read alike on every device that has what one had, where no two installs
got one id. -/
theorem appOf_of_has (hs : Inv s) (ht : Inv t) (hds : s.Distinct) (hdt : t.Distinct)
    (hhas : ∀ c ∈ (s.doc a).changes, c ∈ (t.doc b).changes) {id : Block 16} {app : Bytes}
    (hinstall : (id, app) ∈ installs (s.doc a)) : appOf (t.doc b) id = some app := by
  obtain ⟨w, hw, hwkey, e, he, hekey, hvalue⟩ :=
    ((hs.soundDoc (has_doc s a)).appOf_eq_some hds.1).1 (mem_installs.1 hinstall)
  exact ((ht.soundDoc (has_doc t b)).appOf_eq_some hdt.1).2
    ⟨w, hs.writes ht hhas hw, hwkey, e, hs.writes ht hhas he, hekey, hvalue⟩

/-- In every run in which no two installs got one id and no two documents one instance: a link opens
on every device that has the app and what the author had, and opens as the app, the place and the
document that it was written for, unless that device holds a route key put after the author's. More
may be merged between any two of the reads, where the link is written and where it is opened. -/
theorem links_open (f : Route.Primitives) (hcipher : f.cipher.Lawful 16 (2 ^ 36))
    (htext : f.text.Canonical) (registry : List Bytes)
    {launched installed keyed written found listed opened : Devices}
    (hlaunched : Later sha256 fromStr {} launched)
    (hinstalled : Later sha256 fromStr launched installed)
    (hkeyed : Later sha256 fromStr installed keyed) (hwritten : Later sha256 fromStr keyed written)
    (hfound : Later sha256 fromStr written found) (hlisted : Later sha256 fromStr found listed)
    (hopened : Later sha256 fromStr listed opened)
    (hread : ∀ adoption ∈ opened.adopted, fromStr adoption.2.json = some adoption.2)
    (hids : opened.Distinct) {personal app : Bytes} {selected instanceId : Option String}
    {partition : Option Bytes} {route fragment : String}
    (hsession : sessionDocument fromStr (launched.doc a) personal app selected = some partition)
    (hlink : Writes f fromStr (installed.doc a) (keyed.doc a) (written.doc a) app partition
      instanceId route fragment)
    (happ : app ∈ registry)
    (hhas : ∀ c ∈ (written.doc a).changes, c ∈ (found.doc b).changes)
    (hearlier : ∀ w ∈ (found.doc b).history.writes, w.key = .routeKey →
      ∀ u ∈ (keyed.doc a).history.top .routeKey, w.Before u) :
    ∃ key, routeKey (found.doc b) = some key ∧
      routeDecode f fromStr registry (listed.doc b) (opened.doc b) key fragment =
        .ok (app, route, instanceId) ∧
      ∀ id ∈ instanceId, instancePartition fromStr (opened.doc b) id app = partition := by
  obtain ⟨id, key, hinstall, hkey, rfl, hlink⟩ := hlink
  have hi₀ := hlaunched.inv inv_start
  have hi₁ := hinstalled.inv hi₀
  have hi₂ := hkeyed.inv hi₁
  have hi₃ := hwritten.inv hi₂
  have hi₄ := hfound.inv hi₃
  have hi₅ := hlisted.inv hi₄
  have hi₆ := hopened.inv hi₅
  have hlater := hkeyed.trans hwritten
  -- the key, and the app of the install
  have hkey' : routeKey (found.doc b) = some key :=
    routeKey_of_has hi₂ hi₄ (fun c hc => hhas c (hwritten.changes a hc)) hearlier hkey
  have happOf : appOf (listed.doc b) id = some app :=
    appOf_of_has hi₁ hi₅ (hids.before (hlater.trans (hfound.trans (hlisted.trans hopened))))
      (hids.before hopened) (fun c hc => hlisted.changes b (hhas c (hlater.changes a hc))) hinstall
  -- the instance
  have hinstance : ∀ found ∈ partition.bind (instanceForPartition fromStr (written.doc a)),
      found ≠ "" ∧ instancePartition fromStr (opened.doc b) found app = partition := by
    intro found hmem
    obtain ⟨document, rfl, hmem⟩ := Option.bind_eq_some_iff.1 hmem
    have hall := hinstalled.trans (hlater.trans (hfound.trans (hlisted.trans hopened)))
    obtain rfl := app_of_sessionDocument hi₀
      (fun adoption hadoption => hread adoption (hall.grows.2.subset hadoption)) hsession
    have hlast := hfound.trans (hlisted.trans hopened)
    exact instancePartition_of_has hi₃ hi₆ hids hread hlast.grows.2.subset
      (fun c hc => hopened.changes b (hlisted.changes b (hhas c hc))) hmem
  refine ⟨key, hkey', ?_, fun found hmem => (hinstance found hmem).2⟩
  have hnonempty : partition.bind (instanceForPartition fromStr (written.doc a)) ≠ some "" :=
    fun hempty => (hinstance "" hempty).1 rfl
  rw [routeDecode, launchApp_of_encode hlink,
    (Route.decodeInstance_eq_ok hcipher htext).2 ⟨hnonempty, hlink⟩]
  simp only [find_installs, happOf, Option.map_some]
  rw [if_neg (not_not.2 happ), if_pos]
  refine (Option.all_eq_true _ _).2 fun found hmem => ?_
  obtain ⟨-, hpartition⟩ := hinstance found hmem
  obtain ⟨document, rfl, -⟩ := Option.bind_eq_some_iff.1 hmem
  rw [hpartition]
  rfl

/-- The first device adopts the list. -/
def adopting : List Event :=
  [.choose [1] sampleRecord.partition (List.Vector.replicate 16 5),
    .adopt [1] todomvc sampleRecord.label true sampleRecord.senderEndpoint
      sampleRecord.senderDevice]

/-- The id that it drew. -/
def sampleInstance : String := "05050505050505050505050505050505"

/-- The second device mints an install of its own, and opens the link that the first wrote for the
list. -/
theorem links_open_merging : ∃ fragment key,
    routeDecode Route.samplePrimitives readSample [todomvc]
        ((after lastBytes readSample (adopting ++ minting ++ merging ++
          [.install [2] [2] [] (utf8 "markdown")])).doc [2])
        ((after lastBytes readSample (adopting ++ minting ++ merging ++
          [.install [2] [2] [] (utf8 "markdown")])).doc [2]) key fragment =
      .ok (todomvc, "active", some sampleInstance) := by
  let id := newInstall lastBytes [1] [] todomvc
  let key := digest lastBytes "polyvisor:route-key" [[1], []]
  have hcipher : Route.samplePrimitives.cipher.Lawful 16 (2 ^ 36) := Cipher.lawful_tagged _ _
  obtain ⟨fragment, hfragment⟩ := @Route.exists_encodeInstance Route.samplePrimitives key id
    (some sampleInstance) "active" hcipher (by decide +kernel) (by decide +kernel)
  have hlater (ls ms : List Event) : Later lastBytes readSample (after lastBytes readSample ls)
      (after lastBytes readSample (ls ++ ms)) := ⟨ms, run_append _ _ _ _⟩
  have hlink : Writes Route.samplePrimitives readSample
      ((after lastBytes readSample (adopting ++ minting)).doc [1])
      ((after lastBytes readSample (adopting ++ minting)).doc [1])
      ((after lastBytes readSample (adopting ++ minting)).doc [1]) todomvc
      (some sampleRecord.partition) (some sampleInstance) "active" fragment :=
    ⟨id, key, by decide +kernel, by decide +kernel, by decide +kernel, hfragment⟩
  have hsession : sessionDocument readSample ((after lastBytes readSample adopting).doc [1]) []
      todomvc (some sampleInstance) = some (some sampleRecord.partition) := by decide +kernel
  obtain ⟨key, -, hopen, -⟩ := links_open Route.samplePrimitives hcipher
    Base64Url.canonical_base64Url [todomvc] ⟨adopting, rfl⟩ (hlater adopting minting) ⟨[], rfl⟩
    ⟨[], rfl⟩ (hlater _ merging) (hlater _ [.install [2] [2] [] (utf8 "markdown")]) ⟨[], rfl⟩
    (by decide +kernel) (by decide +kernel) (b := [2]) hsession hlink (by decide +kernel)
    (by decide +kernel) (by decide +kernel)
  exact ⟨fragment, key, hopen⟩

end Polyvisor.Links
