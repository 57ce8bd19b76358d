import Polyvisor.Kernel.DrivePass
import Polyvisor.Lib.Transition
import Mathlib.Data.Finset.Powerset

/-!
# The order of a pass

What a pass over the store keeps in order, whatever moves at its awaits: nothing is written once
the group has changed, payload follows the control that made its tree current, and a deletion
follows the control that retired it.

The argument follows the key. While the key is the pass's own the document only grows, so what a
batch of control has put into the store stays true of everything the pass decides afterwards, and
once the key is another one every recheck ends the pass.

## Main results

* `inv_step`: the invariant.
* `drive_ordered`: in a run whose steps are `sound`, every write sent is in order.
* `order_broken`: three runs that are not, one for each part.
-/

namespace Polyvisor.DriveOrder

open Std

variable {B : Type} {codec : DriveCodec B} {w w' : World B} {p : Pass B}

/-! ## Makers -/

theorem makes_iff {writes : List GroupWrite} {i : ℕ} {tree : TreeId} :
    makes writes i tree ↔ ∃ write v, writes[i]? = some write ∧
      RegisterValue.decode write.bytes = some v ∧ v.mode.isSome ∧
      Opaque.treeId write.slot v.nonce = tree := by
  simp only [makes, Option.any_eq_true, Bool.and_eq_true, beq_iff_eq]
  constructor
  · rintro ⟨write, hwrite, v, hv, hmode, htree⟩
    exact ⟨write, v, hwrite, hv, hmode, htree⟩
  · rintro ⟨write, v, hwrite, hv, hmode, htree⟩
    exact ⟨write, hwrite, v, hv, hmode, htree⟩

theorem lt_of_makes {writes : List GroupWrite} {i : ℕ} {tree : TreeId}
    (h : makes writes i tree) : i < writes.length := by
  obtain ⟨write, _, hwrite, _⟩ := makes_iff.1 h
  exact (List.getElem?_eq_some_iff.1 hwrite).1

/-- Writes made later change nothing of what an earlier one made. -/
theorem makes_append {writes more : List GroupWrite} {i : ℕ} {tree : TreeId}
    (hi : i < writes.length) : makes (writes ++ more) i tree = makes writes i tree := by
  simp [makes, List.getElem?_append_left hi]

/-- A tree that is current was made so by a write of the document. -/
theorem exists_makes_of_status {writes : List GroupWrite} {merged : Finset ℕ} {tree : TreeId}
    (h : Opaque.status (lifecycle writes merged) tree = some true) :
    ∃ i ∈ merged, makes writes i tree := by
  simp only [Opaque.status, Option.bind_eq_bind, Option.bind_eq_some_iff, Option.pure_def,
    Option.some_inj, Bool.and_eq_true, beq_iff_eq] at h
  obtain ⟨slot, _, v, hv, hmode, htree⟩ := h
  rw [lifecycle, RegisterGroup.getElem?_opaqueRegisters, Register.greatest_eq_some] at hv
  -- the winner is the value of a merged write of the slot
  simp only [RegisterGroup.shown, Finset.mem_biUnion, Option.mem_toFinset] at hv
  obtain ⟨⟨i, hi, hvalue⟩, _⟩ := hv
  obtain ⟨hmerged, write, hwrite, rfl⟩ := RegisterGroup.mem_ofSlot.1 (Finset.mem_filter.1 hi).1
  rw [hwrite] at hvalue
  rw [List.getElem?_map, Option.map_eq_some_iff] at hwrite
  obtain ⟨made, hmade, rfl⟩ := hwrite
  exact ⟨i, hmerged, makes_iff.2 ⟨made, v, hmade, by simpa using hvalue, hmode, htree⟩⟩

/-- What a document shows of a tree does not depend on writes made later. -/
theorem status_append {writes more : List GroupWrite} {merged : Finset ℕ} {tree : TreeId}
    (hmerged : ∀ i ∈ merged, i < writes.length) :
    Opaque.status (lifecycle (writes ++ more) merged) tree =
      Opaque.status (lifecycle writes merged) tree := by
  have hregisters (slot : SlotHash) : (lifecycle (writes ++ more) merged).registers[slot]? =
      (lifecycle writes merged).registers[slot]? := by
    simp only [lifecycle, RegisterGroup.getElem?_opaqueRegisters, List.map_append]
    rw [RegisterGroup.shown_append (by simpa using hmerged)]
  simp only [Opaque.status, hregisters]

/-! ## What items carry -/

theorem mem_carriedBy {items : List (StoreItem B)} {i : ℕ} :
    i ∈ World.carriedBy codec items ↔ ∃ item ∈ items, i ∈ codec.carries item.commit item.kind := by
  induction items with
  | nil => simp [World.carriedBy]
  | cons item items ih =>
    rw [World.carriedBy, List.foldr_cons, Finset.mem_union]
    rw [World.carriedBy] at ih
    rw [ih]
    simp

theorem carriedBy_mono {items items' : List (StoreItem B)} (h : ∀ item ∈ items, item ∈ items') :
    World.carriedBy codec items ⊆ World.carriedBy codec items' := by
  intro i hi
  obtain ⟨item, hmem, hcarries⟩ := mem_carriedBy.1 hi
  exact mem_carriedBy.2 ⟨item, h item hmem, hcarries⟩

theorem mem_carriedBy_append {items : List (StoreItem B)} {item : StoreItem B} {i : ℕ} :
    i ∈ World.carriedBy codec (items ++ [item]) ↔
      i ∈ World.carriedBy codec items ∨ i ∈ codec.carries item.commit item.kind := by
  simp only [mem_carriedBy, List.mem_append, List.mem_singleton, or_and_right, exists_or,
    exists_eq_left]

/-! ## The invariant -/

namespace World

/-- Whether the device is still in the group of this key. -/
def InGroup (w : World B) (key : Bytes32) : Prop :=
  w.engine.nameKey = some key

/-- Some merged write made the tree current. -/
def Made (w : World B) (tree : TreeId) : Prop :=
  ∃ i ∈ w.engine.merged, makes w.writes i tree

/-- The tree was made current by a write of a group the device is or was in, and if that is its
present group, the document has it. -/
def Rooted (w : World B) (tree : TreeId) : Prop :=
  ∃ i write, w.writes[i]? = some write ∧ makes w.writes i tree ∧ write.group ∈ w.keys ∧
    (w.InGroup write.group → i ∈ w.engine.merged)

/-- What the document, the storage and the store keep, pass or no pass. -/
structure Base (codec : DriveCodec B) (w : World B) : Prop where
  once : ∀ i j tree, makes w.writes i tree → makes w.writes j tree → i = j
  ofGroup : ∀ i ∈ w.engine.merged, ∃ write, w.writes[i]? = some write ∧ w.InGroup write.group
  key_mem : ∀ key, w.InGroup key → key ∈ w.keys
  keyless : w.engine.nameKey = none → w.keys = []
  rooted : ∀ item, item ∈ w.engine.content ∨ item ∈ w.engine.admitted →
    Opaque.isOpaqueTree item.tree → w.Rooted item.tree
  usTree : ∀ item ∈ w.engine.us, item.tree = Polyvisor.usTree codec.sha
  /-- What is merged is stored, or about to be. An adoption suspends this. -/
  stored : w.engine.adopting = false → ∀ i ∈ w.engine.merged,
    i ∈ w.engine.writing.getD ∅ ∨ i ∈ carriedBy codec w.engine.us
  gone : ∀ id ∈ w.gone, ∃ object, w.remote[id]? = some object ∧
    ∀ name, object.name = some name → Opaque.isOpaqueTree name.tree
  revision : w.engine.revision ≤ lastRevision
  logged : ∀ sent ∈ w.log, sent.Ordered codec w ∧ ∀ i ∈ sent.merged, i < w.writes.length

variable (codec w) (key : Bytes32)

/-- The register writes that made these items' trees current are in the store, unless they are
another group's. -/
def Led (items : List (StoreItem B)) : Prop :=
  ∀ item ∈ items, Opaque.isOpaqueTree item.tree → ∃ i write, w.writes[i]? = some write ∧
    makes w.writes i item.tree ∧
      (write.group = key → i ∈ w.engine.merged ∧ w.Carried codec key i)

/-- What was downloaded is in the store under that name. -/
def Fetched (objects : List (Download B)) : Prop :=
  ∀ object ∈ objects, w.remote[object.id]? = some ⟨object.name, some object.item⟩

/-- What is left after a deletion. -/
def RemainingInv : Remaining B → Prop
  | .posts items => w.InGroup key → w.Led codec key items
  | .cleanup objects => w.Fetched objects

/-- What stands behind a control push. -/
def AfterInv : After B → Prop
  | .content => True
  | .delete target rest =>
    w.Named key target ∧ (w.InGroup key → w.Proved codec key w.engine.members target) ∧
      w.RemainingInv codec key rest ∧
      ∀ items, rest = .posts items → w.InGroup key → w.Made target.item.tree

/-- What a phase keeps. -/
def PhaseInv : Phase B → Prop
  | .read id name rest => ∀ entry ∈ (id, name) :: rest, ∃ object,
      w.remote[entry.1]? = some object ∧ object.name = entry.2
  | .barrier next => w.AfterInv codec key next
  | .control item rest revision next => w.AfterInv codec key next ∧
      (∀ entry ∈ item :: rest, entry.tree = usTree codec.sha) ∧
      (w.InGroup key → revision ≤ w.engine.revision ∧ (revision = w.engine.revision →
        ∀ i ∈ w.engine.merged, w.Carried codec key i ∨ i ∈ carriedBy codec (item :: rest)))
  | .content item rest => w.InGroup key → w.Led codec key (item :: rest) ∧
      (Opaque.isOpaqueTree item.tree → w.Made item.tree)
  | .delete target rest => w.Named key target ∧ w.RemainingInv codec key rest ∧
      (w.InGroup key → w.Proved codec key w.engine.members target ∧
        w.Retired codec key target.item.tree)
  | _ => True

variable (p)

/-- What a pass keeps besides. -/
structure PassBase : Prop where
  key_mem : p.key ∈ w.keys
  listed : ∀ entry ∈ p.listed, ∃ object, w.remote[entry.1]? = some object ∧
    object.name = entry.2
  downloaded : w.Fetched p.downloaded
  present : ∀ name ∈ p.present, name.tree = usTree codec.sha → w.Stored name

/-- What a pass keeps. -/
structure PassInv : Prop extends PassBase codec w p where
  phase : w.PhaseInv codec p.key p.phase
  sent : ∀ retry write, p.wire = .sent retry → p.phase.write = some write →
    ∃ sent ∈ w.log, sent.passKey = p.key ∧ sent.write = write

/-- The invariant. -/
structure Inv : Prop extends Base codec w where
  pass : ∀ p, w.pass = some p → w.PassInv codec p

end World

/-! ## What a move around the pass keeps -/

/-- What may happen while a pass waits: writes, files and log grow, no `us` item leaves the store,
and as long as the device is in a group it already knew, its document grows too and the revision
shows it. -/
structure Grows (codec : DriveCodec B) (w w' : World B) : Prop where
  writes : ∃ more, w'.writes = w.writes ++ more
  remote : ∃ more, w'.remote = w.remote ++ more
  stored : ∀ name : ObjectName, name.tree = usTree codec.sha → w.Stored name → w'.Stored name
  keys : w.keys ⊆ w'.keys
  log : ∀ sent ∈ w.log, sent ∈ w'.log
  inGroup : ∀ key ∈ w.keys, w'.InGroup key → w.InGroup key
  merged : ∀ key ∈ w.keys, w'.InGroup key → w.engine.merged ⊆ w'.engine.merged
  members : ∀ key ∈ w.keys, w'.InGroup key → w.engine.members ⊆ w'.engine.members
  revision : ∀ key ∈ w.keys, w'.InGroup key → w.engine.revision ≤ w'.engine.revision ∧
    (w'.engine.revision = w.engine.revision → w'.engine.merged = w.engine.merged)

namespace Grows

theorem getElem?_writes (h : Grows codec w w') {i : ℕ} {write : GroupWrite}
    (hi : w.writes[i]? = some write) : w'.writes[i]? = some write := by
  obtain ⟨more, hmore⟩ := h.writes
  rw [hmore, List.getElem?_append_left (List.getElem?_eq_some_iff.1 hi).1, hi]

theorem getElem?_remote (h : Grows codec w w') {id : ℕ} {object : Object B}
    (hi : w.remote[id]? = some object) : w'.remote[id]? = some object := by
  obtain ⟨more, hmore⟩ := h.remote
  rw [hmore, List.getElem?_append_left (List.getElem?_eq_some_iff.1 hi).1, hi]

theorem makes (h : Grows codec w w') {i : ℕ} {tree : TreeId} (hi : i < w.writes.length) :
    makes w'.writes i tree = DriveOrder.makes w.writes i tree := by
  obtain ⟨more, hmore⟩ := h.writes
  rw [hmore, makes_append hi]

theorem carried (h : Grows codec w w') {key : Bytes32} {i : ℕ} (hi : w.Carried codec key i) :
    w'.Carried codec key i := by
  obtain ⟨commit, kind, hstored, hcarries⟩ := hi
  exact ⟨commit, kind, h.stored _ rfl hstored, hcarries⟩

theorem made (h : Grows codec w w') {key : Bytes32} (hkey : key ∈ w.keys)
    (hgroup : w'.InGroup key) {tree : TreeId} (hmade : w.Made tree) : w'.Made tree := by
  obtain ⟨i, hi, hmakes⟩ := hmade
  exact ⟨i, h.merged key hkey hgroup hi, by rwa [h.makes (lt_of_makes hmakes)]⟩

theorem retired (h : Grows codec w w') {key : Bytes32} {tree : TreeId}
    (hretired : w.Retired codec key tree) : w'.Retired codec key tree := by
  obtain ⟨merged, hcarried, ⟨i, hi, hmakes⟩, hstatus⟩ := hretired
  obtain ⟨more, hmore⟩ := h.writes
  have hlt (j : ℕ) (hj : j ∈ merged) : j < w.writes.length := (hcarried j hj).1
  refine ⟨merged, fun j hj => ⟨?_, h.carried (hcarried j hj).2⟩, ⟨i, hi, ?_⟩, ?_⟩
  · rw [hmore, List.length_append]
    exact Nat.lt_add_right _ (hlt j hj)
  · rwa [h.makes (lt_of_makes hmakes)]
  · rw [hmore, status_append hlt, hstatus]

/-- An envelope accepted from these authors is accepted from more. -/
theorem validItem_mono {authors authors' : Finset Bytes32} (hle : authors ⊆ authors')
    {item : StoreItem B} (h : Gate.validItem codec.toIntakeCodec authors item) :
    Gate.validItem codec.toIntakeCodec authors' item := by
  cases hkind : item.kind with
  | commit =>
    obtain ⟨signed, payload, hdecoded, hverifies, hpayload, hissuer, hnames⟩ :=
      (Gate.validItem_commit hkind).1 h
    exact (Gate.validItem_commit hkind).2
      ⟨signed, payload, hdecoded, hverifies, hpayload, hle hissuer, hnames⟩
  | fragment =>
    obtain ⟨hclosed, signed, payload, hdecoded, hverifies, hpayload, hissuer, hnames⟩ :=
      (Gate.validItem_fragment hkind).1 h
    exact (Gate.validItem_fragment hkind).2
      ⟨hclosed, signed, payload, hdecoded, hverifies, hpayload, hle hissuer, hnames⟩

theorem named (h : Grows codec w w') {key : Bytes32} {target : Target B}
    (hnamed : w.Named key target) : w'.Named key target :=
  ⟨hnamed.tree, hnamed.name, h.getElem?_remote hnamed.file⟩

theorem proved (h : Grows codec w w') {key : Bytes32} {members members' : Finset Bytes32}
    (hle : members ⊆ members') {target : Target B} (hproved : w.Proved codec key members target) :
    w'.Proved codec key members' target where
  toNamed := h.named hproved.toNamed
  ours := by
    rcases hproved.ours with hvalid | ⟨sent, hmem, hpass, hwrite⟩
    · exact .inl (validItem_mono hle hvalid)
    · exact .inr ⟨sent, h.log sent hmem, hpass, hwrite⟩

/-- A write that was in order still is. -/
theorem ordered (h : Grows codec w w') {sent : Sent B} (hsent : sent.Ordered codec w)
    (hlt : ∀ i ∈ sent.merged, i < w.writes.length) : sent.Ordered codec w' := by
  obtain ⟨passKey, deviceKey, merged, members, write⟩ := sent
  obtain ⟨hkey, hwrite⟩ := hsent
  refine ⟨hkey, ?_⟩
  cases write with
  | folder => trivial
  | create item =>
    intro htag i hi hmakes
    rw [h.makes (hlt i hi)] at hmakes
    exact h.carried (hwrite htag i hi hmakes)
  | delete target => exact ⟨h.proved (fun _ hmem => hmem) hwrite.1, h.retired hwrite.2⟩

theorem led (h : Grows codec w w') {key : Bytes32} (hp : key ∈ w.keys) (hgroup : w'.InGroup key)
    {items : List (StoreItem B)} (hled : w.Led codec key items) : w'.Led codec key items := by
  intro item hitem htag
  obtain ⟨i, write, hwrite, hmakes, hsame⟩ := hled item hitem htag
  refine ⟨i, write, h.getElem?_writes hwrite, ?_, fun hkey => ?_⟩
  · rwa [h.makes (lt_of_makes hmakes)]
  · obtain ⟨hmerged, hcarried⟩ := hsame hkey
    exact ⟨h.merged key hp hgroup hmerged, h.carried hcarried⟩

theorem fetched (h : Grows codec w w') {objects : List (Download B)}
    (hfetched : w.Fetched objects) : w'.Fetched objects :=
  fun object hmem => h.getElem?_remote (hfetched object hmem)

theorem remainingInv (h : Grows codec w w') {key : Bytes32} (hp : key ∈ w.keys) {rest : Remaining B}
    (hrest : w.RemainingInv codec key rest) : w'.RemainingInv codec key rest := by
  cases rest with
  | posts items =>
    intro hgroup
    exact h.led hp hgroup (hrest (h.inGroup _ hp hgroup))
  | cleanup objects => exact h.fetched hrest

theorem afterInv (h : Grows codec w w') {key : Bytes32} (hp : key ∈ w.keys) {next : After B}
    (hnext : w.AfterInv codec key next) : w'.AfterInv codec key next := by
  cases next with
  | content => trivial
  | delete target rest =>
    obtain ⟨hnamed, hproved, hrest, hmade⟩ := hnext
    refine ⟨h.named hnamed, fun hgroup => ?_, h.remainingInv hp hrest,
      fun items hitems hgroup => ?_⟩
    · exact h.proved (h.members _ hp hgroup) (hproved (h.inGroup _ hp hgroup))
    · exact h.made hp hgroup (hmade items hitems (h.inGroup _ hp hgroup))

/-- A batch whose revision still stands is as complete as it was. -/
theorem phaseInv (h : Grows codec w w') {key : Bytes32} (hp : key ∈ w.keys) {phase : Phase B}
    (hphase : w.PhaseInv codec key phase) : w'.PhaseInv codec key phase := by
  cases phase with
  | read id name rest =>
    intro entry hentry
    obtain ⟨object, hobject, hname⟩ := hphase entry hentry
    exact ⟨object, h.getElem?_remote hobject, hname⟩
  | barrier next => exact h.afterInv hp hphase
  | control item rest revision next =>
    obtain ⟨hnext, htree, hbatch⟩ := hphase
    refine ⟨h.afterInv hp hnext, htree, fun hgroup => ?_⟩
    obtain ⟨hle, hcomplete⟩ := hbatch (h.inGroup _ hp hgroup)
    obtain ⟨hrevision, hsame⟩ := h.revision _ hp hgroup
    refine ⟨hle.trans hrevision, fun heq i hi => ?_⟩
    -- the revision never goes back, so it did not move
    have hstill : w'.engine.revision = w.engine.revision := by omega
    rw [hsame hstill] at hi
    exact (hcomplete (by omega) i hi).imp_left h.carried
  | content item rest =>
    intro hgroup
    obtain ⟨hled, hmade⟩ := hphase (h.inGroup _ hp hgroup)
    exact ⟨h.led hp hgroup hled, fun htag => h.made hp hgroup (hmade htag)⟩
  | delete target rest =>
    obtain ⟨hnamed, hrest, hdelete⟩ := hphase
    refine ⟨h.named hnamed, h.remainingInv hp hrest, fun hgroup => ?_⟩
    obtain ⟨hproved, hretired⟩ := hdelete (h.inGroup _ hp hgroup)
    exact ⟨h.proved (h.members _ hp hgroup) hproved, h.retired hretired⟩
  | resolve | makeFolder | list | importControl | importPayload => trivial

theorem passBase (h : Grows codec w w') (hp : w.PassBase codec p) : w'.PassBase codec p where
  key_mem := h.keys hp.key_mem
  listed entry hentry := by
    obtain ⟨object, hobject, hname⟩ := hp.listed entry hentry
    exact ⟨object, h.getElem?_remote hobject, hname⟩
  downloaded := h.fetched hp.downloaded
  present name hname htree := h.stored name htree (hp.present name hname htree)

theorem passInv (h : Grows codec w w') (hp : w.PassInv codec p) : w'.PassInv codec p where
  toPassBase := h.passBase hp.toPassBase
  phase := h.phaseInv hp.key_mem hp.phase
  sent retry write hwire hwrite := by
    obtain ⟨sent, hmem, hpass⟩ := hp.sent retry write hwire hwrite
    exact ⟨sent, h.log sent hmem, hpass⟩

end Grows

/-! ## The moves around the pass -/

/-- The engine's storage moved, and its document did not. -/
theorem Grows.of_engine {engine : Engine B} (hkey : engine.nameKey = w.engine.nameKey)
    (hmerged : engine.merged = w.engine.merged) (hmembers : engine.members = w.engine.members)
    (hrevision : engine.revision = w.engine.revision) :
    Grows codec w { w with engine } where
  writes := ⟨[], (List.append_nil _).symm⟩
  remote := ⟨[], (List.append_nil _).symm⟩
  stored _ _ h := h
  keys _ h := h
  log _ h := h
  inGroup key _ h := by rwa [World.InGroup, hkey] at h
  merged _ _ _ := hmerged.superset
  members _ _ _ := hmembers.superset
  revision _ _ _ := ⟨hrevision.ge, fun _ => hmerged⟩

/-- The document moved on, and the revision with it. -/
theorem Grows.of_document {writes : List GroupWrite} {engine : Engine B}
    (hwrites : ∃ more, writes = w.writes ++ more) (hkey : engine.nameKey = w.engine.nameKey)
    (hmerged : w.engine.merged ⊆ engine.merged) (hmembers : w.engine.members ⊆ engine.members)
    (hrevision : engine.revision = w.engine.revision + 1) :
    Grows codec w { w with writes, engine } where
  writes := hwrites
  remote := ⟨[], (List.append_nil _).symm⟩
  stored _ _ h := h
  keys _ h := h
  log _ h := h
  inGroup key _ h := by rwa [World.InGroup, hkey] at h
  merged _ _ _ := hmerged
  members _ _ _ := hmembers
  revision _ _ _ := by
    refine ⟨by rw [hrevision]; exact Nat.le_succ _, fun h => ?_⟩
    rw [hrevision] at h
    omega

/-- A name key the device never had suspends everything that is promised of the groups it knew. -/
theorem Grows.of_newKey {key : Bytes32} (hkey : key ∉ w.keys) {engine : Engine B}
    (hname : engine.nameKey = some key) :
    Grows codec w { w with keys := key :: w.keys, engine } where
  writes := ⟨[], (List.append_nil _).symm⟩
  remote := ⟨[], (List.append_nil _).symm⟩
  stored _ _ h := h
  keys := fun _ h => List.mem_cons_of_mem _ h
  log _ h := h
  inGroup key' hmem h := by
    obtain rfl : key = key' := Option.some_inj.1 (hname.symm.trans h)
    exact absurd hmem hkey
  merged key' hmem h := by
    obtain rfl : key = key' := Option.some_inj.1 (hname.symm.trans h)
    exact absurd hmem hkey
  members key' hmem h := by
    obtain rfl : key = key' := Option.some_inj.1 (hname.symm.trans h)
    exact absurd hmem hkey
  revision key' hmem h := by
    obtain rfl : key = key' := Option.some_inj.1 (hname.symm.trans h)
    exact absurd hmem hkey

/-- Only the store, the caches, the pass and the log moved. -/
theorem Grows.of_remote {w' : World B} (hwrites : w'.writes = w.writes) (hkeys : w'.keys = w.keys)
    (hengine : w'.engine = w.engine) (hremote : ∃ more, w'.remote = w.remote ++ more)
    (hstored : ∀ name : ObjectName, name.tree = usTree codec.sha → w.Stored name → w'.Stored name)
    (hlog : ∀ sent ∈ w.log, sent ∈ w'.log) : Grows codec w w' where
  writes := ⟨[], by rw [hwrites, List.append_nil]⟩
  remote := hremote
  stored := hstored
  keys := by rw [hkeys]; exact List.Subset.refl _
  log := hlog
  inGroup key _ h := by rwa [World.InGroup, hengine] at h
  merged _ _ _ := by rw [hengine]
  members _ _ _ := by rw [hengine]
  revision _ _ _ := by rw [hengine]; exact ⟨Nat.le_refl _, fun _ => rfl⟩

namespace World

theorem Stored.append {name : ObjectName} (h : w.Stored name) (more : List (Object B)) :
    ({ w with remote := w.remote ++ more } : World B).Stored name := by
  obtain ⟨id, object, hobject, hname, hgone⟩ := h
  refine ⟨id, object, ?_, hname, hgone⟩
  rw [List.getElem?_append_left (List.getElem?_eq_some_iff.1 hobject).1, hobject]

/-- Deleting a file of an opaque tree takes no `us` item away. -/
theorem Stored.insert_gone {name : ObjectName} (h : w.Stored name)
    (htree : name.tree = usTree codec.sha) {id : ℕ} {object : Object B}
    (hobject : w.remote[id]? = some object)
    (htag : ∀ name, object.name = some name → Opaque.isOpaqueTree name.tree) :
    ({ w with gone := insert id w.gone } : World B).Stored name := by
  obtain ⟨id', object', hobject', hname, hgone⟩ := h
  refine ⟨id', object', hobject', hname, fun hmem => ?_⟩
  rcases Finset.mem_insert.1 hmem with rfl | hmem
  · obtain rfl : object = object' := Option.some_inj.1 (hobject.symm.trans hobject')
    have := htag name hname
    rw [htree, codec.us_plain] at this
    exact absurd this (by simp)
  · exact hgone hmem

namespace Base

theorem rooted_of_made (h : w.Base codec) {tree : TreeId} (hmade : w.Made tree) :
    w.Rooted tree := by
  obtain ⟨i, hi, hmakes⟩ := hmade
  obtain ⟨write, hwrite, hgroup⟩ := h.ofGroup i hi
  exact ⟨i, write, hwrite, hmakes, h.key_mem _ hgroup, fun _ => hi⟩

/-- A tree whose items may be posted was made by a write of the document. -/
theorem made_of_publishable {item : StoreItem B} (htag : Opaque.isOpaqueTree item.tree)
    (h : w.itemPublishable item) : w.Made item.tree := by
  simp only [itemPublishable, htag, Bool.not_true, Bool.false_or, beq_iff_eq] at h
  exact exists_makes_of_status h

theorem lt_length (h : w.Base codec) {i : ℕ} (hi : i ∈ w.engine.merged) :
    i < w.writes.length := by
  obtain ⟨write, hwrite, _⟩ := h.ofGroup i hi
  exact (List.getElem?_eq_some_iff.1 hwrite).1

theorem rooted_grows (hgrows : Grows codec w w') {tree : TreeId} (h : w.Rooted tree) :
    w'.Rooted tree := by
  obtain ⟨i, write, hwrite, hmakes, hkey, hmerged⟩ := h
  refine ⟨i, write, hgrows.getElem?_writes hwrite, ?_, hgrows.keys hkey, fun hgroup => ?_⟩
  · rwa [hgrows.makes (lt_of_makes hmakes)]
  · exact hgrows.merged _ hkey hgroup (hmerged (hgrows.inGroup _ hkey hgroup))

theorem logged_grows (h : w.Base codec) (hgrows : Grows codec w w') (hlog : w'.log = w.log) :
    ∀ sent ∈ w'.log, sent.Ordered codec w' ∧ ∀ i ∈ sent.merged, i < w'.writes.length := by
  intro sent hmem
  rw [hlog] at hmem
  obtain ⟨hordered, hlt⟩ := h.logged sent hmem
  obtain ⟨more, hmore⟩ := hgrows.writes
  refine ⟨hgrows.ordered hordered hlt, fun i hi => ?_⟩
  rw [hmore, List.length_append]
  exact Nat.lt_add_right _ (hlt i hi)

/-- The storage moved, and the document did not. -/
theorem of_engine (h : w.Base codec) {engine : Engine B} (hkey : engine.nameKey = w.engine.nameKey)
    (hmerged : engine.merged = w.engine.merged) (hmembers : engine.members = w.engine.members)
    (hrevision : engine.revision = w.engine.revision)
    (hrooted : ∀ item, item ∈ engine.content ∨ item ∈ engine.admitted →
      Opaque.isOpaqueTree item.tree → w.Rooted item.tree)
    (husTree : ∀ item ∈ engine.us, item.tree = Polyvisor.usTree codec.sha)
    (hstored : engine.adopting = false → ∀ i ∈ engine.merged,
      i ∈ engine.writing.getD ∅ ∨ i ∈ carriedBy codec engine.us) :
    ({ w with engine } : World B).Base codec := by
  have hgrows : Grows codec w { w with engine } := .of_engine hkey hmerged hmembers hrevision
  exact {
    once := h.once
    ofGroup := fun i hi => by
      obtain ⟨write, hwrite, hgroup⟩ := h.ofGroup i (hmerged ▸ hi)
      exact ⟨write, hwrite, hkey.trans hgroup⟩
    key_mem := fun key hgroup => h.key_mem key (hkey.symm.trans hgroup)
    keyless := fun hnone => h.keyless (hkey.symm.trans hnone)
    rooted := fun item hmem htag => rooted_grows hgrows (hrooted item hmem htag)
    usTree := husTree
    stored := hstored
    gone := h.gone
    revision := hrevision ▸ h.revision
    logged := h.logged_grows hgrows rfl }

/-- The `us` items moved. -/
theorem of_us (h : w.Base codec) {us : List (StoreItem B)} {writing : Option (Finset ℕ)}
    {adopting : Bool} (husTree : ∀ item ∈ us, item.tree = Polyvisor.usTree codec.sha)
    (hstored : adopting = false → ∀ i ∈ w.engine.merged,
      i ∈ writing.getD ∅ ∨ i ∈ carriedBy codec us) :
    ({ w with engine := { w.engine with us, writing, adopting } } : World B).Base codec :=
  h.of_engine rfl rfl rfl rfl h.rooted husTree hstored

/-- An item joins what is left of the `us` tree. -/
theorem append_us (h : w.Base codec) {us : List (StoreItem B)} (hus : us ⊆ w.engine.us)
    {item : StoreItem B} (htree : item.tree = Polyvisor.usTree codec.sha)
    {writing : Option (Finset ℕ)} {adopting : Bool}
    (hstored : adopting = false → ∀ i ∈ w.engine.merged,
      i ∈ writing.getD ∅ ∨ i ∈ carriedBy codec us ∨ i ∈ codec.carries item.commit item.kind) :
    Grows codec w { w with engine := { w.engine with us := us ++ [item], writing, adopting } } ∧
      ({ w with engine := { w.engine with us := us ++ [item], writing, adopting } } :
        World B).Base codec := by
  refine ⟨.of_engine rfl rfl rfl rfl, h.of_us ?_ fun hadopting i hi => ?_⟩
  · exact List.forall_mem_append.2
      ⟨fun entry hmem => h.usTree entry (hus hmem), List.forall_mem_singleton.2 htree⟩
  · exact (hstored hadopting i hi).imp_right mem_carriedBy_append.2

/-- The items of the other trees moved. -/
theorem of_content (h : w.Base codec) {content admitted : List (StoreItem B)}
    (hrooted : ∀ item, item ∈ content ∨ item ∈ admitted →
      Opaque.isOpaqueTree item.tree → w.Rooted item.tree) :
    ({ w with engine := { w.engine with content, admitted } } : World B).Base codec :=
  h.of_engine rfl rfl rfl rfl hrooted h.usTree h.stored

/-- A fresh write makes a tree of its own. -/
theorem once_append (h : w.Base codec) {write : GroupWrite} (hfresh : w.fresh write) :
    ∀ i j tree, makes (w.writes ++ [write]) i tree → makes (w.writes ++ [write]) j tree →
      i = j := by
  -- a tree of the new write is of no other
  have hnew (i : ℕ) (tree : TreeId) (hi : i < w.writes.length)
      (hmakes : makes (w.writes ++ [write]) i tree)
      (hlast : makes (w.writes ++ [write]) w.writes.length tree) : False := by
    obtain ⟨made, v, hmade, hv, _, rfl⟩ := makes_iff.1 hlast
    rw [List.getElem?_concat_length, Option.some_inj] at hmade
    subst hmade
    rw [makes_append hi] at hmakes
    have hnot := List.all_eq_true.1 hfresh i (List.mem_range.2 hi)
    rw [hv] at hnot
    simp only [Option.all_some, Bool.not_eq_true'] at hnot
    exact absurd hmakes (by simp [hnot])
  have hcase (i : ℕ) (tree : TreeId) (hmakes : makes (w.writes ++ [write]) i tree) :
      i < w.writes.length ∨ i = w.writes.length := by
    have := lt_of_makes hmakes
    rw [List.length_append, List.length_singleton] at this
    omega
  intro i j tree hi hj
  rcases hcase i tree hi with hlt | rfl
  · rcases hcase j tree hj with hlt' | rfl
    · rw [makes_append hlt] at hi
      rw [makes_append hlt'] at hj
      exact h.once i j tree hi hj
    · exact absurd hj fun hj => hnew i tree hlt hi hj
  · rcases hcase j tree hj with hlt' | rfl
    · exact absurd hi fun hi => hnew j tree hlt' hj hi
    · rfl

end Base

end World

namespace World

namespace Base

/-- A write was made elsewhere. -/
theorem author (h : w.Base codec) {write : GroupWrite} (hfresh : w.fresh write) :
    Grows codec w { w with writes := w.writes ++ [write] } ∧
      ({ w with writes := w.writes ++ [write] } : World B).Base codec := by
  have hgrows : Grows codec w { w with writes := w.writes ++ [write] } :=
    { writes := ⟨[write], rfl⟩
      remote := ⟨[], (List.append_nil _).symm⟩
      stored := fun _ _ h => h
      keys := fun _ h => h
      log := fun _ h => h
      inGroup := fun _ _ h => h
      merged := fun _ _ _ _ h => h
      members := fun _ _ _ _ h => h
      revision := fun _ _ _ => ⟨Nat.le_refl _, fun _ => rfl⟩ }
  exact ⟨hgrows, {
    once := h.once_append hfresh
    ofGroup := fun i hi => by
      obtain ⟨made, hmade, hgroup⟩ := h.ofGroup i hi
      exact ⟨made, hgrows.getElem?_writes hmade, hgroup⟩
    key_mem := h.key_mem
    keyless := h.keyless
    rooted := fun item hmem htag => rooted_grows hgrows (h.rooted item hmem htag)
    usTree := h.usTree
    stored := h.stored
    gone := h.gone
    revision := h.revision
    logged := h.logged_grows hgrows rfl }⟩

/-- The device founds its group. -/
theorem found (h : w.Base codec) (hnone : w.engine.nameKey = none) (key self : Bytes32) :
    Grows codec w { w with
        keys := key :: w.keys
        engine := { w.engine with nameKey := some key, members := {self} } } ∧
      ({ w with
        keys := key :: w.keys
        engine := { w.engine with nameKey := some key, members := {self} } } : World B).Base
          codec := by
  have hkeys := h.keyless hnone
  have hgrows : Grows codec w { w with
      keys := key :: w.keys
      engine := { w.engine with nameKey := some key, members := {self} } } :=
    .of_newKey (by simp [hkeys]) rfl
  -- a device without a group has merged nothing
  have hempty (i : ℕ) (hi : i ∈ w.engine.merged) : False := by
    obtain ⟨_, _, hgroup⟩ := h.ofGroup i hi
    exact absurd (hnone.symm.trans hgroup) (by simp)
  exact ⟨hgrows, {
    once := h.once
    ofGroup := fun i hi => (hempty i hi).elim
    key_mem := fun key' hgroup => by
      obtain rfl : key = key' := Option.some_inj.1 hgroup
      exact List.mem_cons_self
    keyless := fun hkey => absurd hkey (by simp)
    rooted := fun item hmem htag => rooted_grows hgrows (h.rooted item hmem htag)
    usTree := h.usTree
    stored := h.stored
    gone := h.gone
    revision := h.revision
    logged := h.logged_grows hgrows rfl }⟩

/-- The document of another group is put in place. -/
theorem adoptInstall (h : w.Base codec) {key : Bytes32} (hkey : key ∉ w.keys)
    {merged : Finset ℕ} (hgroup : w.ofGroup key merged) (hadopting : w.engine.adopting = true)
    (members : Finset Bytes32) :
    Grows codec w { w with
        keys := key :: w.keys
        engine := { w.engine with nameKey := some key, merged, members } } ∧
      ({ w with
        keys := key :: w.keys
        engine := { w.engine with nameKey := some key, merged, members } } : World B).Base
          codec := by
  have hgrows : Grows codec w { w with
      keys := key :: w.keys
      engine := { w.engine with nameKey := some key, merged, members } } := .of_newKey hkey rfl
  exact ⟨hgrows, {
    once := h.once
    ofGroup := fun i hi => by
      have hwrite := of_decide_eq_true hgroup i hi
      obtain ⟨write, hwrite, heq⟩ := (Option.any_eq_true _ _).1 hwrite
      exact ⟨write, hwrite, congrArg some (eq_of_beq heq).symm⟩
    key_mem := fun key' hsame => by
      obtain rfl : key = key' := Option.some_inj.1 hsame
      exact List.mem_cons_self
    keyless := fun hnone => absurd hnone (by simp)
    rooted := fun item hmem htag => rooted_grows hgrows (h.rooted item hmem htag)
    usTree := h.usTree
    stored := fun hno => by
      have hno : w.engine.adopting = false := hno
      rw [hadopting] at hno
      exact absurd hno (by simp)
    gone := h.gone
    revision := h.revision
    logged := h.logged_grows hgrows rfl }⟩

/-- The document takes in writes of its group, which are stored or about to be. -/
theorem of_document (h : w.Base codec) {writes more : List GroupWrite}
    (hwrites : writes = w.writes ++ more) {merged : Finset ℕ} (hmerged : w.engine.merged ⊆ merged)
    {members : Finset Bytes32} (hmembers : w.engine.members ⊆ members)
    {writing : Option (Finset ℕ)} (hlast : w.engine.revision < lastRevision)
    (honce : ∀ i j tree, makes writes i tree → makes writes j tree → i = j)
    (hgroup : ∀ i ∈ merged, i ∉ w.engine.merged → ∃ write, writes[i]? = some write ∧
      w.InGroup write.group)
    (hstored : w.engine.adopting = false → ∀ i ∈ merged,
      i ∈ writing.getD ∅ ∨ i ∈ carriedBy codec w.engine.us) :
    Grows codec w { w with
        writes
        engine := { w.engine with merged, members, revision := w.nextRevision, writing } } ∧
      ({ w with
        writes
        engine := { w.engine with merged, members, revision := w.nextRevision, writing } } :
          World B).Base codec := by
  have hnext : w.nextRevision = w.engine.revision + 1 := Nat.min_eq_left hlast
  have hgrows : Grows codec w { w with
      writes
      engine := { w.engine with merged, members, revision := w.nextRevision, writing } } :=
    .of_document ⟨more, hwrites⟩ rfl hmerged hmembers hnext
  exact ⟨hgrows, {
    once := honce
    ofGroup := fun i hi => by
      by_cases hold : i ∈ w.engine.merged
      · obtain ⟨write, hwrite, hsame⟩ := h.ofGroup i hold
        exact ⟨write, hgrows.getElem?_writes hwrite, hsame⟩
      · exact hgroup i hi hold
    key_mem := h.key_mem
    keyless := h.keyless
    rooted := fun item hmem htag => rooted_grows hgrows (h.rooted item hmem htag)
    usTree := h.usTree
    stored := hstored
    gone := h.gone
    revision := Nat.min_le_right _ _
    logged := h.logged_grows hgrows rfl }⟩

/-- `us_mutate`. -/
theorem mutate (h : w.Base codec) (write : Option (SlotHash × RegisterValue))
    (enrolled : Finset Bytes32) (hlast : w.engine.revision < lastRevision) :
    Grows codec w (w.mutate write enrolled) ∧ (w.mutate write enrolled).Base codec := by
  unfold World.mutate
  split
  next key hkey hwriting =>
    refine h.of_document (List.append_nil _).symm (fun _ hi => hi) Finset.subset_union_left hlast
      h.once (fun i hi hnot => absurd hi hnot) fun hadopting i hi => ?_
    exact (h.stored hadopting i hi).imp_left fun hold => by simp [hwriting] at hold
  next key slot v hkey hwriting =>
    dsimp only
    split
    · exact ⟨.of_engine rfl rfl rfl rfl, h⟩
    next hfresh =>
      refine h.of_document rfl (Finset.subset_insert _ _) Finset.subset_union_left hlast
        (h.once_append (by simpa using hfresh)) (fun i hi hnot => ?_) fun hadopting i hi => ?_
      · obtain rfl := (Finset.mem_insert.1 hi).resolve_right hnot
        exact ⟨_, List.getElem?_concat_length .., hkey⟩
      · -- the new write is the one being stored
        rcases Finset.mem_insert.1 hi with rfl | hold
        · exact .inl (by simp)
        · exact (h.stored hadopting i hold).imp_left fun hold => by simp [hwriting] at hold
  next => exact ⟨.of_engine rfl rfl rfl rfl, h⟩

/-- A file is created. -/
theorem append_remote (h : w.Base codec) (object : Object B) :
    Grows codec w { w with remote := w.remote ++ [object] } ∧
      ({ w with remote := w.remote ++ [object] } : World B).Base codec := by
  have hgrows : Grows codec w { w with remote := w.remote ++ [object] } :=
    .of_remote rfl rfl rfl ⟨_, rfl⟩ (fun _ _ hstored => hstored.append _) fun _ hmem => hmem
  refine ⟨hgrows, { h with gone := fun id hid => ?_, logged := h.logged_grows hgrows rfl }⟩
  obtain ⟨object', hobject, htag⟩ := h.gone id hid
  exact ⟨object', hgrows.getElem?_remote hobject, htag⟩

/-- A file of an opaque tree is deleted. -/
theorem insert_gone (h : w.Base codec) {id : ℕ} {object : Object B}
    (hobject : w.remote[id]? = some object)
    (htag : ∀ name, object.name = some name → Opaque.isOpaqueTree name.tree) :
    Grows codec w { w with gone := insert id w.gone } ∧
      ({ w with gone := insert id w.gone } : World B).Base codec := by
  have hgrows : Grows codec w { w with gone := insert id w.gone } :=
    .of_remote rfl rfl rfl ⟨[], (List.append_nil _).symm⟩
      (fun _ htree hstored => hstored.insert_gone htree hobject htag) fun _ hmem => hmem
  refine ⟨hgrows, { h with gone := fun id' hid => ?_, logged := h.logged_grows hgrows rfl }⟩
  rcases Finset.mem_insert.1 hid with rfl | hid
  · exact ⟨object, hobject, htag⟩
  · exact h.gone id' hid

variable [DecidableEq B]

/-- What happens around the pass keeps what was promised. -/
theorem worldStep (h : w.Base codec) {l : Label B} (hsound : w.sound l) :
    Grows codec w (w.worldStep codec l) ∧ (w.worldStep codec l).Base codec := by
  have hidle : Grows codec w w ∧ w.Base codec := ⟨.of_engine rfl rfl rfl rfl, h⟩
  cases l with
  | author write =>
    simp only [World.worldStep]
    split
    next hfresh => exact h.author hfresh
    next => exact hidle
  | found key self =>
    simp only [World.worldStep]
    split
    next hnone => exact h.found hnone key self
    next => exact hidle
  | mutate write enrolled => exact h.mutate write enrolled (of_decide_eq_true hsound)
  | settle item =>
    simp only [World.worldStep]
    split
    next writes hwriting =>
      split
      next hitem =>
        refine h.append_us (List.Subset.refl _) hitem.1 fun hadopting i hi => .inr ?_
        have hold := h.stored hadopting i hi
        rw [hwriting, Option.getD_some] at hold
        exact hold.symm.imp_right fun hold => hitem.2 hold
      next => exact hidle
    next => exact hidle
  | receive item =>
    simp only [World.worldStep]
    split
    next hitem =>
      exact h.append_us (List.Subset.refl _) hitem.1 fun hadopting i hi =>
        (h.stored hadopting i hi).imp_right .inl
    next => exact hidle
  | absorb items =>
    simp only [World.worldStep]
    split
    next habsorbable =>
      obtain ⟨hstored, hready⟩ := (Bool.and_eq_true _ _).mp habsorbable
      have hready := of_decide_eq_true hready
      refine h.of_document (List.append_nil _).symm Finset.subset_union_left
        Finset.subset_union_left (of_decide_eq_true hsound) h.once (fun i hi hnot => ?_)
        fun hadopting i hi => ?_
      · obtain ⟨write, hwrite, hof⟩ := (Option.any_eq_true _ _).1
          (hready i ((Finset.mem_union.1 hi).resolve_left hnot))
        exact ⟨write, hwrite, (eq_of_beq ((Bool.and_eq_true _ _).mp hof).1).symm⟩
      · rcases Finset.mem_union.1 hi with hold | hnew
        · exact h.stored hadopting i hold
        · refine .inr (carriedBy_mono (fun item hmem => ?_) hnew)
          exact of_decide_eq_true (List.all_eq_true.1 hstored item hmem)
    next => exact hidle
  | compact whole dropped =>
    simp only [World.worldStep]
    split
    next hwhole =>
      refine h.append_us (fun entry hmem => (List.mem_filter.1 hmem).1) hwhole.1
        fun hadopting i hi => (h.stored hadopting i hi).imp_right fun hold => ?_
      obtain ⟨entry, hmem, hcarries⟩ := mem_carriedBy.1 hold
      -- what the fragment replaces, it carries
      by_cases hdropped : entry ∈ dropped
      · exact .inr (hwhole.2 (mem_carriedBy.2 ⟨entry, hdropped, hcarries⟩))
      · exact .inl (mem_carriedBy.2 ⟨entry, List.mem_filter.2
          ⟨hmem, by simpa using hdropped⟩, hcarries⟩)
    next => exact hidle
  | admission item =>
    simp only [World.worldStep]
    split
    next hitem =>
      refine ⟨.of_engine rfl rfl rfl rfl, h.of_content fun entry hmem htag => ?_⟩
      rcases hmem with hmem | hmem
      · exact h.rooted entry (.inl hmem) htag
      · rcases List.mem_cons.1 hmem with rfl | hmem
        · exact h.rooted_of_made (made_of_publishable htag hitem.2)
        · exact h.rooted entry (.inr hmem) htag
    next => exact hidle
  | put item =>
    simp only [World.worldStep]
    split
    next hadmitted =>
      refine ⟨.of_engine rfl rfl rfl rfl, h.of_content fun entry hmem htag => ?_⟩
      rcases hmem with hmem | hmem
      · rcases List.mem_append.1 hmem with hmem | hmem
        · exact h.rooted entry (.inl hmem) htag
        · rw [List.mem_singleton.1 hmem] at htag ⊢
          exact h.rooted item (.inr hadmitted) htag
      · exact h.rooted entry (.inr hmem) htag
    next => exact hidle
  | discard item =>
    refine ⟨.of_engine rfl rfl rfl rfl, h.of_content fun entry hmem htag => ?_⟩
    exact h.rooted entry (hmem.imp_left List.mem_of_mem_erase) htag
  | noteRead read =>
    exact ⟨.of_engine rfl rfl rfl rfl, h.of_engine rfl rfl rfl rfl h.rooted h.usTree h.stored⟩
  | adoptForget =>
    refine ⟨.of_engine rfl rfl rfl rfl, h.of_us (by simp) fun hadopting => ?_⟩
    exact absurd hadopting (by simp)
  | adoptInstall key merged members =>
    simp only [World.worldStep]
    split
    next hinstall => exact h.adoptInstall (of_decide_eq_true hsound) hinstall.2 hinstall.1 members
    next => exact hidle
  | adoptFragment item =>
    simp only [World.worldStep]
    split
    next hitem =>
      exact h.append_us (List.Subset.refl _) hitem.2.1 fun _ i hi => .inr (.inr (hitem.2.2 hi))
    next => exact hidle
  | peerCreate object => exact h.append_remote object
  | peerDelete id =>
    simp only [World.worldStep]
    split
    next hany =>
      obtain ⟨object, hobject, hall⟩ := (Option.any_eq_true _ _).1 hany
      exact h.insert_gone hobject fun name hname => by simpa [hname] using hall
    next => exact hidle
  | dropCaches =>
    have hgrows : Grows codec w { w with folder := none, rejected := ∅ } :=
      .of_remote rfl rfl rfl ⟨[], (List.append_nil _).symm⟩ (fun _ _ hstored => hstored)
        fun _ hmem => hmem
    exact ⟨hgrows, { h with logged := h.logged_grows hgrows rfl }⟩
  | start | refreshed | unauthorized | answer | resume | judge | fail => exact hidle

end Base

end World

/-! ## The segments of the pass -/

namespace World

theorem inGroup_of_sameKey (h : w.sameKey p) : w.InGroup p.key :=
  eq_of_beq h

theorem not_inGroup_of_sameKey (h : w.sameKey p = false) : ¬ w.InGroup p.key := by
  intro hgroup
  rw [sameKey, hgroup, beq_self_eq_true] at h
  exact absurd h (by simp)

/-- The write of a phase is in order if it goes out while the device is in the group. -/
theorem ordered_of_phase (h : w.Base codec) {key : Bytes32} {phase : Phase B} {write : Write B}
    (hphase : w.PhaseInv codec key phase) (hgroup : w.InGroup key)
    (hwrite : phase.write = some write) :
    Sent.Ordered codec w ⟨key, w.engine.nameKey, w.engine.merged, w.engine.members, write⟩ := by
  refine ⟨hgroup, ?_⟩
  cases phase with
  | makeFolder =>
    cases hwrite
    trivial
  | control item rest revision next =>
    cases hwrite
    intro htag
    rw [hphase.2.1 item List.mem_cons_self, codec.us_plain] at htag
    exact absurd htag (by simp)
  | content item rest =>
    cases hwrite
    intro htag i hi hmakes
    obtain ⟨j, write, hwrite, hmakes', hsame⟩ :=
      (hphase hgroup).1 item List.mem_cons_self htag
    -- the one write that makes the tree, and it is of this group
    obtain rfl := h.once i j _ hmakes hmakes'
    obtain ⟨write', hwrite', hgroup'⟩ := h.ofGroup i hi
    rw [hwrite', Option.some_inj] at hwrite
    subst hwrite
    exact (hsame (Option.some_inj.1 (hgroup'.symm.trans hgroup))).2
  | delete target rest =>
    cases hwrite
    exact hphase.2.2 hgroup
  | resolve | list | read | importControl | importPayload | barrier => cases hwrite

/-- Sending keeps everything, and what it sends is in order. -/
theorem inv_send (h : w.Base codec) (hp : w.PassBase codec p)
    (hphase : w.PhaseInv codec p.key p.phase)
    (hgroup : p.phase.write.isSome → w.InGroup p.key) (retry : Bool) :
    (w.send p retry).Inv codec := by
  have hlog : ∀ sent ∈ w.log, sent ∈ (w.send p retry).log := fun _ hmem =>
    List.mem_append_right _ hmem
  have hgrows : Grows codec w (w.send p retry) :=
    .of_remote rfl rfl rfl ⟨[], (List.append_nil _).symm⟩ (fun _ _ hstored => hstored) hlog
  refine { h with logged := ?_, pass := ?_ }
  · intro sent hmem
    rcases List.mem_append.1 hmem with hnew | hold
    · obtain ⟨write, hwrite, rfl⟩ := Option.map_eq_some_iff.1 (Option.mem_toList.1 hnew)
      have hlt (i : ℕ) (hi : i ∈ w.engine.merged) : i < w.writes.length := h.lt_length hi
      exact ⟨hgrows.ordered (ordered_of_phase h hphase (hgroup (by simp [hwrite])) hwrite) hlt,
        hlt⟩
    · obtain ⟨hordered, hlt⟩ := h.logged sent hold
      exact ⟨hgrows.ordered hordered hlt, hlt⟩
  · rintro p' hp'
    obtain rfl := Option.some_inj.1 hp'
    have hbase := hgrows.passBase hp
    exact {
      key_mem := hbase.key_mem
      listed := hbase.listed
      downloaded := hbase.downloaded
      present := hbase.present
      phase := hgrows.phaseInv hp.key_mem hphase
      sent := fun _ write _ hwrite => by
        refine ⟨_, List.mem_append_left _ (Option.mem_toList.2
          (Option.map_eq_some_iff.2 ⟨write, hwrite, rfl⟩)), rfl, rfl⟩ }

theorem inv_finish (h : w.Base codec) : w.finish.Inv codec := by
  refine { h with logged := h.logged_grows ?_ rfl, pass := fun p hp => ?_ }
  · exact .of_remote rfl rfl rfl ⟨[], (List.append_nil _).symm⟩ (fun _ _ hstored => hstored)
      fun _ hmem => hmem
  · cases hp

/-- Whatever phase a pass is left in, if its part of the invariant holds. -/
theorem inv_setPass (h : w.Base codec) (hp : w.PassInv codec p) :
    ({ w with pass := some p } : World B).Inv codec := by
  have hgrows : Grows codec w { w with pass := some p } :=
    .of_remote rfl rfl rfl ⟨[], (List.append_nil _).symm⟩ (fun _ _ hstored => hstored)
      fun _ hmem => hmem
  refine { h with logged := h.logged_grows hgrows rfl, pass := fun p' hp' => ?_ }
  obtain rfl := Option.some_inj.1 hp'
  exact hgrows.passInv hp

theorem inv_await (h : w.Base codec) (hp : w.PassBase codec p) {phase : Phase B}
    (hphase : w.PhaseInv codec p.key phase) : (w.await p phase).Inv codec :=
  inv_setPass h {
    key_mem := hp.key_mem
    listed := hp.listed
    downloaded := hp.downloaded
    present := hp.present
    phase := hphase
    sent := fun _ _ hwire => absurd hwire (by simp) }

theorem inv_issue (h : w.Base codec) (hp : w.PassBase codec p) (phase : Phase B)
    (hphase : w.PhaseInv codec p.key phase) (hgroup : phase.write.isSome → w.InGroup p.key)
    (stale : Bool) : (w.issue p stale phase).Inv codec := by
  unfold issue
  split
  · exact inv_setPass h {
      key_mem := hp.key_mem
      listed := hp.listed
      downloaded := hp.downloaded
      present := hp.present
      phase := hphase
      sent := fun _ _ hwire => absurd hwire (by simp) }
  · exact inv_send (p := { p with phase }) h ⟨hp.key_mem, hp.listed, hp.downloaded, hp.present⟩
      hphase hgroup false

/-- `valid_store_item` and the name of a download prove the file behind it. -/
theorem proved_of_checks {object : Download B}
    (hfile : w.remote[object.id]? = some ⟨object.name, some object.item⟩)
    (htag : Opaque.isOpaqueTree object.item.tree)
    (hname : object.name = some (objectName p.key object.item))
    (hvalid : w.validStoreItem codec object.item) :
    w.Proved codec p.key w.engine.members
      ⟨object.id, objectName p.key object.item, object.item⟩ where
  tree := htag
  name := rfl
  file := by rw [← hname]; exact hfile
  ours := .inl hvalid

theorem inv_cleanupNext (h : w.Base codec) (hp : w.PassBase codec p) {objects : List (Download B)}
    (hobjects : w.Fetched objects) : (w.cleanupNext codec p objects).Inv codec := by
  induction objects with
  | nil => exact inv_finish h
  | cons object rest ih =>
    have hrest : w.Fetched rest := fun entry hmem => hobjects entry (List.mem_cons_of_mem _ hmem)
    unfold cleanupNext
    split
    · exact inv_finish h
    split
    next hchecks =>
      simp only [Bool.and_eq_true, beq_iff_eq] at hchecks
      obtain ⟨⟨⟨htag, hname⟩, hvalid⟩, _⟩ := hchecks
      have hproved := proved_of_checks (hobjects object List.mem_cons_self) htag hname hvalid
      refine inv_await h hp ⟨hproved.toNamed, fun _ => hproved, hrest, fun items hitems => ?_⟩
      cases hitems
    next => exact ih hrest

theorem inv_contentNext (h : w.Base codec) (hp : w.PassBase codec p) (stale : Bool)
    {items : List (StoreItem B)} (hled : w.InGroup p.key → w.Led codec p.key items) :
    (w.contentNext codec p stale items).Inv codec := by
  induction items with
  | nil => exact inv_cleanupNext h hp hp.downloaded
  | cons item rest ih =>
    have hrest (hgroup : w.InGroup p.key) : w.Led codec p.key rest :=
      fun entry hmem => hled hgroup entry (List.mem_cons_of_mem _ hmem)
    unfold contentNext
    split
    · exact inv_finish h
    next hsame =>
      split
      · exact ih hrest
      next hpost =>
        simp only [Bool.or_eq_true, Bool.not_eq_true', decide_eq_true_eq, not_or,
          Bool.not_eq_false] at hpost
        have hgroup : w.InGroup p.key := inGroup_of_sameKey (by simpa using hsame)
        refine inv_issue h hp (.content item rest)
          (fun hgroup => ⟨hled hgroup, fun htag => ?_⟩) (fun _ => hgroup) stale
        exact Base.made_of_publishable htag hpost.1

theorem inv_goOn (h : w.Base codec) (hp : w.PassBase codec p) (stale : Bool) {rest : Remaining B}
    (hrest : w.RemainingInv codec p.key rest) : (w.goOn codec p stale rest).Inv codec := by
  cases rest with
  | posts items => exact inv_contentNext h hp stale hrest
  | cleanup objects => exact inv_cleanupNext h hp hrest

/-- Everything the document has merged is in the store. -/
def Pushed (codec : DriveCodec B) (w : World B) (key : Bytes32) : Prop :=
  ∀ i ∈ w.engine.merged, w.Carried codec key i

/-- What is held can be posted once all control is in the store. -/
theorem led_of_pushed (h : w.Base codec) {key : Bytes32} (hpushed : w.Pushed codec key)
    (hgroup : w.InGroup key) : w.Led codec key w.engine.content := by
  intro item hitem htag
  obtain ⟨i, write, hwrite, hmakes, _, hmerged⟩ := h.rooted item (.inl hitem) htag
  refine ⟨i, write, hwrite, hmakes, ?_⟩
  rintro rfl
  exact ⟨hmerged hgroup, hpushed i (hmerged hgroup)⟩

theorem inv_pushed (h : w.Base codec) (hp : w.PassBase codec p) (stale : Bool) {next : After B}
    (hnext : w.AfterInv codec p.key next)
    (hpushed : w.InGroup p.key → w.Pushed codec p.key)
    (hmade : ∀ target rest, next = .delete target rest → w.InGroup p.key →
      w.Made target.item.tree) : (w.pushed codec p stale next).Inv codec := by
  cases next with
  | content =>
    exact inv_contentNext h hp stale fun hgroup => led_of_pushed h (hpushed hgroup) hgroup
  | delete target rest =>
    obtain ⟨hnamed, hproved, hrest, _⟩ := hnext
    simp only [pushed]
    split
    · exact inv_finish h
    next hsame =>
      have hgroup : w.InGroup p.key := inGroup_of_sameKey (by simpa using hsame)
      split
      next hstatus =>
        -- the whole document is in the store, and it says the tree is retired
        refine inv_issue h hp (.delete target rest)
          ⟨hnamed, hrest, fun hgroup => ⟨hproved hgroup, w.engine.merged, ?_, ?_, ?_⟩⟩
          (fun _ => hgroup) stale
        · exact fun i hi => ⟨h.lt_length hi, hpushed hgroup i hi⟩
        · exact hmade target rest rfl hgroup
        · exact eq_of_beq hstatus
      next => exact inv_goOn h hp stale hrest

/-- An item whose name is among the present ones is in the store. -/
theorem carried_of_present (hp : w.PassBase codec p) {item : StoreItem B}
    (htree : item.tree = usTree codec.sha) (hpresent : objectName p.key item ∈ p.present) {i : ℕ}
    (hi : i ∈ codec.carries item.commit item.kind) : w.Carried codec p.key i := by
  refine ⟨item.commit, item.kind, ?_, hi⟩
  have hstored := hp.present _ hpresent htree
  rwa [objectName, htree] at hstored

/-- The batch: when it is used up and the revision stands, all control is in the store. -/
theorem inv_controlNext (h : w.Base codec) (hp : w.PassBase codec p) (stale : Bool) {revision : ℕ}
    {next : After B} {items : List (StoreItem B)} (hnext : w.AfterInv codec p.key next)
    (htree : ∀ item ∈ items, item.tree = usTree codec.sha)
    (hgroup : w.InGroup p.key) (hle : revision ≤ w.engine.revision)
    (hbatch : revision = w.engine.revision → ∀ i ∈ w.engine.merged,
      w.Carried codec p.key i ∨ i ∈ carriedBy codec items)
    (hmade : ∀ target rest, next = .delete target rest → w.InGroup p.key →
      w.Made target.item.tree) : (w.controlNext codec p stale revision next items).Inv codec := by
  induction items with
  | nil =>
    unfold controlNext
    split
    · exact inv_await h hp hnext
    next hsame =>
      refine inv_pushed h hp stale hnext (fun _ i hi => ?_) hmade
      exact (hbatch (not_not.1 hsame).symm i hi).resolve_right (by simp [carriedBy])
  | cons item rest ih =>
    unfold controlNext
    split
    next hpresent =>
      refine ih (fun entry hmem => htree entry (List.mem_cons_of_mem _ hmem)) fun hsame i hi => ?_
      rcases hbatch hsame i hi with hcarried | hcarries
      · exact .inl hcarried
      · obtain ⟨entry, hmem, hentry⟩ := mem_carriedBy.1 hcarries
        rcases List.mem_cons.1 hmem with rfl | hmem
        · exact .inl (carried_of_present hp (htree _ List.mem_cons_self) hpresent hentry)
        · exact .inr (mem_carriedBy.2 ⟨entry, hmem, hentry⟩)
    next =>
      exact inv_issue h hp (.control item rest revision next) ⟨hnext, htree, fun _ => ⟨hle, hbatch⟩⟩
        (fun _ => hgroup) stale

/-- A cleanup is of a known tree by the condition, a deletion after a post by the invariant. -/
theorem made_of_knowsTarget {next : After B}
    (hnext : w.AfterInv codec p.key next)
    (hphase : p.phase = .barrier next ∨
      ∃ item rest revision, p.phase = .control item rest revision next)
    (hknows : w.knowsTarget p) (target : Target B) (rest : Remaining B)
    (htarget : next = .delete target rest) (hgroup : w.InGroup p.key) :
    w.Made target.item.tree := by
  subst htarget
  cases rest with
  | posts items => exact hnext.2.2.2 items rfl hgroup
  | cleanup objects =>
    rcases hphase with hphase | ⟨_, _, _, hphase⟩
    · simpa [knowsTarget, hphase, Phase.cleansUp, Made] using hknows
    · simpa [knowsTarget, hphase, Phase.cleansUp, Made] using hknows

end World

namespace World

theorem inv_takeBatch (h : w.Base codec) (hp : w.PassBase codec p) (stale : Bool) {next : After B}
    (hnext : w.AfterInv codec p.key next) (hadopting : w.engine.adopting = false)
    (hwriting : w.engine.writing = none)
    (hmade : ∀ target rest, next = .delete target rest → w.InGroup p.key →
      w.Made target.item.tree) : (w.takeBatch codec p stale next).Inv codec := by
  unfold takeBatch
  split
  next hsame =>
    have hnot : ¬ w.InGroup p.key := not_inGroup_of_sameKey (by simpa using hsame)
    exact inv_pushed h hp stale hnext (fun hgroup => absurd hgroup hnot) hmade
  next hsame =>
    have hgroup : w.InGroup p.key := inGroup_of_sameKey (by simpa using hsame)
    refine inv_controlNext h hp stale hnext h.usTree hgroup (Nat.le_refl _) (fun _ i hi => .inr ?_)
      hmade
    -- no mutation is halfway: what is merged is held
    exact (h.stored hadopting i hi).resolve_left (by simp [hwriting])

/-- A `us` item that was listed is still there. -/
theorem stored_of_listed (h : w.Base codec) (hp : w.PassBase codec p) {name : ObjectName}
    (htree : name.tree = usTree codec.sha) (hlisted : name ∈ p.listed.filterMap (·.2)) :
    w.Stored name := by
  obtain ⟨⟨id, listed⟩, hmem, rfl⟩ := List.mem_filterMap.1 hlisted
  obtain ⟨object, hobject, hname⟩ := hp.listed _ hmem
  refine ⟨id, object, hobject, hname, fun hgone => ?_⟩
  obtain ⟨object', hobject', htag⟩ := h.gone id hgone
  obtain rfl : object = object' := Option.some_inj.1 (hobject.symm.trans hobject')
  have := htag name hname
  rw [htree, codec.us_plain] at this
  exact absurd this (by simp)

theorem inv_push (h : w.Base codec) (hp : w.PassBase codec p) (stale : Bool) :
    (w.push codec p stale).Inv codec := by
  have hp' : w.PassBase codec { p with present := p.listed.filterMap (·.2) } :=
    ⟨hp.key_mem, hp.listed, hp.downloaded, fun name hname htree =>
      stored_of_listed h hp htree hname⟩
  unfold push
  dsimp only
  split
  next hsame =>
    have hnot : ¬ w.InGroup p.key :=
      not_inGroup_of_sameKey (p := p) (by simpa [sameKey] using hsame)
    refine inv_pushed h hp' stale ?_ (fun hgroup => absurd hgroup hnot) fun _ _ hnext => ?_
    · trivial
    · cases hnext
  next => exact inv_await h hp' trivial

theorem inv_controlImported (h : w.Base codec) (hp : w.PassBase codec p) (stale : Bool) :
    (w.controlImported codec p stale).Inv codec := by
  unfold controlImported
  split
  · exact inv_finish h
  split
  · exact inv_push h hp stale
  · exact inv_await h hp trivial

theorem inv_pulled (h : w.Base codec) (hp : w.PassBase codec p) (stale : Bool) :
    (w.pulled codec p stale).Inv codec := by
  unfold pulled
  split
  · exact inv_finish h
  split
  · exact inv_controlImported h hp stale
  · exact inv_await h hp trivial

theorem inv_readNext (h : w.Base codec) (hp : w.PassBase codec p) (stale : Bool)
    {entries : List (ℕ × Option ObjectName)} (hentries : ∀ entry ∈ entries, ∃ object,
      w.remote[entry.1]? = some object ∧ object.name = entry.2) :
    (w.readNext codec p stale entries).Inv codec := by
  induction entries with
  | nil => exact inv_pulled h hp stale
  | cons entry rest ih =>
    obtain ⟨id, name⟩ := entry
    unfold readNext
    split
    · exact inv_finish h
    split
    · exact ih fun entry hmem => hentries entry (List.mem_cons_of_mem _ hmem)
    · exact inv_issue h hp (.read id name rest) hentries (fun hwrite => nomatch hwrite) stale

/-- A page shows files of the store, under their names. -/
theorem listed_append (hp : w.PassBase codec p) (ids : List ℕ) :
    ∀ entry ∈ p.listed ++ w.entries ids, ∃ object, w.remote[entry.1]? = some object ∧
      object.name = entry.2 := by
  intro entry hmem
  rcases List.mem_append.1 hmem with hmem | hmem
  · exact hp.listed entry hmem
  · obtain ⟨id, _, hentry⟩ := List.mem_filterMap.1 hmem
    split at hentry
    · cases hentry
    · obtain ⟨object, hobject, rfl⟩ := Option.map_eq_some_iff.1 hentry
      exact ⟨object, hobject, rfl⟩

/-- The caches are no one's promise. -/
theorem Base.setCaches (h : w.Base codec) (folder : Option Bytes32) (rejected : Finset ℕ) :
    Grows codec w { w with folder, rejected } ∧
      ({ w with folder, rejected } : World B).Base codec := by
  have hgrows : Grows codec w { w with folder, rejected } :=
    .of_remote rfl rfl rfl ⟨[], (List.append_nil _).symm⟩ (fun _ _ hstored => hstored)
      fun _ hmem => hmem
  exact ⟨hgrows, { h with logged := h.logged_grows hgrows rfl }⟩

theorem inv_resolved (h : w.Base codec) (hp : w.PassBase codec p) (stale : Bool) :
    (w.resolved p stale).Inv codec := by
  obtain ⟨hgrows, hbase⟩ := h.setCaches (some p.key) ∅
  exact inv_issue hbase (hgrows.passBase hp) .list trivial (fun hwrite => nomatch hwrite) stale

/-- The name of a created object is present. -/
theorem passBase_created (hp : w.PassBase codec p) (hbase : w.Base codec) (item : StoreItem B) :
    ({ w with remote := w.remote ++ [⟨some (objectName p.key item), some item⟩] } :
      World B).PassBase codec { p with present := objectName p.key item :: p.present } := by
  have hgrows := (hbase.append_remote ⟨some (objectName p.key item), some item⟩).1
  have hp' := hgrows.passBase hp
  refine ⟨hp'.key_mem, hp'.listed, hp'.downloaded, fun name hname htree => ?_⟩
  rcases List.mem_cons.1 hname with rfl | hname
  · refine ⟨w.remote.length, _, List.getElem?_concat_length .., rfl, fun hgone => ?_⟩
    -- only files that were there have been deleted
    obtain ⟨object, hobject, _⟩ := hbase.gone _ hgone
    exact absurd (List.getElem?_eq_some_iff.1 hobject).1 (Nat.lt_irrefl _)
  · exact hp'.present name hname htree

/-- A `us` item was posted. -/
theorem inv_created_control (h : w.Base codec) (hp : w.PassInv codec p) (stale : Bool)
    {item : StoreItem B} {rest : List (StoreItem B)} {revision : ℕ} {next : After B}
    (hphase : p.phase = .control item rest revision next) (hknows : w.knowsTarget p) :
    (w.answered codec p stale (.control item rest revision next) .created).Inv codec := by
  obtain ⟨hgrows, hbase⟩ := h.append_remote ⟨some (objectName p.key item), some item⟩
  have hp' := passBase_created hp.toPassBase h item
  have hinv := hgrows.phaseInv hp.key_mem hp.phase
  rw [hphase] at hinv
  obtain ⟨hnext, htree, hbatch⟩ := hinv
  have hmade := fun target rest' htarget (hgroup : w.InGroup p.key) =>
    hgrows.made hp.key_mem hgroup (made_of_knowsTarget (by
      have := hp.phase
      rw [hphase] at this
      exact this.1) (.inr ⟨item, rest, revision, hphase⟩) hknows target rest' htarget hgroup)
  unfold answered
  dsimp only [land]
  split
  next hsame =>
    have hnot := not_inGroup_of_sameKey (by simpa using hsame)
    exact inv_pushed hbase hp' stale hnext (fun hgroup => absurd hgroup hnot) hmade
  next hsame =>
    have hgroup := inGroup_of_sameKey (by simpa using hsame)
    obtain ⟨hle, hcomplete⟩ := hbatch hgroup
    refine inv_controlNext hbase hp' stale hnext
      (fun entry hmem => htree entry (List.mem_cons_of_mem _ hmem)) hgroup hle
      (fun heq i hi => ?_) hmade
    rcases hcomplete heq i hi with hcarried | hcarries
    · exact .inl hcarried
    · obtain ⟨entry, hmem, hentry⟩ := mem_carriedBy.1 hcarries
      rcases List.mem_cons.1 hmem with rfl | hmem
      · exact .inl (carried_of_present hp' (htree _ List.mem_cons_self) List.mem_cons_self hentry)
      · exact .inr (mem_carriedBy.2 ⟨entry, hmem, hentry⟩)

/-- An item of another tree was posted. If its tree was retired meanwhile, it is the file to
delete. -/
theorem inv_created_content (h : w.Base codec) (hp : w.PassInv codec p) (stale : Bool)
    {item : StoreItem B} {rest : List (StoreItem B)} (hphase : p.phase = .content item rest)
    {retry : Bool} (hwire : p.wire = .sent retry) :
    (w.answered codec p stale (.content item rest) .created).Inv codec := by
  obtain ⟨hgrows, hbase⟩ := h.append_remote ⟨some (objectName p.key item), some item⟩
  have hp' := passBase_created hp.toPassBase h item
  have hinv := hgrows.phaseInv hp.key_mem hp.phase
  obtain ⟨sent, hsent, hpass, hwrite⟩ := hp.sent retry (.create item) hwire (by rw [hphase]; rfl)
  rw [hphase] at hinv
  have hrest (hgroup : w.InGroup p.key) := fun entry hmem =>
    (hinv hgroup).1 entry (List.mem_cons_of_mem _ hmem)
  unfold answered
  dsimp only [land]
  split
  · exact inv_finish hbase
  split
  next hretired =>
    have htag := ((Bool.and_eq_true _ _).mp hretired).1
    have hnamed : ({ w with remote := w.remote ++ [⟨some (objectName p.key item), some item⟩] } :
        World B).Named p.key ⟨w.remote.length, objectName p.key item, item⟩ :=
      ⟨htag, rfl, List.getElem?_concat_length ..⟩
    exact inv_await hbase hp' ⟨hnamed, fun _ => ⟨hnamed, .inr ⟨sent, hsent, hpass, hwrite⟩⟩, hrest,
      fun _ _ hgroup => (hinv hgroup).2 htag⟩
  next => exact inv_contentNext hbase hp' stale hrest

/-- The file a pass deletes is of an opaque tree, by its name. -/
theorem land_delete (h : w.Base codec) {target : Target B} (hnamed : w.Named p.key target) :
    Grows codec w { w with gone := insert target.id w.gone } ∧
      ({ w with gone := insert target.id w.gone } : World B).Base codec := by
  refine h.insert_gone hnamed.file fun name hname => ?_
  obtain rfl : target.name = name := Option.some_inj.1 hname
  rw [hnamed.name]
  exact hnamed.tree

end World

namespace World

/-- An answer takes the pass on. -/
theorem inv_answered (h : w.Inv codec) (hp : w.pass = some p) {retry : Bool}
    (hwire : p.wire = .sent retry) {a : Answer} {stale : Bool}
    (hsound : w.sound (.answer a stale)) :
    (w.answered codec p stale p.phase a).Inv codec := by
  have hpass := h.pass p hp
  have hbase := hpass.toPassBase
  have hinv := hpass.phase
  cases hphase : p.phase with
  | resolve =>
    cases a with
    | found known =>
      cases known with
      | true => exact inv_resolved h.toBase hbase stale
      | false =>
        -- the folder is created under the key of now, which is the condition's
        have hsame : w.sameKey p := by simpa [sound, hp] using hsound
        exact inv_issue h.toBase hbase .makeFolder trivial (fun _ => inGroup_of_sameKey hsame) stale
    | made | page | body | created | deleted => exact h
  | makeFolder =>
    cases a with
    | made => exact inv_resolved h.toBase hbase stale
    | found | page | body | created | deleted => exact h
  | list =>
    cases a with
    | page ids more =>
      have hlisted := listed_append hbase ids
      have hbase' (held : List ObjectName) :
          w.PassBase codec { p with listed := p.listed ++ w.entries ids, held } :=
        ⟨hbase.key_mem, hlisted, hbase.downloaded, hbase.present⟩
      unfold answered
      dsimp only
      split
      · exact inv_issue h.toBase (hbase' p.held) .list trivial (fun hwrite => nomatch hwrite) stale
      · exact inv_readNext h.toBase (hbase' _) stale hlisted
    | found | made | body | created | deleted => exact h
  | read id name rest =>
    cases a with
    | body =>
      rw [hphase] at hinv
      obtain ⟨object, hobject, hname⟩ : ∃ object, w.remote[id]? = some object ∧
          object.name = name := hinv (id, name) List.mem_cons_self
      have hrest : ∀ entry ∈ rest, ∃ object, w.remote[entry.1]? = some object ∧
          object.name = entry.2 := fun entry hmem => hinv entry (List.mem_cons_of_mem _ hmem)
      unfold answered
      dsimp only
      split
      · exact inv_readNext h.toBase hbase stale hrest
      split
      next item hitem =>
        have hdownloaded : w.Fetched (p.downloaded ++ [⟨id, name, item⟩]) := by
          intro download hmem
          rcases List.mem_append.1 hmem with hmem | hmem
          · exact hbase.downloaded download hmem
          · obtain rfl := List.mem_singleton.1 hmem
            rw [hobject, Option.bind_some] at hitem
            rw [hobject, ← hitem, ← hname]
        have hbase' : w.PassBase codec
            { p with downloaded := p.downloaded ++ [⟨id, name, item⟩] } :=
          ⟨hbase.key_mem, hbase.listed, hdownloaded, hbase.present⟩
        exact inv_readNext h.toBase hbase' stale hrest
      next =>
        obtain ⟨hgrows, hbase'⟩ := h.toBase.setCaches w.folder (insert id w.rejected)
        exact inv_readNext hbase' (hgrows.passBase hbase) stale hrest
    | found | made | page | created | deleted => exact h
  | control item rest revision next =>
    cases a with
    | created =>
      have hknows : w.knowsTarget p := by simpa [sound, hp] using hsound
      exact inv_created_control h.toBase hpass stale hphase hknows
    | found | made | page | body | deleted => exact h
  | content item rest =>
    cases a with
    | created => exact inv_created_content h.toBase hpass stale hphase hwire
    | found | made | page | body | deleted => exact h
  | delete target rest =>
    cases a with
    | deleted =>
      rw [hphase] at hinv
      obtain ⟨hgrows, hbase'⟩ := land_delete h.toBase hinv.1
      exact inv_goOn hbase' (hgrows.passBase hbase) stale
        (hgrows.remainingInv hbase.key_mem hinv.2.1)
    | found | made | page | body | created => exact h
  | importControl | importPayload | barrier =>
    cases a <;> exact h

/-- An engine call takes the pass on. -/
theorem inv_resumed (h : w.Inv codec) (hp : w.pass = some p) {stale : Bool}
    (hsound : w.sound (.resume stale)) : (w.resumed codec p stale p.phase).Inv codec := by
  have hpass := h.pass p hp
  have hbase := hpass.toPassBase
  have hinv := hpass.phase
  simp only [sound, hp, Option.all_some, Bool.and_eq_true] at hsound
  obtain ⟨hknows, hadopting⟩ := hsound
  cases hphase : p.phase with
  | importControl judged =>
    cases judged with
    | true => exact inv_controlImported h.toBase hbase stale
    | false => exact h
  | importPayload => exact inv_push h.toBase hbase stale
  | barrier next =>
    rw [hphase] at hinv hadopting
    simp only [resumed]
    split
    · exact h
    next hwriting =>
      refine inv_takeBatch h.toBase hbase stale hinv (by simpa using hadopting)
        (by simpa using hwriting) ?_
      exact made_of_knowsTarget hinv (.inl hphase) hknows
  | resolve | makeFolder | list | read | control | content | delete => exact h

/-- Accepted items are more items. -/
theorem inv_judged (h : w.Inv codec) (hp : w.pass = some p) : (w.judged codec p).Inv codec := by
  have hpass := h.pass p hp
  have hus : ∀ item ∈ w.engine.us ++ w.accepted codec p, item.tree = usTree codec.sha := by
    intro item hmem
    rcases List.mem_append.1 hmem with hmem | hmem
    · exact h.usTree item hmem
    · have haccepted := (List.mem_filter.1 hmem).2
      exact eq_of_beq ((Bool.and_eq_true _ _).mp haccepted).1
  have hstored : w.engine.adopting = false → ∀ i ∈ w.engine.merged,
      i ∈ w.engine.writing.getD ∅ ∨ i ∈ carriedBy codec (w.engine.us ++ w.accepted codec p) :=
    fun hadopting i hi => (h.stored hadopting i hi).imp_right fun hold =>
      carriedBy_mono (fun item hmem => List.mem_append_left _ hmem) hold
  exact inv_setPass (h.toBase.of_us hus hstored) {
    key_mem := hpass.key_mem
    listed := hpass.listed
    downloaded := hpass.downloaded
    present := hpass.present
    phase := trivial
    sent := fun _ _ _ hwrite => nomatch hwrite }

/-- A failed pass leaves behind what it had done. -/
theorem inv_land (h : w.Inv codec) (hp : w.pass = some p) :
    (w.land p p.phase).finish.Inv codec := by
  have hinv := (h.pass p hp).phase
  cases hphase : p.phase with
  | control item rest revision next =>
    exact inv_finish (h.toBase.append_remote ⟨some (objectName p.key item), some item⟩).2
  | content item rest =>
    exact inv_finish (h.toBase.append_remote ⟨some (objectName p.key item), some item⟩).2
  | delete target rest =>
    rw [hphase] at hinv
    exact inv_finish (land_delete h.toBase hinv.1).2
  | resolve | makeFolder | list | read | importControl | importPayload | barrier =>
    exact inv_finish h.toBase

/-- A pass begins with nothing owed. -/
theorem inv_start (h : w.Inv codec) (stale : Bool) : (w.start stale).Inv codec := by
  unfold start
  split
  next key hkey _ =>
    have hbase : w.PassBase codec { key, phase := .resolve } :=
      ⟨h.key_mem key hkey, (fun _ hmem => nomatch hmem), (fun _ hmem => nomatch hmem),
        (fun _ hmem => nomatch hmem)⟩
    dsimp only
    split
    · exact inv_issue h.toBase hbase .list trivial (fun hwrite => nomatch hwrite) stale
    · exact inv_issue h.toBase hbase .resolve trivial (fun hwrite => nomatch hwrite) stale
  next => exact h

theorem inv_empty : ({} : World B).Inv codec where
  once := by simp [makes]
  ofGroup := by simp
  key_mem := by simp [InGroup]
  keyless _ := rfl
  rooted := by simp
  usTree := by simp
  stored := by simp
  gone := by simp
  revision := Nat.zero_le _
  logged := by simp
  pass := by simp

theorem inv_passStep (h : w.Inv codec) {l : Label B} (hsound : w.sound l) :
    (w.passStep codec l).Inv codec := by
  cases l with
  | start stale => exact inv_start h stale
  | refreshed =>
    simp only [passStep]
    split
    next p hp =>
      split
      next retry hwire =>
        have hpass := h.pass p hp
        refine inv_send h.toBase hpass.toPassBase hpass.phase (fun hwrite => ?_) retry
        -- the condition is for a write alone
        rcases Option.isSome_iff_exists.1 hwrite with ⟨write, hwrite⟩
        exact inGroup_of_sameKey (by simpa [sound, hp, hwrite] using hsound)
      next => exact h
    next => exact h
  | unauthorized =>
    simp only [passStep]
    split
    next p hp =>
      have hpass := h.pass p hp
      split
      · exact inv_setPass h.toBase {
          key_mem := hpass.key_mem
          listed := hpass.listed
          downloaded := hpass.downloaded
          present := hpass.present
          phase := hpass.phase
          sent := fun _ _ hwire => nomatch hwire }
      · exact inv_finish h.toBase
      · exact h
    next => exact h
  | answer a stale =>
    simp only [passStep]
    split
    next p hp =>
      split
      next retry hwire => exact inv_answered h hp hwire hsound
      next => exact h
    next => exact h
  | resume stale =>
    simp only [passStep]
    split
    next p hp => exact inv_resumed h hp hsound
    next => exact h
  | judge =>
    simp only [passStep]
    split
    next p hp =>
      split
      · exact inv_judged h hp
      · exact h
    next => exact h
  | fail landed =>
    simp only [passStep]
    split
    next p hp =>
      split
      · exact inv_land h hp
      · exact inv_finish h.toBase
    next => exact h
  | author | found | mutate | settle | receive | absorb | compact | admission | put | discard
  | noteRead | adoptForget | adoptInstall | adoptFragment | peerCreate | peerDelete
  | dropCaches => exact h

variable [DecidableEq B]

theorem pass_worldStep (l : Label B) : (w.worldStep codec l).pass = w.pass := by
  cases l <;> simp only [worldStep, mutate] <;> repeat' split
  all_goals rfl

/-- One step of the condition keeps the invariant. -/
theorem inv_step (h : w.Inv codec) {l : Label B} (hsound : w.sound l) :
    (w.step codec l).Inv codec := by
  have hworld : (w.worldStep codec l).Inv codec := by
    obtain ⟨hgrows, hbase⟩ := h.toBase.worldStep (l := l) hsound
    refine { hbase with pass := fun p hp => ?_ }
    rw [pass_worldStep] at hp
    exact hgrows.passInv (h.pass p hp)
  unfold step
  split
  all_goals first | exact inv_passStep h hsound | exact hworld

end World

/-! ## The order of a run -/

/-- In a run of sound steps, every write of a pass goes out under the key of its pass; payload of
an opaque tree is posted after the register writes that made the tree current; and a file is
deleted only if it is proved to be ours and the store has the register writes that retired its
tree. -/
theorem drive_ordered [DecidableEq B] (codec : DriveCodec B) (ls : List (Label B))
    (h : Transition.Meets (World.step codec) (fun w l => w.sound l = true) {} ls) :
    (Transition.run (World.step codec) {} ls).Ordered codec :=
  fun sent hmem => ((Transition.run_preserves_of_meets
    (fun _ _ hsound hinv => World.inv_step hinv hsound) h World.inv_empty).logged sent hmem).1

/-! ## Three runs out of order -/

section Samples

/-- The `n`th value of a slot, and the tree it makes current. -/
def sampleValue (n : ℕ) : RegisterValue := ⟨n, BitVec.ofNat 128 n, some .groupSealed⟩

def sampleTree (n : ℕ) : TreeId := Opaque.treeId 9 (BitVec.ofNat 128 n)

/-- An item, and its envelope signed by a device. -/
def sampleItem (tree : TreeId) (n : ℕ) : StoreItem Unit :=
  ⟨tree, BitVec.ofNat 256 n, [UInt8.ofNat n], (), .commit⟩

def sampleSigned (tree : TreeId) (n : ℕ) (author : Bytes32) : Signed LooseCommit :=
  ⟨author, [UInt8.ofNat n], some ⟨tree, BitVec.ofNat 256 n, [], ⟨0, 0⟩⟩⟩

/-- Item 20 enrols device 2 and is signed by device 1; item 21 enrols device 3 and is signed by
device 2. Items 22 and 23 carry the two values of the slot, signed by devices 1 and 3, and item 24
is payload of the second tree. -/
def sampleCodec : DriveCodec Unit where
  blobMeta _ := ⟨0, 0⟩
  ciphertextRefs _ := none
  sharedCref _ _ := 0
  hashRefs _ := 0
  itemId _ _ _ := 0
  decodeCommit bytes :=
    [sampleSigned 0 20 1, sampleSigned 0 21 2, sampleSigned 0 22 1, sampleSigned 0 23 3,
      sampleSigned (sampleTree 2) 24 3].find? fun signed => signed.bytes = bytes
  decodeFragment _ := none
  minimize _ commits := commits
  sha _ := 0
  verifies _ := true
  authorityScope _ _ := true
  carries commit _ := if commit = 22 then {0} else if commit = 23 then {1} else ∅
  enrols commit _ := if commit = 20 then {2} else if commit = 21 then {3} else ∅
  us_plain := by decide

/-- Where a run of the sample ends. -/
def sampleEnd (ls : List (Label Unit)) : World Unit :=
  Transition.run (World.step sampleCodec) {} ls

/-- A device that has enrolled another and made the first tree current, with nothing posted yet. -/
def sampleGroup : List (Label Unit) :=
  [.found 5 1, .mutate none {2}, .settle (sampleItem 0 20),
    .mutate (some (9, sampleValue 1)) ∅, .settle (sampleItem 0 22)]

/-- A pull from an empty store. -/
def emptyPull : List (Label Unit) :=
  [.start false, .answer (.found true) false, .answer (.page [] false) false]

/-- An adoption drops the `us` items while a pass waits at its first barrier. -/
def adoptedUnderway : List (Label Unit) :=
  sampleGroup ++ [.admission (sampleItem (sampleTree 1) 30), .put (sampleItem (sampleTree 1) 30)] ++
    emptyPull ++ [.adoptForget, .resume false]

/-- Device 3, enrolled by device 2, has made the second tree current. One pull brings its
enrolment, its register write and its payload; the register write is judged by the members of
before. -/
def newerTree : List (Label Unit) :=
  sampleGroup ++ [.author ⟨⟨9, (sampleValue 2).encode, {0}, []⟩, 5⟩] ++
    [sampleItem 0 21, sampleItem 0 23, sampleItem (sampleTree 2) 24].map
      (fun item => .peerCreate ⟨some (objectName 5 item), some item⟩) ++
    [.start false, .answer (.found true) false, .answer (.page [0, 1, 2] false) false,
      .answer .body false, .answer .body false, .answer .body false, .judge,
      .absorb [sampleItem 0 21], .resume false, .resume false, .answer .created false,
      .answer .created false, .resume false]

/-- A group is adopted while the token is refreshed for a post. -/
def adoptedInRefresh : List (Label Unit) :=
  sampleGroup ++ emptyPull ++ [.resume true, .adoptForget, .adoptInstall 6 ∅ {1}, .refreshed]

/-- The store's control says of the second tree that it is current, however much of it is read. -/
theorem not_retired_newerTree {key : Bytes32} :
    ¬ (sampleEnd newerTree).Retired sampleCodec key (sampleTree 2) := by
  rintro ⟨merged, hcarried, ⟨i, hi, hmakes⟩, hstatus⟩
  have hlength : (sampleEnd newerTree).writes.length = 2 := by decide +kernel
  have hrange : merged ∈ (Finset.range 2).powerset :=
    Finset.mem_powerset.2 fun j hj => Finset.mem_range.2 (hlength ▸ (hcarried j hj).1)
  have hcurrent : ∀ merged ∈ (Finset.range 2).powerset, ∀ i ∈ merged,
      makes (sampleEnd newerTree).writes i (sampleTree 2) →
        Opaque.status (lifecycle (sampleEnd newerTree).writes merged) (sampleTree 2) =
          some true := by
    decide +kernel
  rw [hcurrent merged hrange i hi hmakes] at hstatus
  cases hstatus

/-- Payload is posted and the register write that made its tree current is not in the store; a
file of the current tree is deleted and nothing in the store retires it; and a file is created
under the key of a group the device has left. -/
theorem order_broken :
    (∃ sent ∈ (sampleEnd adoptedUnderway).log, ∃ item, sent.write = .create item ∧
      Opaque.isOpaqueTree item.tree ∧ ∃ i ∈ sent.merged,
        makes (sampleEnd adoptedUnderway).writes i item.tree ∧
          ¬ (sampleEnd adoptedUnderway).Carried sampleCodec sent.passKey i) ∧
    (∃ sent ∈ (sampleEnd newerTree).log, ∃ target, sent.write = .delete target ∧
      ¬ (sampleEnd newerTree).Retired sampleCodec sent.passKey target.item.tree) ∧
    (∃ sent ∈ (sampleEnd adoptedInRefresh).log, ∃ item, sent.write = .create item ∧
      sent.deviceKey ≠ some sent.passKey) := by
  refine ⟨?_, ?_, ?_⟩
  · have hlog : (sampleEnd adoptedUnderway).log =
        [⟨5, some 5, {0}, {1, 2}, .create (sampleItem (sampleTree 1) 30)⟩] := rfl
    refine ⟨_, hlog ▸ List.mem_cons_self, _, rfl, by decide +kernel, 0, by simp, ?_, ?_⟩
    · decide +kernel
    · rintro ⟨_, _, ⟨id, object, hobject, _⟩, _⟩
      have hempty : (sampleEnd adoptedUnderway).remote = [] := by decide +kernel
      simp [hempty] at hobject
  · have hlog : (sampleEnd newerTree).log.head? = some ⟨5, some 5, {0}, {1, 2, 3},
        .delete ⟨2, objectName 5 (sampleItem (sampleTree 2) 24), sampleItem (sampleTree 2) 24⟩⟩ :=
      rfl
    exact ⟨_, List.mem_of_head? hlog, _, rfl, not_retired_newerTree⟩
  · have hlog : (sampleEnd adoptedInRefresh).log =
        [⟨5, some 6, ∅, {1}, .create (sampleItem 0 20)⟩] := rfl
    refine ⟨_, hlog ▸ List.mem_cons_self, _, rfl, ?_⟩
    decide

/-- A tree is replaced while its payload is being posted: the control goes up, and the payload
just posted is deleted again. -/
def replacedInFlight : List (Label Unit) :=
  sampleGroup ++ [.admission (sampleItem (sampleTree 1) 30), .put (sampleItem (sampleTree 1) 30)] ++
    emptyPull ++ [.resume false, .answer .created false, .answer .created true, .refreshed,
      .mutate (some (9, sampleValue 2)) ∅, .settle (sampleItem 0 23), .answer .created false,
      .resume false, .answer .created false, .answer .deleted false]

/-- What that pass sent. -/
theorem drive_ordered_replacedInFlight :
    (sampleEnd replacedInFlight).log.length = 5 ∧
      (sampleEnd replacedInFlight).Ordered sampleCodec :=
  ⟨by decide +kernel, drive_ordered sampleCodec replacedInFlight (by decide +kernel)⟩

end Samples

end Polyvisor.DriveOrder
