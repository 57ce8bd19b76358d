import Polyvisor.Engine.Item
import Polyvisor.Lib.Transition
import Mathlib.Data.Finset.Insert

/-!
# Founding a group

`open_us` of `engine/src/lib.rs` with the `hydrate` and `open_vault` it goes through, on one device
and across restarts. Any number of calls run at once; a step of the machine is what one of them does
between two awaits, and every await may fail. A vault is named by its group and document, of type
`V`.

The document is installed before the awaits that fill it, and a call that finds a document returns
`Ok` without a look into it.

A commit that the driver was handed is stored at some time later, and at the latest when a round
trip to the driver is answered. What was in storage when it was last settled goes into the next
delta, together with the vault, and a restart rebuilds the document from what the journal holds.
Other calls write the document once their `open_us` has answered. Compaction keeps what it rolls up.

## Main results

* `Inv` and `inv_step`: what every step keeps that meets no founding in its window and fails none.
* `group_founded`: in a run of such steps an `Ok` means that the document lists the device and names
  its vault, and that storage holds the commits that say so.
* `unfounded_ok`: the other runs.
-/

namespace Polyvisor.Founding

open Transition

variable {V : Type}

/-- A commit of the group document, as far as it matters here. -/
inductive UsCommit (V : Type) where
  | member (key : Bytes32)
  | keyhive (vault : V)
  deriving DecidableEq

/-- The commit names a vault. -/
def UsCommit.isKeyhive : UsCommit V → Bool
  | .member _ => false
  | .keyhive _ => true

/-- `UsDoc`. -/
structure UsDoc (V : Type) where
  members : Finset Bytes32 := ∅
  keyhive : Option V := none
  deriving DecidableEq

/-- `add_member` and `set_keyhive`, or absorbing what they wrote. -/
def UsDoc.apply (doc : UsDoc V) : UsCommit V → UsDoc V
  | .member key => { doc with members := insert key doc.members }
  | .keyhive vault => { doc with keyhive := some vault }

/-- The document that storage gives. -/
def UsDoc.absorb (commits : List (UsCommit V)) : UsDoc V :=
  commits.foldl UsDoc.apply {}

/-- Where a call stands, by the await it is in. -/
inductive Pc (V : Type) where
  /-- Not begun, or answered. -/
  | done
  /-- In `hydrate`, handing restored trees over. -/
  | hydrating
  /-- In `open_vault`, called from `hydrate` or not: restoring a vault, or creating one. -/
  | opening (restored : Option V) (hydrate : Bool)
  /-- In `hydrate`, absorbing the restored trees. -/
  | absorbing
  /-- Subscribing a connection to the tree, with so many to follow. -/
  | subscribing (conns : ℕ)
  /-- `add_commits`. -/
  | adding (commit : UsCommit V)
  /-- `tree_heads`. -/
  | flushing (commit : UsCommit V)
  /-- `publish_keyhive`. -/
  | publishing
  deriving DecidableEq

/-- The document is installed and something it has to say is not stored yet. -/
def Pc.isFilling : Pc V → Bool
  | .subscribing _ => true
  | .adding _ => true
  | .flushing _ => true
  | _ => false

/-- The call has installed the document. -/
def Pc.isFounding : Pc V → Bool
  | .publishing => true
  | pc => pc.isFilling

/-- What `open_vault` took to restore, where the call is in it. -/
def Pc.restored : Pc V → Option (Option V)
  | .opening restored _ => some restored
  | _ => none

/-- Restoring a vault. -/
def Pc.isRestoring : Pc V → Bool
  | .opening (some _) _ => true
  | _ => false

/-- The engine, its journal, and whether an `open_us` has answered `Ok` since it was built. -/
structure Device (V : Type) where
  me : Bytes32
  us : Option (UsDoc V) := none
  vault : Option V := none
  pendingVault : Option V := none
  pendingHydration : Bool := false
  /-- How many connections there are. -/
  conns : ℕ := 0
  calls : List (Pc V) := []
  /-- The commits of the group's tree the driver was handed and has not stored. -/
  queued : List (UsCommit V) := []
  stored : List (UsCommit V) := []
  /-- What was stored when storage was last settled. -/
  settled : List (UsCommit V) := []
  /-- What the journal holds of the tree, and the vault it records. -/
  journal : Option (List (UsCommit V) × Option V) := none
  answered : Bool := false
  deriving DecidableEq

namespace Device

variable (e : Device V) (id : ℕ)

/-- A call goes on to its next await. -/
def goto (pc : Pc V) : Device V :=
  { e with calls := e.calls.set id pc }

/-- A call answers. -/
def answer (ok : Bool) : Device V :=
  { e.goto id .done with answered := e.answered || ok }

/-- The commits handed to the driver are stored. -/
def flush : Device V :=
  { e with stored := e.stored ++ e.queued, queued := [] }

/-- A commit is made, and goes to `push_us_commits`. -/
def push (doc : UsDoc V) (commit : UsCommit V) : Device V :=
  { e with us := some (doc.apply commit) }.goto id (.adding commit)

/-- The founder names its vault. -/
def nameKeyhive : Device V :=
  match e.us with
  | none => e.answer id false
  | some doc =>
    if doc.keyhive.isNone then
      match e.vault with
      | none => e.answer id false
      | some vault => e.push id doc (.keyhive vault)
    else e.goto id .publishing

/-- A device is in its own group. -/
def enlist : Device V :=
  match e.us with
  | none => e.answer id false
  | some doc => if doc.members = ∅ then e.push id doc (.member e.me) else e.nameKeyhive id

/-- Subscribe so many connections. -/
def subscribe : ℕ → Device V
  | 0 => e.enlist id
  | conns + 1 => e.goto id (.subscribing conns)

/-- `open_us`, past the vault. -/
def openGroup : Device V :=
  match e.us with
  | some _ => e.answer id true
  | none => { e with us := some (UsDoc.absorb e.stored) }.subscribe id e.conns

/-- What follows `open_vault` in its caller. -/
def afterVault (hydrate : Bool) : Device V :=
  if hydrate then e.goto id .absorbing else e.openGroup id

/-- `open_vault`, up to its await. -/
def openVault (hydrate : Bool) : Device V :=
  match e.vault with
  | some _ => e.afterVault id hydrate
  | none =>
    match e.pendingVault with
    | some vault => { e with pendingVault := none }.goto id (.opening (some vault) hydrate)
    | none => e.goto id (.opening none hydrate)

/-- `open_us`, up to its first await. -/
def openUs : Device V :=
  if e.pendingHydration then { e with pendingHydration := false }.goto id .hydrating
  else e.openVault id false

/-- The await of a call succeeded. A vault it created is the one given. -/
def proceed (created : V) : Device V :=
  match e.calls[id]? with
  | none => e
  | some .done => e
  | some .hydrating =>
    if e.pendingVault.isSome || e.vault.isSome then e.openVault id true else e.goto id .absorbing
  | some (.opening restored hydrate) =>
    { e with vault := some (restored.getD created) }.afterVault id hydrate
  | some .absorbing => e.openVault id false
  | some (.subscribing conns) => e.subscribe id conns
  | some (.adding commit) => { e with queued := e.queued ++ [commit] }.goto id (.flushing commit)
  | some (.flushing (.member _)) => e.flush.nameKeyhive id
  | some (.flushing (.keyhive _)) => e.flush.goto id .publishing
  | some .publishing => e.answer id true

/-- The vault a delta records. -/
def recordedVault : Option V :=
  e.vault.or e.pendingVault

/-- The process stops, and an engine is built from the journal. -/
def restart (pendingHydration : Bool) : Device V :=
  let (commits, vault) := e.journal.getD ([], none)
  { me := e.me
    us := if commits.isEmpty then none else some (UsDoc.absorb commits)
    pendingVault := vault
    pendingHydration := pendingHydration || !commits.isEmpty
    stored := commits
    settled := commits
    journal := e.journal }

end Device

/-- What can happen next. -/
inductive Label (V : Type) where
  /-- A call of `open_us`. -/
  | call
  /-- What a call awaits succeeds. -/
  | succeed (id : ℕ) (created : V)
  /-- What a call awaits fails. -/
  | fail (id : ℕ)
  /-- The driver stores what it was handed. -/
  | store
  /-- A call that was answered enrols a member, and its commit is stored or not. -/
  | enrol (key : Bytes32) (landed : Bool)
  /-- Connections come and go. -/
  | connections (conns : ℕ)
  /-- `settle_persistence`. -/
  | settle
  /-- A delta is prepared that is going to be committed. -/
  | persist
  | restart (pendingHydration : Bool)
  deriving DecidableEq

namespace Device

/-- One step. A label that does not apply changes nothing. -/
def step (e : Device V) : Label V → Device V
  | .call => { e with calls := e.calls ++ [Pc.done] }.openUs e.calls.length
  | .succeed id created => e.proceed id created
  | .fail id =>
    match e.calls[id]? with
    | none => e
    | some .done => e
    -- what absorbing does not apply is no error
    | some .absorbing => e.openVault id false
    | some _ => e.answer id false
  | .store => e.flush
  | .enrol key landed =>
    if e.answered then
      { e with
        us := e.us.map fun doc => doc.apply (.member key)
        stored := if landed then e.stored ++ [.member key] else e.stored }
    else e
  | .connections conns => { e with conns }
  | .settle => { e with settled := e.stored }
  | .persist => { e with journal := some (e.settled, e.recordedVault) }
  | .restart pendingHydration => e.restart pendingHydration

/-- The group is founded: the document lists the device and names its vault, and storage holds the
commits that say so. -/
def Founded (e : Device V) : Prop :=
  ∃ doc vault, e.us = some doc ∧ e.me ∈ doc.members ∧ doc.keyhive = some vault ∧
    e.vault = some vault ∧ .member e.me ∈ e.stored ∧ .keyhive vault ∈ e.stored

/-- Whether a call comes to `openGroup` when its await succeeds, or when it begins. -/
def reachesGroup (e : Device V) : Pc V → Bool
  | .done => !e.pendingHydration && e.vault.isSome
  | .absorbing => e.vault.isSome
  | .opening _ false => true
  | _ => false

/-- No call that has installed the document is still filling it. -/
def Filled (e : Device V) : Prop :=
  ∀ pc ∈ e.calls, pc.isFilling = false

instance (e : Device V) : Decidable e.Filled :=
  inferInstanceAs (Decidable (∀ pc ∈ e.calls, pc.isFilling = false))

/-- A vault that is going to be installed takes the place of no other one. -/
def Fits (e : Device V) (restored : Option V) (vault : V) : Prop :=
  (∀ other ∈ e.vault, other = vault) ∧
    (restored = none → ∀ pc ∈ e.calls, ∀ other ∈ pc.restored.join, other = vault)

instance [DecidableEq V] (e : Device V) (restored : Option V) (vault : V) :
    Decidable (e.Fits restored vault) :=
  inferInstanceAs (Decidable (_ ∧ _))

/-- The step meets no founding in its window and fails none, and leaves the vault the one the
document names. -/
def Undisturbed (e : Device V) : Label V → Prop
  -- a call that finds a document finds it filled
  | .call => e.reachesGroup .done → e.us.isSome → e.Filled
  | .succeed id created => ∀ pc ∈ e.calls[id]?, pc ≠ .done →
    (e.reachesGroup pc → e.us.isSome → e.Filled) ∧
      ∀ restored ∈ pc.restored, e.Fits restored (restored.getD created)
  -- nothing fails once the document is installed, and no restoring of a vault does
  | .fail id => ∀ pc ∈ e.calls[id]?, pc.isFounding = false ∧ pc.isRestoring = false ∧
    (pc = .absorbing → e.vault.isSome → e.us.isSome → e.Filled)
  -- storage is not settled between the two commits
  | .settle => e.stored = [] ∨ .member e.me ∈ e.stored ∧ ∃ c ∈ e.stored, c.isKeyhive
  -- no delta is prepared while the vault is being restored
  | .persist => e.vault = none → ∀ pc ∈ e.calls, pc.isRestoring = false
  | _ => True

instance [DecidableEq V] (e : Device V) : (l : Label V) → Decidable (e.Undisturbed l)
  | .call => inferInstanceAs (Decidable (_ → _ → _))
  | .succeed id created => inferInstanceAs (Decidable (∀ pc ∈ e.calls[id]?, pc ≠ .done →
    (e.reachesGroup pc → e.us.isSome → e.Filled) ∧
      ∀ restored ∈ pc.restored, e.Fits restored (restored.getD created)))
  | .fail id => inferInstanceAs (Decidable (∀ pc ∈ e.calls[id]?, _ ∧ _ ∧ (_ → _ → _ → _)))
  | .settle => inferInstanceAs (Decidable (_ ∨ _ ∧ ∃ c ∈ e.stored, _))
  | .persist => inferInstanceAs (Decidable (_ → ∀ pc ∈ e.calls, _))
  | .store => instDecidableTrue
  | .enrol _ _ => instDecidableTrue
  | .connections _ => instDecidableTrue
  | .restart _ => instDecidableTrue

end Device

section Absorb

/-- The commits of a founded group: the founder is a member and one vault is named. -/
structure Names (me : Bytes32) (vault : V) (commits : List (UsCommit V)) : Prop where
  member : .member me ∈ commits
  keyhive : .keyhive vault ∈ commits
  names : ∀ other, .keyhive other ∈ commits → other = vault

theorem mem_members_foldl (commits : List (UsCommit V)) (doc : UsDoc V) (key : Bytes32) :
    key ∈ (commits.foldl UsDoc.apply doc).members ↔
      key ∈ doc.members ∨ .member key ∈ commits := by
  induction commits generalizing doc with
  | nil => simp
  | cons commit commits ih =>
    rw [List.foldl_cons, ih]
    cases commit with
    | member other =>
      simp only [UsDoc.apply, Finset.mem_insert, List.mem_cons, UsCommit.member.injEq]
      tauto
    | keyhive vault => simp [UsDoc.apply]

theorem keyhive_foldl {commits : List (UsCommit V)} {doc : UsDoc V} {vault : V}
    (names : ∀ other, .keyhive other ∈ commits → other = vault)
    (h : .keyhive vault ∈ commits ∨ doc.keyhive = some vault) :
    (commits.foldl UsDoc.apply doc).keyhive = some vault := by
  induction commits generalizing doc with
  | nil => simpa using h
  | cons commit commits ih =>
    have names' := fun other hother => names other (List.mem_cons_of_mem _ hother)
    rw [List.foldl_cons]
    cases commit with
    | member key => exact ih names' (by simpa [UsDoc.apply] using h)
    | keyhive other =>
      -- whichever vault this commit names, it is the one all of them name
      have hother : other = vault := names other List.mem_cons_self
      exact ih names' (.inr (by rw [UsDoc.apply, hother]))

theorem Names.absorb {me : Bytes32} {vault : V} {commits : List (UsCommit V)}
    (h : Names me vault commits) :
    me ∈ (UsDoc.absorb commits).members ∧ (UsDoc.absorb commits).keyhive = some vault :=
  ⟨(mem_members_foldl commits {} me).2 (.inr h.member), keyhive_foldl h.names (.inl h.keyhive)⟩

theorem Names.append_member {me : Bytes32} {vault : V} {commits : List (UsCommit V)}
    (h : Names me vault commits) (key : Bytes32) : Names me vault (commits ++ [.member key]) where
  member := List.mem_append_left _ h.member
  keyhive := List.mem_append_left _ h.keyhive
  names other hother := h.names other (by simpa using hother)

theorem Names.pair (me : Bytes32) (vault : V) : Names me vault [.member me, .keyhive vault] where
  member := by simp
  keyhive := by simp
  names other hother := by simpa using hother

end Absorb

theorem Pc.isFilling_of_not_isFounding {pc : Pc V} (h : pc.isFounding = false) :
    pc.isFilling = false := by
  cases pc <;> simp_all [Pc.isFounding, Pc.isFilling]

theorem mem_set_of_ne {calls : List (Pc V)} {id : ℕ} {pc₀ pc x : Pc V} (hx : x ∈ calls)
    (hid : calls[id]? = some pc₀) (hne : x ≠ pc₀) : x ∈ calls.set id pc := by
  obtain ⟨i, hi⟩ := List.getElem?_of_mem hx
  have hii : id ≠ i := by
    rintro rfl
    exact hne (Option.some.inj (hi.symm.trans hid))
  exact List.mem_of_getElem? (by rw [List.getElem?_set_ne hii, hi])

namespace Device

/-- The vault that is open, or the one that is going to be: recorded, or being restored. -/
def Origin (e : Device V) (vault : V) : Prop :=
  e.vault = some vault ∨ e.vault = none ∧
    (e.pendingVault = some vault ∨ ∃ hydrate, .opening (some vault) hydrate ∈ e.calls)

/-- The document and the storage of a device whose group is founded. -/
structure Ready (e : Device V) (doc : UsDoc V) (vault : V) : Prop where
  member : e.me ∈ doc.members
  keyhive : doc.keyhive = some vault
  stored : Names e.me vault e.stored
  queued : e.queued = []
  origin : e.Origin vault

/-- How far a founding has come, by the await it is in. -/
def Stage (e : Device V) (doc : UsDoc V) (vault : V) : Pc V → Prop
  | .subscribing _ => doc = {} ∧ e.stored = [] ∧ e.queued = []
  | .adding (.member key) => key = e.me ∧ doc = ⟨{e.me}, none⟩ ∧ e.stored = [] ∧ e.queued = []
  | .flushing (.member key) =>
    key = e.me ∧ doc = ⟨{e.me}, none⟩ ∧ e.stored ++ e.queued = [.member e.me]
  | .adding (.keyhive other) =>
    other = vault ∧ doc = ⟨{e.me}, some vault⟩ ∧ e.stored = [.member e.me] ∧ e.queued = []
  | .flushing (.keyhive other) =>
    other = vault ∧ doc = ⟨{e.me}, some vault⟩ ∧
      e.stored ++ e.queued = [.member e.me, .keyhive vault]
  | _ => True

/-- What holds in every state, as long as no founding is met in its window or fails. -/
structure Inv (e : Device V) : Prop where
  ungrouped : e.us = none → e.stored = [] ∧ e.queued = [] ∧ e.settled = [] ∧
    e.answered = false ∧ ∀ pc ∈ e.calls, pc.isFounding = false
  one : ∀ (i j : ℕ) (pc pc' : Pc V), e.calls[i]? = some pc → e.calls[j]? = some pc' →
    pc.isFounding → pc'.isFounding → i = j
  filling : ∀ pc ∈ e.calls, pc.isFilling → ∃ doc vault, e.us = some doc ∧
    e.vault = some vault ∧ e.answered = false ∧ e.Stage doc vault pc
  filled : ∀ doc, e.us = some doc → e.Filled → ∃ vault, e.Ready doc vault
  opened : ∀ pc ∈ e.calls, pc.isFounding → e.vault.isSome
  answered : e.answered → e.vault.isSome ∧ e.Filled
  restoring : ∀ vault hydrate, .opening (some vault) hydrate ∈ e.calls →
    e.pendingVault = none ∧ (∀ other, e.vault = some other → other = vault) ∧
      ∀ other hydrate', .opening (some other) hydrate' ∈ e.calls → other = vault
  pending : e.pendingVault.isSome → e.vault = none ∧
    ∀ restored hydrate, .opening restored hydrate ∉ e.calls
  settled : e.settled = [] ∨ ∃ vault, Names e.me vault e.settled ∧ e.Origin vault
  journal : ∀ items recorded, e.journal = some (items, recorded) →
    items = [] ∨ ∃ vault, Names e.me vault items ∧ recorded = some vault

theorem inv_start (me : Bytes32) : Inv ({ me } : Device V) where
  ungrouped := by simp
  one := by simp
  filling := by simp
  filled := by simp
  opened := by simp
  answered := by simp
  restoring := by simp
  pending := by simp
  settled := .inl rfl
  journal := by simp

section Moves

variable {e : Device V} {id : ℕ} {pc₀ pc : Pc V} {vault : V}

/-- What a call restores stays on its way as long as that call is in its await, or there is a vault
by the time it goes on. -/
theorem Origin.goto (h : e.Origin vault) (hid : e.calls[id]? = some pc₀)
    (hvault : pc₀.isRestoring → e.vault.isSome) : (e.goto id pc).Origin vault := by
  refine h.imp_right fun ⟨hnone, hfrom⟩ => ⟨hnone, hfrom.imp_right fun ⟨hydrate, hmem⟩ => ?_⟩
  refine ⟨hydrate, mem_set_of_ne hmem hid ?_⟩
  rintro rfl
  simp [Pc.isRestoring, hnone] at hvault

theorem filled_of_goto (hid : e.calls[id]? = some pc₀) (hfrom : pc₀.isFilling = false)
    (h : (e.goto id pc).Filled) : e.Filled := by
  intro x hx
  by_cases hx₀ : x = pc₀
  · rw [hx₀, hfrom]
  · exact h x (mem_set_of_ne hx hid hx₀)

theorem mem_goto {x : Pc V} (h : x ∈ (e.goto id pc).calls) : x ∈ e.calls ∨ x = pc :=
  List.mem_or_eq_of_mem_set h

theorem goto_getElem? {x : Pc V} {i : ℕ} (h : (e.goto id pc).calls[i]? = some x) :
    i ≠ id ∧ e.calls[i]? = some x ∨ i = id ∧ x = pc := by
  by_cases hi : id = i
  · subst hi
    have hlt : id < e.calls.length := by
      simpa [Device.goto] using (List.getElem?_eq_some_iff.1 h).1
    rw [Device.goto, List.getElem?_set_self hlt] at h
    obtain rfl := Option.some.inj h
    exact .inr ⟨rfl, rfl⟩
  · rw [Device.goto, List.getElem?_set_ne hi] at h
    exact .inl ⟨Ne.symm hi, h⟩

/-- A call goes from an await that is no part of a founding to another one. -/
theorem Inv.goto (h : Inv e) (hid : e.calls[id]? = some pc₀) (hfrom : pc₀.isFilling = false)
    (hvault : pc₀.isRestoring → e.vault.isSome) (hto : pc.isFounding = false)
    (hopen : ∀ restored hydrate, pc = .opening restored hydrate →
      restored = none ∧ e.pendingVault = none) : Inv (e.goto id pc) where
  ungrouped hus := by
    obtain ⟨hstored, hqueued, hsettled, hanswered, hcalls⟩ := h.ungrouped hus
    refine ⟨hstored, hqueued, hsettled, hanswered, fun x hx => ?_⟩
    obtain hx | rfl := mem_goto hx
    exacts [hcalls x hx, hto]
  one i j pc₁ pc₂ h₁ h₂ hf₁ hf₂ := by
    obtain ⟨-, h₁⟩ | ⟨-, rfl⟩ := goto_getElem? h₁
    · obtain ⟨-, h₂⟩ | ⟨-, rfl⟩ := goto_getElem? h₂
      · exact h.one i j pc₁ pc₂ h₁ h₂ hf₁ hf₂
      · simp [hto] at hf₂
    · simp [hto] at hf₁
  filling x hx hfilling := by
    obtain hx | rfl := mem_goto hx
    · exact h.filling x hx hfilling
    · simp [Pc.isFilling_of_not_isFounding hto] at hfilling
  filled doc hus hfilled := by
    obtain ⟨v, hready⟩ := h.filled doc hus (filled_of_goto hid hfrom hfilled)
    exact ⟨v, hready.member, hready.keyhive, hready.stored, hready.queued,
      hready.origin.goto hid hvault⟩
  opened x hx hfounding := by
    obtain hx | rfl := mem_goto hx
    · exact h.opened x hx hfounding
    · simp [hto] at hfounding
  answered hanswered := by
    obtain ⟨hv, hfilled⟩ := h.answered hanswered
    refine ⟨hv, fun x hx => ?_⟩
    obtain hx | rfl := mem_goto hx
    exacts [hfilled x hx, Pc.isFilling_of_not_isFounding hto]
  restoring v hydrate hmem := by
    obtain hmem | hpc := mem_goto hmem
    · obtain ⟨hpending, hv, hothers⟩ := h.restoring v hydrate hmem
      refine ⟨hpending, hv, fun other hydrate' hother => ?_⟩
      obtain hother | hpc := mem_goto hother
      · exact hothers other hydrate' hother
      · simpa using (hopen _ _ hpc.symm).1
    · simpa using (hopen _ _ hpc.symm).1
  pending hsome := by
    obtain ⟨hv, hnone⟩ := h.pending hsome
    refine ⟨hv, fun restored hydrate hmem => ?_⟩
    obtain hmem | hpc := mem_goto hmem
    · exact hnone restored hydrate hmem
    · have hpending : e.pendingVault.isSome := hsome
      simp [(hopen _ _ hpc.symm).2] at hpending
  settled := h.settled.imp_right fun ⟨v, hnames, horigin⟩ =>
    ⟨v, hnames, horigin.goto hid hvault⟩
  journal := h.journal

/-- An answer of `Ok`. -/
theorem Inv.answer (h : Inv e) (hid : e.calls[id]? = some pc₀) (hus : e.us.isSome)
    (hopen : e.vault.isSome) (hfilled : e.Filled) : Inv (e.answer id true) := by
  have hfrom : pc₀.isFilling = false := hfilled pc₀ (List.mem_of_getElem? hid)
  have hgoto : Inv (e.goto id .done) :=
    h.goto hid hfrom (fun _ => hopen) rfl (by simp)
  have hfilled' : (e.goto id .done).Filled := by
    intro x hx
    obtain hx | rfl := mem_goto hx
    exacts [hfilled x hx, rfl]
  exact {
    ungrouped := fun hnone => by simp [show e.us = none from hnone] at hus
    one := hgoto.one
    filling := fun x hx hx' => by simp [hfilled' x hx] at hx'
    filled := fun doc hdoc hf =>
      (hgoto.filled doc hdoc hf).imp fun v hready =>
        ⟨hready.member, hready.keyhive, hready.stored, hready.queued, hready.origin⟩
    opened := hgoto.opened
    answered := fun _ => ⟨hopen, hfilled'⟩
    restoring := hgoto.restoring
    pending := hgoto.pending
    settled := hgoto.settled
    journal := hgoto.journal }

end Moves

section Vault

variable {e : Device V} {id : ℕ} {pc₀ : Pc V} {vault : V} {restored : Option V} {hydrate : Bool}

theorem Inv.eq_of_origin (h : Inv e) (hmem : .opening restored hydrate ∈ e.calls)
    (hsame : ∀ other, e.vault = some other → other = vault)
    (hrest : ∀ other hydrate', .opening (some other) hydrate' ∈ e.calls → other = vault)
    {v : V} (hv : e.Origin v) : v = vault := by
  obtain hv | ⟨-, hv | ⟨hydrate', hv⟩⟩ := hv
  · exact hsame v hv
  · exact absurd hmem ((h.pending (by rw [hv]; rfl)).2 restored hydrate)
  · exact hrest v hydrate' hv

/-- `open_vault` installs what it restored or created. -/
theorem Inv.install (h : Inv e) (hmem : .opening restored hydrate ∈ e.calls)
    (hsame : ∀ other, e.vault = some other → other = vault)
    (hrest : ∀ other hydrate', .opening (some other) hydrate' ∈ e.calls → other = vault) :
    Inv { e with vault := some vault } where
  ungrouped := h.ungrouped
  one := h.one
  filling pc hpc hfilling := by
    obtain ⟨doc, v, hus, hv, hanswered, hstage⟩ := h.filling pc hpc hfilling
    rw [hsame v hv] at hstage
    exact ⟨doc, vault, hus, rfl, hanswered, hstage⟩
  filled doc hus hfilled := by
    obtain ⟨v, hready⟩ := h.filled doc hus hfilled
    have hv := h.eq_of_origin hmem hsame hrest hready.origin
    subst hv
    exact ⟨v, hready.member, hready.keyhive, hready.stored, hready.queued, .inl rfl⟩
  opened _ _ _ := rfl
  answered hanswered := ⟨rfl, (h.answered hanswered).2⟩
  restoring v hydrate' hv := by
    obtain ⟨hpending, -, hothers⟩ := h.restoring v hydrate' hv
    refine ⟨hpending, fun other hother => ?_, hothers⟩
    rw [hrest v hydrate' hv]
    exact (Option.some.inj hother).symm
  pending hsome := absurd hmem ((h.pending hsome).2 restored hydrate)
  settled := h.settled.imp_right fun ⟨v, hnames, horigin⟩ => by
    have hv := h.eq_of_origin hmem hsame hrest horigin
    subst hv
    exact ⟨v, hnames, .inl rfl⟩
  journal := h.journal

/-- `open_vault` takes the vault to restore. -/
theorem Inv.take (h : Inv e) (hid : e.calls[id]? = some pc₀) (hfrom : pc₀.isFilling = false)
    (hpending : e.pendingVault = some vault) (hydrate : Bool) :
    Inv ({ e with pendingVault := none }.goto id (.opening (some vault) hydrate)) := by
  obtain ⟨hvault, hnone⟩ := h.pending (by rw [hpending]; rfl)
  have hlt : id < e.calls.length := (List.getElem?_eq_some_iff.1 hid).1
  have hrestores : Pc.opening (some vault) hydrate ∈
      e.calls.set id (.opening (some vault) hydrate) := List.mem_set hlt _
  -- the new call is the only one that opens a vault, and restores the one that was pending
  have honly : ∀ {restored hydrate'}, Pc.opening restored hydrate' ∈
      e.calls.set id (.opening (some vault) hydrate) → restored = some vault := by
    intro restored hydrate' hmem
    obtain hmem | hpc := List.mem_or_eq_of_mem_set hmem
    · exact absurd hmem (hnone restored hydrate')
    · exact (Pc.opening.inj hpc).1
  have horigin : ∀ {v}, e.Origin v →
      ({ e with pendingVault := none }.goto id (.opening (some vault) hydrate)).Origin v := by
    rintro v (hv | ⟨-, hv | ⟨hydrate', hv⟩⟩)
    · exact .inl hv
    · obtain rfl := Option.some.inj (hv.symm.trans hpending)
      exact .inr ⟨hvault, .inr ⟨hydrate, hrestores⟩⟩
    · exact absurd hv (hnone _ hydrate')
  exact {
    ungrouped := fun hus => by
      obtain ⟨hstored, hqueued, hsettled, hanswered, hcalls⟩ := h.ungrouped hus
      refine ⟨hstored, hqueued, hsettled, hanswered, fun x hx => ?_⟩
      obtain hx | rfl := mem_goto hx
      exacts [hcalls x hx, rfl]
    one := fun i j pc₁ pc₂ h₁ h₂ hf₁ hf₂ => by
      obtain ⟨-, h₁⟩ | ⟨-, rfl⟩ := goto_getElem? h₁
      · obtain ⟨-, h₂⟩ | ⟨-, rfl⟩ := goto_getElem? h₂
        · exact h.one i j pc₁ pc₂ h₁ h₂ hf₁ hf₂
        · exact absurd hf₂ Bool.false_ne_true
      · exact absurd hf₁ Bool.false_ne_true
    filling := fun x hx hfilling => by
      obtain hx | rfl := mem_goto hx
      · exact h.filling x hx hfilling
      · exact absurd hfilling Bool.false_ne_true
    filled := fun doc hus hfilled => by
      obtain ⟨v, hready⟩ := h.filled doc hus (filled_of_goto (e := e) hid hfrom hfilled)
      exact ⟨v, hready.member, hready.keyhive, hready.stored, hready.queued,
        horigin hready.origin⟩
    opened := fun x hx hfounding => by
      obtain hx | rfl := mem_goto hx
      · exact h.opened x hx hfounding
      · exact absurd hfounding Bool.false_ne_true
    answered := fun hanswered => by
      simpa [show e.vault = none from hvault] using (h.answered hanswered).1
    restoring := fun v hydrate' hmem => by
      obtain rfl := Option.some.inj (honly hmem)
      refine ⟨rfl, fun other hother => ?_, fun other hydrate'' hother => ?_⟩
      · exact absurd (hvault.symm.trans hother) (by simp)
      · exact Option.some.inj (honly hother)
    pending := fun hsome => absurd hsome Bool.false_ne_true
    settled := h.settled.imp_right fun ⟨v, hnames, hv⟩ => ⟨v, hnames, horigin hv⟩
    journal := h.journal }

end Vault

section Filling

variable {e : Device V} {id : ℕ} {pc₀ pc : Pc V} {us : Option (UsDoc V)} {doc : UsDoc V}
  {vault : V} {stored queued : List (UsCommit V)}

/-- The one call that founds the group goes on to a stage of it. -/
theorem Inv.fill (h : Inv e) (hid : e.calls[id]? = some pc₀) (hvault : e.vault = some vault)
    (hanswered : e.answered = false)
    (hone : ∀ (i : ℕ) (x : Pc V), e.calls[i]? = some x → x.isFounding → i = id)
    (hto : pc.isFilling) (hus : us = some doc)
    (hstage : Stage { e with stored := stored, queued := queued } doc vault pc) :
    Inv ({ e with us := us, stored := stored, queued := queued }.goto id pc) := by
  have hlt : id < e.calls.length := (List.getElem?_eq_some_iff.1 hid).1
  have hfounding : pc.isFounding := by cases pc <;> first | exact hto | rfl
  -- a filling is no opening of a vault
  have hold : ∀ {restored hydrate}, Pc.opening restored hydrate ∈ e.calls.set id pc →
      .opening restored hydrate ∈ e.calls := by
    intro restored hydrate hmem
    obtain hmem | rfl := List.mem_or_eq_of_mem_set hmem
    · exact hmem
    · exact absurd hto Bool.false_ne_true
  have hone' : ∀ (i : ℕ) (x : Pc V), (e.goto id pc).calls[i]? = some x →
      x.isFounding → i = id := by
    intro i x hx hf
    obtain ⟨-, hx⟩ | ⟨hi, -⟩ := goto_getElem? hx
    exacts [hone i x hx hf, hi]
  exact {
    ungrouped := fun hnone => absurd (hus.symm.trans hnone) (by simp)
    one := fun i j pc₁ pc₂ h₁ h₂ hf₁ hf₂ =>
      (hone' i pc₁ h₁ hf₁).trans (hone' j pc₂ h₂ hf₂).symm
    filling := fun x hx hfilling => by
      obtain ⟨i, hi⟩ := List.getElem?_of_mem hx
      have hf : x.isFounding := by cases x <;> first | exact hfilling | rfl
      obtain ⟨hne, hx⟩ | ⟨-, rfl⟩ := goto_getElem? hi
      · exact absurd (hone i x hx hf) hne
      · exact ⟨doc, vault, hus, hvault, hanswered, hstage⟩
    filled := fun _ _ hfilled => by
      simp [hfilled pc (List.mem_set hlt pc)] at hto
    opened := fun _ _ _ => by simp [Device.goto, hvault]
    answered := fun hanswered' => by
      simp [show e.answered = true from hanswered'] at hanswered
    restoring := fun v hydrate hmem => by
      obtain ⟨hpending, hv, hothers⟩ := h.restoring v hydrate (hold hmem)
      exact ⟨hpending, hv, fun other hydrate' hother => hothers other hydrate' (hold hother)⟩
    pending := fun hsome => absurd ((h.pending hsome).1.symm.trans hvault) (by simp)
    settled := h.settled.imp_right fun ⟨v, hnames, hv⟩ =>
      ⟨v, hnames, hv.imp_right fun ⟨hnone, _⟩ => absurd (hnone.symm.trans hvault) (by simp)⟩
    journal := h.journal }

/-- The document is made, and the connections are subscribed. -/
theorem Inv.subscribe (h : Inv e) (hid : e.calls[id]? = some pc₀) (hvault : e.vault = some vault)
    (hanswered : e.answered = false)
    (hone : ∀ (i : ℕ) (x : Pc V), e.calls[i]? = some x → x.isFounding → i = id)
    (hstored : e.stored = []) (hqueued : e.queued = []) (hus : us = some {}) (conns : ℕ) :
    Inv ({ e with us := us }.subscribe id conns) := by
  cases conns with
  | succ conns => exact h.fill hid hvault hanswered hone rfl hus ⟨rfl, hstored, hqueued⟩
  | zero =>
    subst hus
    simp only [Device.subscribe, Device.enlist, if_true, Device.push]
    exact h.fill hid hvault hanswered hone rfl rfl ⟨rfl, rfl, hstored, hqueued⟩

/-- The commit that names the vault is stored. -/
theorem Inv.publish (h : Inv e) {other : V}
    (hid : e.calls[id]? = some (.flushing (.keyhive other))) :
    Inv (e.flush.goto id .publishing) := by
  have hmem := List.mem_of_getElem? hid
  obtain ⟨doc, vault, hus, hvault, hanswered, -, hdoc, hstored⟩ := h.filling _ hmem rfl
  have hone : ∀ (i : ℕ) (x : Pc V), e.calls[i]? = some x → x.isFounding → i = id :=
    fun i x hx hf => h.one i id x _ hx hid hf rfl
  have hone' : ∀ (i : ℕ) (x : Pc V), (e.flush.goto id .publishing).calls[i]? = some x →
      x.isFounding → i = id := by
    intro i x hx hf
    obtain ⟨-, hx⟩ | ⟨hi, -⟩ := goto_getElem? (e := e.flush) hx
    exacts [hone i x hx hf, hi]
  have hready : (e.flush.goto id .publishing).Ready doc vault := by
    refine ⟨?_, ?_, ?_, rfl, .inl hvault⟩
    · simp [hdoc, Device.goto, Device.flush]
    · rw [hdoc]
    · rw [show (e.flush.goto id .publishing).stored = _ from hstored]
      exact Names.pair _ _
  exact {
    ungrouped := fun hnone => absurd (hus.symm.trans hnone) (by simp)
    one := fun i j pc₁ pc₂ h₁ h₂ hf₁ hf₂ =>
      (hone' i pc₁ h₁ hf₁).trans (hone' j pc₂ h₂ hf₂).symm
    filling := fun x hx hfilling => by
      obtain ⟨i, hi⟩ := List.getElem?_of_mem hx
      have hf : x.isFounding := by cases x <;> first | exact hfilling | rfl
      obtain ⟨hne, hx⟩ | ⟨-, rfl⟩ := goto_getElem? (e := e.flush) hi
      · exact absurd (hone i x hx hf) hne
      · exact absurd hfilling Bool.false_ne_true
    filled := fun doc' hdoc' _ => by
      obtain rfl := Option.some.inj (hus.symm.trans hdoc')
      exact ⟨vault, hready⟩
    opened := fun _ _ _ => by simp [Device.goto, Device.flush, hvault]
    answered := fun hanswered' => by
      simp [show e.answered = true from hanswered'] at hanswered
    restoring := fun v hydrate hrest => by
      have hold : ∀ {restored hydrate}, Pc.opening restored hydrate ∈
          (e.flush.goto id .publishing).calls → .opening restored hydrate ∈ e.calls :=
        fun hx => (mem_goto (e := e.flush) hx).resolve_right (by simp)
      obtain ⟨hpending, hv, hothers⟩ := h.restoring v hydrate (hold hrest)
      exact ⟨hpending, hv, fun other hydrate' hother => hothers other hydrate' (hold hother)⟩
    pending := fun hsome => absurd ((h.pending hsome).1.symm.trans hvault) (by simp)
    settled := h.settled.imp_right fun ⟨v, hnames, hv⟩ =>
      ⟨v, hnames, hv.imp_right fun ⟨hnone, _⟩ => absurd (hnone.symm.trans hvault) (by simp)⟩
    journal := h.journal }

end Filling

section Steps

variable {e : Device V} {id : ℕ} {pc₀ : Pc V}

theorem Inv.openGroup (h : Inv e) (hid : e.calls[id]? = some pc₀) (hopen : e.vault.isSome)
    (hfilled : e.us.isSome → e.Filled) : Inv (e.openGroup id) := by
  unfold Device.openGroup
  split
  · next doc hus => exact h.answer hid (by rw [hus]; rfl) hopen (hfilled (by rw [hus]; rfl))
  · next hus =>
    obtain ⟨vault, hvault⟩ := Option.isSome_iff_exists.1 hopen
    obtain ⟨hstored, hqueued, -, hanswered, hcalls⟩ := h.ungrouped hus
    refine h.subscribe hid hvault hanswered (fun i x hx hf => ?_) hstored hqueued ?_ _
    · simp [hcalls x (List.mem_of_getElem? hx)] at hf
    · rw [hstored]
      rfl

theorem Inv.afterVault (h : Inv e) (hid : e.calls[id]? = some pc₀) (hfrom : pc₀.isFilling = false)
    (hopen : e.vault.isSome) (hydrate : Bool)
    (hfilled : hydrate = false → e.us.isSome → e.Filled) : Inv (e.afterVault id hydrate) := by
  cases hydrate with
  | true => exact h.goto hid hfrom (fun _ => hopen) rfl (by simp)
  | false => exact h.openGroup hid hopen (hfilled rfl)

theorem Inv.openVault (h : Inv e) (hid : e.calls[id]? = some pc₀) (hfrom : pc₀.isFilling = false)
    (hrest : pc₀.isRestoring = false) (hydrate : Bool)
    (hfilled : hydrate = false → e.vault.isSome → e.us.isSome → e.Filled) :
    Inv (e.openVault id hydrate) := by
  unfold Device.openVault
  split
  · next vault hvault =>
    have hopen : e.vault.isSome := by rw [hvault]; rfl
    exact h.afterVault hid hfrom hopen hydrate fun hh => hfilled hh hopen
  · split
    · next vault hpending => exact h.take hid hfrom hpending hydrate
    · next hpending =>
      refine h.goto hid hfrom (by simp [hrest]) rfl fun restored hydrate' hpc => ?_
      exact ⟨(Pc.opening.inj hpc).1.symm, hpending⟩

theorem Inv.call (h : Inv e) : Inv { e with calls := e.calls ++ [Pc.done] } := by
  have hmem : ∀ x ∈ e.calls ++ [Pc.done], x ∈ e.calls ∨ x = .done := by simp
  have hat : ∀ {i : ℕ} {x : Pc V}, (e.calls ++ [Pc.done])[i]? = some x → x.isFounding →
      e.calls[i]? = some x := by
    intro i x hx hf
    obtain hlt | hge := Nat.lt_or_ge i e.calls.length
    · rwa [List.getElem?_append_left hlt] at hx
    · rw [List.getElem?_append_right hge, List.getElem?_singleton] at hx
      split at hx
      · obtain rfl := Option.some.inj hx
        exact absurd hf Bool.false_ne_true
      · cases hx
  have hfilled : Device.Filled { e with calls := e.calls ++ [Pc.done] } → e.Filled :=
    fun hf x hx => hf x (List.mem_append_left _ hx)
  have horigin : ∀ {v}, e.Origin v → Device.Origin { e with calls := e.calls ++ [Pc.done] } v :=
    fun hv => hv.imp_right (And.imp_right (Or.imp_right (Exists.imp fun _ hx =>
      List.mem_append_left _ hx)))
  exact {
    ungrouped := fun hus => by
      obtain ⟨hstored, hqueued, hsettled, hanswered, hcalls⟩ := h.ungrouped hus
      refine ⟨hstored, hqueued, hsettled, hanswered, fun x hx => ?_⟩
      obtain hx | rfl := hmem x hx
      exacts [hcalls x hx, rfl]
    one := fun i j pc₁ pc₂ h₁ h₂ hf₁ hf₂ =>
      h.one i j pc₁ pc₂ (hat h₁ hf₁) (hat h₂ hf₂) hf₁ hf₂
    filling := fun x hx hfilling => by
      obtain hx | rfl := hmem x hx
      · exact h.filling x hx hfilling
      · exact absurd hfilling Bool.false_ne_true
    filled := fun doc hus hf => by
      obtain ⟨v, hready⟩ := h.filled doc hus (hfilled hf)
      exact ⟨v, hready.member, hready.keyhive, hready.stored, hready.queued,
        horigin hready.origin⟩
    opened := fun x hx hf => by
      obtain hx | rfl := hmem x hx
      · exact h.opened x hx hf
      · exact absurd hf Bool.false_ne_true
    answered := fun hanswered => by
      obtain ⟨hopen, hf⟩ := h.answered hanswered
      refine ⟨hopen, fun x hx => ?_⟩
      obtain hx | rfl := hmem x hx
      exacts [hf x hx, rfl]
    restoring := fun v hydrate hx => by
      obtain ⟨hpending, hv, hothers⟩ := h.restoring v hydrate ((hmem _ hx).resolve_right (by simp))
      exact ⟨hpending, hv, fun other hydrate' hother =>
        hothers other hydrate' ((hmem _ hother).resolve_right (by simp))⟩
    pending := fun hsome => by
      obtain ⟨hv, hnone⟩ := h.pending hsome
      exact ⟨hv, fun restored hydrate hx =>
        hnone restored hydrate ((hmem _ hx).resolve_right (by simp))⟩
    settled := h.settled.imp_right fun ⟨v, hnames, hv⟩ => ⟨v, hnames, horigin hv⟩
    journal := h.journal }

/-- What is left to hydrate and how many connections there are does not count. -/
theorem Inv.ignore (h : Inv e) (pendingHydration : Bool) (conns : ℕ) :
    Inv { e with pendingHydration := pendingHydration, conns := conns } :=
  { h with
    filled := fun doc hus hf => (h.filled doc hus hf).imp fun _ hready =>
      ⟨hready.member, hready.keyhive, hready.stored, hready.queued, hready.origin⟩ }

theorem Inv.openUs (h : Inv e) (hfilled : e.reachesGroup .done → e.us.isSome → e.Filled) :
    Inv ({ e with calls := e.calls ++ [Pc.done] }.openUs e.calls.length) := by
  have hcall : ({ e with calls := e.calls ++ [Pc.done] } : Device V).calls[e.calls.length]? =
      some .done := by simp
  have hfilled' : Device.Filled e → Device.Filled { e with calls := e.calls ++ [Pc.done] } := by
    intro hf x hx
    obtain hx | hx := List.mem_append.1 hx
    · exact hf x hx
    · rw [List.mem_singleton.1 hx]
      rfl
  unfold Device.openUs
  split
  · next hpending =>
    refine (h.call.ignore false e.conns).goto hcall rfl ?_ rfl ?_
    · simp [Pc.isRestoring]
    · simp
  · next hpending =>
    refine h.call.openVault hcall rfl rfl false fun _ hopen hus => hfilled' ?_
    exact hfilled (by simp_all [Device.reachesGroup]) hus

/-- A stage of a founding is done. -/
theorem Inv.proceed_filling (h : Inv e) (hid : e.calls[id]? = some pc₀) (hfilling : pc₀.isFilling)
    (created : V) : Inv (e.proceed id created) := by
  obtain ⟨doc, vault, hus, hvault, hanswered, hstage⟩ :=
    h.filling pc₀ (List.mem_of_getElem? hid) hfilling
  have hfounding : pc₀.isFounding := by cases pc₀ <;> first | exact hfilling | rfl
  have hone : ∀ (i : ℕ) (x : Pc V), e.calls[i]? = some x → x.isFounding → i = id :=
    fun i x hx hf => h.one i id x pc₀ hx hid hf hfounding
  simp only [Device.proceed, hid]
  cases pc₀ with
  | done => cases hfilling
  | hydrating => cases hfilling
  | opening restored hydrate => cases hfilling
  | absorbing => cases hfilling
  | publishing => cases hfilling
  | subscribing conns =>
    obtain ⟨rfl, hstored, hqueued⟩ := hstage
    exact h.subscribe hid hvault hanswered hone hstored hqueued hus conns
  | adding commit =>
    refine h.fill hid hvault hanswered hone rfl hus ?_
    cases commit with
    | member key =>
      obtain ⟨rfl, hdoc, hstored, hqueued⟩ := hstage
      exact ⟨rfl, hdoc, by simp [hstored, hqueued]⟩
    | keyhive other =>
      obtain ⟨rfl, hdoc, hstored, hqueued⟩ := hstage
      exact ⟨rfl, hdoc, by simp [hstored, hqueued]⟩
  | flushing commit =>
    cases commit with
    | member key =>
      -- the document has its member and names no vault yet
      obtain ⟨rfl, rfl, hstored⟩ := hstage
      have hname : e.flush.nameKeyhive id = e.flush.push id ⟨{e.me}, none⟩ (.keyhive vault) := by
        simp [Device.nameKeyhive, Device.flush, hus, hvault]
      show Inv (e.flush.nameKeyhive id)
      rw [hname]
      exact h.fill hid hvault hanswered hone rfl rfl ⟨rfl, rfl, hstored, rfl⟩
    | keyhive other => exact h.publish hid

theorem Inv.proceed (h : Inv e) (id : ℕ) (created : V)
    (hu : e.Undisturbed (.succeed id created)) : Inv (e.proceed id created) := by
  cases hid : e.calls[id]? with
  | none => simpa [Device.proceed, hid] using h
  | some pc =>
    have hpc := hu pc (by rw [hid]; rfl)
    cases pc with
    | done => simpa [Device.proceed, hid] using h
    | hydrating =>
      simp only [Device.proceed, hid]
      split
      · exact h.openVault hid rfl rfl true (by simp)
      · exact h.goto hid rfl (by simp [Pc.isRestoring]) rfl (by simp)
    | opening restored hydrate =>
      have hmem := List.mem_of_getElem? hid
      obtain ⟨hgroup, hfits⟩ := hpc (by simp)
      obtain ⟨hsame, hcreated⟩ := hfits restored rfl
      -- what another call restores is what this one installs
      have hrest : ∀ other hydrate', .opening (some other) hydrate' ∈ e.calls →
          other = restored.getD created := by
        intro other hydrate' hother
        cases restored with
        | none => exact hcreated rfl _ hother other rfl
        | some v => exact (h.restoring v hydrate hmem).2.2 other hydrate' hother
      have hinstall := h.install hmem hsame hrest
      simp only [Device.proceed, hid]
      have hid' : ({ e with vault := some (restored.getD created) } : Device V).calls[id]? =
          some (.opening restored hydrate) := hid
      refine hinstall.afterVault hid' rfl rfl hydrate ?_
      rintro rfl
      exact hgroup rfl
    | absorbing =>
      simp only [Device.proceed, hid]
      exact h.openVault hid rfl rfl false fun _ => (hpc (by simp)).1
    | subscribing conns => exact h.proceed_filling hid rfl created
    | adding commit => exact h.proceed_filling hid rfl created
    | flushing commit => exact h.proceed_filling hid rfl created
    | publishing =>
      -- the one founding call is past its filling
      simp only [Device.proceed, hid]
      have hmem := List.mem_of_getElem? hid
      have hopen := h.opened _ hmem rfl
      refine h.answer hid ?_ hopen fun x hx => ?_
      · by_contra hus
        simpa [Pc.isFounding] using
          (h.ungrouped (Option.not_isSome_iff_eq_none.1 hus)).2.2.2.2 _ hmem
      · by_contra hfilling
        rw [Bool.not_eq_false] at hfilling
        obtain ⟨i, hi⟩ := List.getElem?_of_mem hx
        have hf : x.isFounding := by cases x <;> first | exact hfilling | rfl
        obtain rfl := h.one i id x _ hi hid hf rfl
        rw [Option.some.inj (hi.symm.trans hid)] at hfilling
        cases hfilling

end Steps

variable {e : Device V}

/-- The driver stores what it was handed. -/
theorem Inv.flush (h : Inv e) : Inv e.flush :=
  { h with
    ungrouped := fun hus => by
      obtain ⟨hstored, hqueued, hrest⟩ := h.ungrouped hus
      exact ⟨by simp [Device.flush, hstored, hqueued], rfl, hrest⟩
    filling := fun pc hpc hfilling => by
      obtain ⟨doc, vault, hus, hvault, hanswered, hstage⟩ := h.filling pc hpc hfilling
      refine ⟨doc, vault, hus, hvault, hanswered, ?_⟩
      -- what is queued counts as stored wherever a stage has something queued
      cases pc with
      | subscribing conns => simpa [Stage, Device.flush] using ⟨hstage.1, hstage.2.1, hstage.2.2⟩
      | adding commit =>
        cases commit with
        | member key =>
          obtain ⟨hkey, hdoc, hstored, hqueued⟩ := hstage
          exact ⟨hkey, hdoc, by simp [Device.flush, hstored, hqueued], rfl⟩
        | keyhive other =>
          obtain ⟨hother, hdoc, hstored, hqueued⟩ := hstage
          exact ⟨hother, hdoc, by simp [Device.flush, hstored, hqueued], rfl⟩
      | flushing commit =>
        cases commit with
        | member key =>
          obtain ⟨hkey, hdoc, hstored⟩ := hstage
          exact ⟨hkey, hdoc, by simpa [Device.flush] using hstored⟩
        | keyhive other =>
          obtain ⟨hother, hdoc, hstored⟩ := hstage
          exact ⟨hother, hdoc, by simpa [Device.flush] using hstored⟩
      | done => trivial
      | hydrating => trivial
      | opening restored hydrate => trivial
      | absorbing => trivial
      | publishing => trivial
    filled := fun doc hus hf => by
      obtain ⟨vault, hready⟩ := h.filled doc hus hf
      refine ⟨vault, hready.member, hready.keyhive, ?_, rfl, hready.origin⟩
      simpa [Device.flush, hready.queued] using hready.stored }

/-- A call that was answered enrols a member. -/
theorem Inv.enrol (h : Inv e) (key : Bytes32) (landed : Bool) :
    Inv (e.step (.enrol key landed)) := by
  simp only [Device.step]
  split
  · next hanswered =>
    obtain ⟨hopen, hfilled⟩ := h.answered hanswered
    exact { h with
      ungrouped := fun hus => by
        have hnone : e.us = none := by simpa using hus
        simp [(h.ungrouped hnone).2.2.2.1] at hanswered
      filling := fun pc hpc hfilling => by simp [hfilled pc hpc] at hfilling
      filled := fun doc hus hf => by
        obtain ⟨doc', hus', rfl⟩ := Option.map_eq_some_iff.1 hus
        obtain ⟨vault, hready⟩ := h.filled doc' hus' hfilled
        refine ⟨vault, Finset.mem_insert_of_mem hready.member, hready.keyhive, ?_,
          hready.queued, hready.origin⟩
        cases landed with
        | true => exact hready.stored.append_member key
        | false => exact hready.stored }
  · exact h

/-- Storage is settled before the first commit of the founding is stored, or after the last one. -/
theorem Inv.settle (h : Inv e) (hsettles : e.stored = [] ∨
    .member e.me ∈ e.stored ∧ ∃ c ∈ e.stored, c.isKeyhive) : Inv (e.step .settle) :=
  { h with
    ungrouped := fun hus => by
      obtain ⟨hstored, hqueued, -, hrest⟩ := h.ungrouped hus
      exact ⟨hstored, hqueued, hstored, hrest⟩
    filled := fun doc hus hf => (h.filled doc hus hf).imp fun _ hready =>
      ⟨hready.member, hready.keyhive, hready.stored, hready.queued, hready.origin⟩
    settled := by
      refine hsettles.imp_right fun ⟨_, commit, hcommit, hkeyhive⟩ => ?_
      obtain ⟨vault, rfl⟩ : ∃ vault, commit = .keyhive vault := by
        cases commit with
        | member key => cases hkeyhive
        | keyhive vault => exact ⟨vault, rfl⟩
      by_cases hf : e.Filled
      · cases hus : e.us with
        | none => simp [(h.ungrouped hus).1] at hcommit
        | some doc =>
          obtain ⟨v, hready⟩ := h.filled doc hus hf
          exact ⟨v, hready.stored, hready.origin⟩
      · -- only the last stage of a founding has stored a commit that names a vault
        simp only [Filled, not_forall, Bool.not_eq_false] at hf
        obtain ⟨pc, hpc, hfilling⟩ := hf
        obtain ⟨doc, v, -, hv, -, hstage⟩ := h.filling pc hpc hfilling
        have hnames : Names e.me v (e.stored ++ e.queued) ∧ e.queued = [] := by
          cases pc with
          | subscribing conns => simp [hstage.2.1] at hcommit
          | adding commit =>
            cases commit with
            | member key => simp [hstage.2.2.1] at hcommit
            | keyhive other => simp [hstage.2.2.1] at hcommit
          | flushing commit =>
            have hmem := List.mem_append_left e.queued hcommit
            cases commit with
            | member key => simp [hstage.2.2] at hmem
            | keyhive other =>
              obtain ⟨-, -, hstored⟩ := hstage
              refine ⟨hstored ▸ Names.pair e.me v, ?_⟩
              -- of two commits, the last one is in what is stored
              by_contra hqueued
              have hlast : e.queued.getLast hqueued = .keyhive v := by
                have hne : e.stored ++ e.queued ≠ [] := by simp [hqueued]
                rw [← List.getLast_append_of_ne_nil hne hqueued]
                simp [hstored]
              have hdrop : e.stored ++ e.queued.dropLast = [.member e.me] := by
                rw [← List.dropLast_append_of_ne_nil hqueued, hstored]
                rfl
              have := List.mem_append_left e.queued.dropLast hcommit
              simp [hdrop] at this
          | done => cases hfilling
          | hydrating => cases hfilling
          | opening restored hydrate => cases hfilling
          | absorbing => cases hfilling
          | publishing => cases hfilling
        rw [hnames.2, List.append_nil] at hnames
        exact ⟨v, hnames.1, .inl hv⟩ }

/-- A delta is prepared. -/
theorem Inv.persist (h : Inv e)
    (hpersists : e.vault = none → ∀ pc ∈ e.calls, pc.isRestoring = false) :
    Inv (e.step .persist) :=
  { h with
    filled := fun doc hus hf => (h.filled doc hus hf).imp fun _ hready =>
      ⟨hready.member, hready.keyhive, hready.stored, hready.queued, hready.origin⟩
    journal := fun items recorded hjournal => by
      obtain ⟨rfl, rfl⟩ := Prod.mk.inj (Option.some.inj hjournal)
      refine h.settled.imp_right fun ⟨vault, hnames, horigin⟩ => ⟨vault, hnames, ?_⟩
      obtain hv | ⟨hnone, hv | ⟨hydrate, hmem⟩⟩ := horigin
      · simp [recordedVault, hv]
      · simp [recordedVault, hnone, hv]
      · simpa [Pc.isRestoring] using hpersists hnone _ hmem }

/-- The engine is built from the journal. -/
theorem Inv.restart (h : Inv e) (pendingHydration : Bool) : Inv (e.restart pendingHydration) := by
  obtain ⟨⟨items, recorded⟩, hjournal⟩ : ∃ last, e.journal.getD ([], none) = last := ⟨_, rfl⟩
  have hlast : items = [] ∨ ∃ vault, Names e.me vault items ∧ recorded = some vault := by
    cases hj : e.journal with
    | none =>
      rw [hj] at hjournal
      exact .inl (Prod.mk.inj hjournal).1.symm
    | some last =>
      rw [hj] at hjournal
      obtain rfl : last = (items, recorded) := hjournal
      exact h.journal items recorded hj
  simp only [Device.restart, hjournal]
  refine ⟨fun hus => ?_, by simp, by simp, fun doc hus _ => ?_, by simp, by simp, by simp,
    by simp, ?_, h.journal⟩
  · have hitems : items = [] := by simpa using hus
    simp [hitems]
  · obtain rfl | ⟨vault, hnames, rfl⟩ := hlast
    · simp at hus
    · have hitems : items ≠ [] := List.ne_nil_of_mem hnames.member
      obtain rfl : UsDoc.absorb items = doc := by simpa [hitems] using hus
      exact ⟨vault, hnames.absorb.1, hnames.absorb.2, hnames, rfl, .inr ⟨rfl, .inl rfl⟩⟩
  · exact hlast.imp_right fun ⟨vault, hnames, hrecorded⟩ =>
      ⟨vault, hnames, .inr ⟨rfl, .inl hrecorded⟩⟩

theorem Inv.fail (h : Inv e) (id : ℕ) (hu : e.Undisturbed (.fail id)) :
    Inv (e.step (.fail id)) := by
  simp only [Device.step]
  split
  · exact h
  · exact h
  · next hid =>
    exact h.openVault hid rfl rfl false fun _ => (hu .absorbing (by rw [hid]; rfl)).2.2 rfl
  · next pc hdone habsorbing hid =>
    obtain ⟨hfounding, hrestoring, -⟩ := hu pc (by rw [hid]; rfl)
    have hgoto : Inv (e.goto id .done) :=
      h.goto hid (Pc.isFilling_of_not_isFounding hfounding) (by simp [hrestoring]) rfl (by simp)
    rwa [Device.answer, Bool.or_false]

/-- The invariant is kept by every step that meets no founding in its window and fails none. -/
theorem inv_step (l : Label V) (hu : e.Undisturbed l) (h : Inv e) : Inv (e.step l) := by
  cases l with
  | call => exact h.openUs hu
  | succeed id created => exact h.proceed id created hu
  | fail id => exact h.fail id hu
  | store => exact h.flush
  | enrol key landed => exact h.enrol key landed
  | connections conns => exact h.ignore e.pendingHydration conns
  | settle => exact h.settle hu
  | persist => exact h.persist hu
  | restart pendingHydration => exact h.restart pendingHydration

theorem Inv.founded (h : Inv e) (hanswered : e.answered) : e.Founded := by
  obtain ⟨hopen, hfilled⟩ := h.answered hanswered
  obtain ⟨doc, hus⟩ : ∃ doc, e.us = some doc := by
    cases hus : e.us with
    | none => simp [(h.ungrouped hus).2.2.2.1] at hanswered
    | some doc => exact ⟨doc, rfl⟩
  obtain ⟨vault, hready⟩ := h.filled doc hus hfilled
  refine ⟨doc, vault, hus, hready.member, hready.keyhive, ?_, hready.stored.member,
    hready.stored.keyhive⟩
  obtain hv | ⟨hnone, -⟩ := hready.origin
  · exact hv
  · simp [hnone] at hopen

/-- In a run whose steps meet no founding in its window and fail none, an `Ok` of `open_us` means
that the group is founded: the document lists the device and names its vault, and storage holds the
commits that say so. -/
theorem group_founded (me : Bytes32) (ls : List (Label V))
    (hmeets : Meets step Undisturbed { me } ls) :
    (run step ({ me } : Device V) ls).answered → (run step ({ me } : Device V) ls).Founded :=
  Inv.founded (run_preserves_of_meets (fun _ l hu => inv_step l hu) hmeets (inv_start me))

/-- A first call that fails, and a second one that founds the group. -/
theorem group_founded_sampleRun :
    (run step ({ me := 1#256 } : Device ℕ)
      [.call, .fail 0, .call, .succeed 1 7, .succeed 1 0, .succeed 1 0, .store, .succeed 1 0,
        .succeed 1 0, .settle, .succeed 1 0, .persist]).Founded :=
  group_founded 1#256 [.call, .fail 0, .call, .succeed 1 7, .succeed 1 0, .succeed 1 0, .store,
    .succeed 1 0, .succeed 1 0, .settle, .succeed 1 0, .persist] (by decide +kernel)
    (by decide +kernel)

/-- The first call installs the document and fails to hand over the commit that says who is in the
group. The second one finds the document and is answered `Ok`. -/
theorem unfounded_ok :
    ¬∀ ls : List (Label ℕ), (run step ({ me := 1#256 } : Device ℕ) ls).answered →
      (run step ({ me := 1#256 } : Device ℕ) ls).Founded := by
  intro h
  obtain ⟨doc, vault, hus, -, hkeyhive, -⟩ :=
    h [.call, .succeed 0 7, .fail 0, .call] (by decide +kernel)
  have hdoc : (run step ({ me := 1#256 } : Device ℕ) [.call, .succeed 0 7, .fail 0, .call]).us =
      some ⟨{1#256}, none⟩ := by decide +kernel
  rw [Option.some.inj (hdoc.symm.trans hus).symm] at hkeyhive
  cases hkeyhive

end Device

end Polyvisor.Founding
