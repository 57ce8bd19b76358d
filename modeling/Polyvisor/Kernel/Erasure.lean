import Polyvisor.Lib.Transition
import Mathlib.Data.Finset.Erase
import Mathlib.Data.Finset.Insert
import Mathlib.Data.Nat.Notation
import Std.Data.ExtTreeMap

/-!
# Erasing a device

`keep`, `unseal`, `erase`, `persist`, `write_persistence` and `touch_lease` of `kernel/src/lib.rs`,
`start_sync` and `bind_endpoint` of `kernel/src/sync.rs`, the adoption of `kernel/src/pairing.rs`
and `destroy` of `kernel/src/store.rs`. What a call does between its awaits is a list of acts, and
calls interleave between any two of them. Drive synchronisation, pairing, meeting, sharing and the
event pump are tasks: they await things that write nothing here, persist, and adopt.

A write lands when its act runs, which is after it was issued. All generations share one record
each for their state and their manifest, and so do the journal's records.

`persist`, the adoption and `erase` hold `persistence_write`, and each checks again once it has it.
`keep`, `unseal` and the binding of the endpoint do neither.

## Main results

* `Sound` and `sound_step`: while a device is erased, no call in flight has an unchecked write left.
* `erase_final`: in a run in which no such call is in flight when an erase ends, nothing is written
  or started after it.
* `kept_after_erase`: a `keep` that outlives the erase.
-/

namespace Polyvisor

open Std

/-- `Tier`. -/
inductive Tier where
  | ephemeral
  | durable
  deriving DecidableEq, Repr

/-- `Rest`. -/
inductive Rest where
  | restsOpen
  | passphrase
  deriving DecidableEq, Repr

namespace Erasure

/-- What is kept of a device: its index row, its records under `dev/`, and its files. -/
inductive Record where
  | index
  | dek
  | dekWrapped
  | pointer
  | state
  | manifest
  | journal
  deriving DecidableEq, Repr

/-- Whether a record is a file. Only these report that they could not be written. -/
def Record.isFile : Record → Bool
  | .state | .manifest | .journal => true
  | _ => false

/-- What a call does at one await. -/
inductive Act where
  /-- Something that touches none of this: the network, the host, an engine the call already has. -/
  | wait
  /-- `engine()?`, and an operation of the engine. -/
  | engine
  | set (record : Record)
  | delete (record : Record)
  /-- `keep` changes the row in memory. -/
  | promote (rest : Rest)
  /-- `checkpoint::load` and `open_or_mint` of a durable device. -/
  | load
  /-- `unseal` installs what was loaded, and `start_sync`. -/
  | restore
  /-- `net.bind` answers. -/
  | bound
  deriving DecidableEq, Repr

/-- What takes `persistence_write`. -/
inductive Holder where
  | persist
  | adopt
  | erase
  deriving DecidableEq, Repr

/-- A stretch of a call. -/
inductive Block where
  | act (a : Act)
  /-- Get the lock, check, and let go of it at the end. -/
  | locked (holder : Holder) (body : List Act)
  deriving DecidableEq, Repr

/-- A call in flight. -/
structure Call where
  /-- What is left to do under the lock. -/
  section_ : Option (Holder × List Act) := none
  rest : List Block
  deriving DecidableEq, Repr

/-- What happened to an erased device. -/
inductive Late where
  | wrote (record : Record)
  | engine
  | endpoint
  deriving DecidableEq, Repr

/-- The kernel, as far as any of this depends on it. -/
structure Device where
  erased : Bool := false
  /-- Whether `DeviceState::dek` is `Some`. -/
  dek : Bool
  tier : Tier
  rest : Rest
  engine : Bool
  endpoint : Bool := false
  adopting : Bool := false
  /-- The holder of `persistence_write`. -/
  lock : Option ℕ := none
  stored : Finset Record
  calls : ExtTreeMap ℕ Call := ∅
  next : ℕ := 0
  /-- What was written and started after the erase. No code reads it. -/
  late : List Late := []

/-! ## What calls do -/

/-- `write_persistence`, with what `prepare_persistence` answers. -/
def writePersistence (metadata prepared : Bool) : List Act :=
  [.wait] ++ (if prepared then [.set .journal] else []) ++
    (if metadata then [.set .state, .set .manifest, .set .pointer]
      else if prepared then [.set .pointer] else []) ++
    -- `touch_lease`
    [.set .index]

/-- What a task does. -/
inductive Op where
  | wait
  | engine
  /-- `persist`. -/
  | persist (metadata prepared : Bool)
  /-- The adoption of a pairing, with so many awaits before it writes. -/
  | adopt (awaits : ℕ) (prepared : Bool)
  deriving DecidableEq, Repr

/-- The block of an operation. -/
def Op.block : Op → Block
  | .wait => .act .wait
  | .engine => .act .engine
  | .persist metadata prepared => .locked .persist (writePersistence metadata prepared)
  | .adopt awaits prepared =>
    .locked .adopt (List.replicate awaits .wait ++ writePersistence true prepared)

/-- The exported calls, and the tasks the kernel spawns. -/
inductive Request where
  | keep (passphrase prepared : Bool)
  /-- With whether the passphrase opens the wrapped key, and what the two initialisations write. -/
  | unseal (opens personalization contacts prepared : Bool)
  | erase
  | task (ops : List Op)
  deriving DecidableEq, Repr

/-- `destroy`. Reading the pointer may fail. -/
def destroy : List Act :=
  [.wait, .delete .journal, .delete .manifest, .delete .state, .delete .dek, .delete .dekWrapped,
    .delete .pointer, .delete .index]

namespace Device

variable (k : Device)

/-- The gate `open`. -/
def isOpen : Bool := !k.erased && k.dek

/-- What a call is going to do, if it is not refused at once. -/
def begins : Request → Option (List Block)
  | .keep passphrase prepared =>
    if !k.isOpen then none
    else if k.tier = .durable then
      if k.rest = .restsOpen ∧ !passphrase then
        some [.act .engine, (Op.persist true prepared).block]
      else none
    else
      some ((if passphrase then [.act (.set .dekWrapped)] else []) ++
        [.act (.promote (if passphrase then .passphrase else .restsOpen)), .act (.set .index),
          .act .engine] ++
        (if passphrase then [.act (.delete .dek)] else []) ++
        [(Op.persist true prepared).block])
  | .unseal opens personalization contacts prepared =>
    if k.erased || k.dek || !opens then none
    else
      some ([.act .load, .act .restore] ++
        -- `initialize_personalization`
        [.act .engine, .act .engine] ++ (if personalization then [.act .engine] else []) ++
        [.act .engine] ++
        -- `initialize_contacts`
        [.act .engine, .act .wait] ++ (if contacts then [.act .wait] else []) ++
        (if personalization || contacts then [(Op.persist true prepared).block] else []) ++
        -- `touch_lease`
        [.act (.set .index)])
  | .erase => if k.erased then none else some [.locked .erase destroy]
  | .task ops => some (ops.map Op.block)

/-- Remember what happens to an erased device. -/
def note (late : Late) : Device :=
  if k.erased then { k with late := k.late ++ [late] } else k

/-- A write lands. -/
def write (record : Record) : Device :=
  { k with stored := insert record k.stored }.note (.wrote record)

/-- A call is in flight. -/
def spawn (call : Call) : Device :=
  { k with calls := k.calls.insert k.next call, next := k.next + 1 }

/-- A call goes on. -/
def put (id : ℕ) (call : Call) : Device :=
  { k with calls := k.calls.insert id call }

/-- A call returns. -/
def leave (id : ℕ) : Device :=
  { k with calls := k.calls.erase id }

/-- `start_sync`. -/
def startSync : Device :=
  if k.engine then k else ({ k with engine := true }.note .engine).spawn { rest := [.act .bound] }

/-- One act. `none` is an error, on which the call returns. -/
def perform (ok : Bool) : Act → Option Device
  | .wait => if ok then some k else none
  | .engine => if k.engine && ok then some k else none
  | .set record => if record.isFile && !ok then none else some (k.write record)
  | .delete record => some { k with stored := k.stored.erase record }
  | .promote rest => some { k with tier := .durable, rest }
  | .load => if ok && decide ({.pointer, .manifest, .state} ⊆ k.stored) then some k else none
  | .restore => some { k with dek := true }.startSync
  | .bound => some (if ok then { k with endpoint := true }.note .endpoint else k)

/-- What is checked under the lock. -/
def enter : Holder → Option Device
  | .persist => if k.isOpen && !k.adopting then some k else none
  | .adopt => if k.isOpen && !k.adopting then some { k with adopting := true } else none
  | .erase => if k.erased then none else some k

/-- The end of `erase`. -/
def destroyed : Device :=
  { k with erased := true, dek := false, engine := false, endpoint := false }

/-- A call goes on until its next await, which succeeds or not. -/
def proceed (id : ℕ) (ok : Bool) : Device :=
  match k.calls[id]? with
  | none => k
  | some ⟨some (holder, a :: body), rest⟩ =>
    match k.perform ok a with
    | some k => k.put id ⟨some (holder, body), rest⟩
    | none => { k with lock := none }.leave id
  | some ⟨some (.erase, []), _⟩ => { k.destroyed with lock := none }.leave id
  | some ⟨some (.adopt, []), rest⟩ =>
    { k with adopting := false, lock := none }.put id ⟨none, rest⟩
  | some ⟨some (.persist, []), rest⟩ => { k with lock := none }.put id ⟨none, rest⟩
  | some ⟨none, .act a :: rest⟩ =>
    match k.perform ok a with
    | some k => k.put id ⟨none, rest⟩
    | none => k.leave id
  | some ⟨none, .locked holder body :: rest⟩ =>
    if k.lock.isSome then k
    else
      match k.enter holder with
      | some k => { k with lock := some id }.put id ⟨some (holder, body), rest⟩
      | none => k.leave id
  | some ⟨none, []⟩ => k.leave id

end Device

/-- What can happen next. -/
inductive Label where
  | call (request : Request)
  | proceed (id : ℕ) (ok : Bool)
  deriving DecidableEq, Repr

namespace Device

/-- One step. -/
def step (k : Device) : Label → Device
  | .call request =>
    match k.begins request with
    | some program => k.spawn { rest := program }
    | none => k
  | .proceed id ok => k.proceed id ok

/-- A kernel that has just booted, sealed or with its endpoint being bound. -/
def boot (asleep : Bool) (tier : Tier) (rest : Rest) (stored : Finset Record) : Device where
  dek := !asleep
  tier := tier
  rest := rest
  engine := !asleep
  stored := stored
  calls := if asleep then ∅ else (∅ : ExtTreeMap ℕ Call).insert 0 { rest := [.act .bound] }
  next := 1

end Device

/-! ## Unchecked writes -/

/-- Whether a program writes, or starts the engine or the endpoint, before anything would stop it on
an erased device. The check under the lock would, and so would a missing engine. -/
def exposed : List Block → Bool
  | [] => false
  | .locked _ _ :: _ => false
  | .act .engine :: _ => false
  | .act (.set _) :: _ => true
  | .act .restore :: _ => true
  | .act .bound :: _ => true
  | .act _ :: rest => exposed rest

theorem exposed_task (ops : List Op) : exposed (ops.map Op.block) = false := by
  induction ops with
  | nil => rfl
  | cons op ops ih =>
    cases op with
    | wait => exact ih
    | engine => rfl
    | persist => rfl
    | adopt => rfl

namespace Device

/-- Whether an erase ends when this call goes on. -/
def erasing (k : Device) (id : ℕ) : Bool :=
  match k.calls[id]? with
  | some ⟨some (.erase, []), _⟩ => true
  | _ => false

/-- When an erase ends, no other call in flight has an unchecked write left. -/
def Settled (k : Device) : Label → Prop
  | .call _ => True
  | .proceed id _ => k.erasing id = true →
      ∀ entry ∈ k.calls.toList, entry.1 ≠ id → exposed entry.2.rest = false

instance decidableSettled (k : Device) : (l : Label) → Decidable (k.Settled l)
  | .call _ => inferInstanceAs (Decidable True)
  | .proceed id _ => inferInstanceAs (Decidable (k.erasing id = true →
      ∀ entry ∈ k.calls.toList, entry.1 ≠ id → exposed entry.2.rest = false))

/-- What every step keeps. -/
structure Sound (k : Device) : Prop where
  /-- A call under the lock is its holder. -/
  held : ∀ (id : ℕ) (call : Call), k.calls[id]? = some call → call.section_.isSome →
    k.lock = some id
  /-- Nothing was written or started after an erase. -/
  late : k.late = []
  engine : k.erased = true → k.engine = false
  /-- No call in flight on an erased device has an unchecked write left. -/
  calls : k.erased = true → ∀ (id : ℕ) (call : Call), k.calls[id]? = some call →
    call.section_ = none ∧ exposed call.rest = false

variable {k k' : Device} {id : ℕ} {call : Call}

theorem getElem?_put (k : Device) (id i : ℕ) (call : Call) :
    (k.put id call).calls[i]? = if i = id then some call else k.calls[i]? := by
  rw [put, ExtTreeMap.getElem?_insert]
  by_cases h : i = id
  · simp [h]
  · simp [h, Ne.symm h]

theorem getElem?_leave (k : Device) (id i : ℕ) :
    (k.leave id).calls[i]? = if i = id then none else k.calls[i]? := by
  rw [leave, ExtTreeMap.getElem?_erase]
  by_cases h : i = id
  · simp [h]
  · simp [h, Ne.symm h]

/-! ## One act -/

/-- What one act may change. -/
structure Performed (k k' : Device) (a : Act) : Prop where
  erased : k'.erased = k.erased
  lock : k'.lock = k.lock
  /-- A call it spawns is not under the lock. -/
  calls : ∀ (i : ℕ) (c : Call), k'.calls[i]? = some c → k.calls[i]? = some c ∨ c.section_ = none
  alive : k.erased = false → k'.late = k.late
  /-- An act that is not exposed leaves an erased device as it is. -/
  quiet : exposed [.act a] = false →
    k'.late = k.late ∧ k'.engine = k.engine ∧ k'.calls = k.calls

theorem late_note {what : Late} (h : k.erased = false) : (k.note what).late = k.late := by
  rw [note, h]
  rfl

theorem note_fields (k : Device) (late : Late) :
    (k.note late).erased = k.erased ∧ (k.note late).lock = k.lock ∧
      (k.note late).calls = k.calls ∧ (k.note late).engine = k.engine := by
  rw [note]
  split
  · exact ⟨rfl, rfl, rfl, rfl⟩
  · exact ⟨rfl, rfl, rfl, rfl⟩

theorem performed_startSync (k : Device) : Performed k k.startSync .restore := by
  rw [startSync]
  split
  · exact ⟨rfl, rfl, fun _ _ => .inl, fun _ => rfl, fun h => by cases h⟩
  · obtain ⟨herased, hlock, hcalls, -⟩ := note_fields { k with engine := true } .engine
    refine ⟨herased, hlock, fun i c hc => ?_, fun halive => ?_, fun h => by cases h⟩
    · have hget : (({ k with engine := true } : Device).note .engine).calls = k.calls := hcalls
      rw [spawn, hget, ExtTreeMap.getElem?_insert] at hc
      split at hc
      · cases hc
        exact .inr rfl
      · exact .inl hc
    · have hlate : (({ k with engine := true } : Device).note .engine).late = k.late :=
        late_note halive
      exact hlate

theorem performed_perform {ok : Bool} {a : Act} (h : k.perform ok a = some k') :
    Performed k k' a := by
  have hsame : Performed k k a :=
    ⟨rfl, rfl, fun _ _ => .inl, fun _ => rfl, fun _ => ⟨rfl, rfl, rfl⟩⟩
  cases a with
  | wait =>
    cases ok with
    | true =>
      cases h
      exact hsame
    | false => cases h
  | engine =>
    rw [perform] at h
    split at h
    · cases h
      exact hsame
    · cases h
  | set record =>
    rw [perform] at h
    split at h
    · cases h
    · cases h
      obtain ⟨herased, hlock, hcalls, -⟩ :=
        note_fields { k with stored := insert record k.stored } (.wrote record)
      exact ⟨herased, hlock, fun i c hc => .inl (hcalls ▸ hc),
        fun halive => late_note halive, fun h => by cases h⟩
  | delete record =>
    cases h
    exact ⟨rfl, rfl, fun _ _ => .inl, fun _ => rfl, fun _ => ⟨rfl, rfl, rfl⟩⟩
  | promote rest =>
    cases h
    exact ⟨rfl, rfl, fun _ _ => .inl, fun _ => rfl, fun _ => ⟨rfl, rfl, rfl⟩⟩
  | load =>
    rw [perform] at h
    split at h
    · cases h
      exact hsame
    · cases h
  | restore =>
    cases h
    obtain ⟨herased, hlock, hcalls, halive, -⟩ := performed_startSync { k with dek := true }
    exact ⟨herased, hlock, hcalls, halive, fun h => by cases h⟩
  | bound =>
    cases h
    cases ok with
    | true =>
      obtain ⟨herased, hlock, hcalls, -⟩ := note_fields { k with endpoint := true } .endpoint
      exact ⟨herased, hlock, fun i c hc => .inl (hcalls ▸ hc),
        fun halive => late_note halive, fun h => by cases h⟩
    | false => exact ⟨rfl, rfl, fun _ _ => .inl, fun _ => rfl, fun h => by cases h⟩

/-- What an unexposed program goes on with is unexposed, when there is no engine. -/
theorem exposed_of_perform {ok : Bool} {a : Act} {rest : List Block} (hengine : k.engine = false)
    (h : k.perform ok a = some k') (hexposed : exposed (.act a :: rest) = false) :
    exposed [.act a] = false ∧ exposed rest = false := by
  cases a with
  | wait => exact ⟨rfl, hexposed⟩
  | engine => simp [perform, hengine] at h
  | set => cases hexposed
  | delete => exact ⟨rfl, hexposed⟩
  | promote => exact ⟨rfl, hexposed⟩
  | load => exact ⟨rfl, hexposed⟩
  | restore => cases hexposed
  | bound => cases hexposed

/-- What is checked under the lock stops a call on an erased device. -/
theorem enter_erased (h : k.erased = true) (holder : Holder) : k.enter holder = none := by
  cases holder <;> simp [enter, isOpen, h]

theorem enter_fields {holder : Holder} (h : k.enter holder = some k') :
    k'.erased = k.erased ∧ k'.late = k.late ∧ k'.calls = k.calls := by
  cases holder with
  | persist =>
    rw [enter] at h
    split at h <;> cases h
    exact ⟨rfl, rfl, rfl⟩
  | adopt =>
    rw [enter] at h
    split at h <;> cases h
    exact ⟨rfl, rfl, rfl⟩
  | erase =>
    rw [enter] at h
    split at h <;> cases h
    exact ⟨rfl, rfl, rfl⟩

/-! ## Every step -/

/-- Only one call is under the lock. -/
theorem Sound.outside (h : k.Sound) (hcall : k.calls[id]? = some call)
    (hsection : call.section_.isSome) {i : ℕ} {c : Call} (hc : k.calls[i]? = some c) (hi : i ≠ id) :
    c.section_ = none := by
  by_contra hnot
  have hlock := h.held i c hc (Option.isSome_iff_ne_none.2 hnot)
  rw [h.held id call hcall hsection] at hlock
  exact hi (Option.some.inj hlock).symm

theorem sound_of_alive (herased : k.erased = false) (hlate : k.late = [])
    (hheld : ∀ (i : ℕ) (c : Call), k.calls[i]? = some c → c.section_.isSome → k.lock = some i) :
    k.Sound := by
  refine ⟨hheld, hlate, fun h => ?_, fun h => ?_⟩
  all_goals
    rw [herased] at h
    cases h

/-- On an erased device calls only come to an end. -/
theorem Sound.of_calls (h : k.Sound) (herased : k.erased = true) (hlate : k'.late = k.late)
    (hengine : k'.engine = k.engine)
    (hcalls : ∀ (i : ℕ) (c : Call), k'.calls[i]? = some c → k.calls[i]? = some c ∨
      c.section_ = none ∧ exposed c.rest = false) : k'.Sound := by
  have hquiet (i : ℕ) (c : Call) (hc : k'.calls[i]? = some c) :
      c.section_ = none ∧ exposed c.rest = false :=
    (hcalls i c hc).elim (h.calls herased i c) id
  refine ⟨fun i c hc hsection => ?_, hlate.trans h.late, fun _ => hengine.trans (h.engine herased),
    fun _ => hquiet⟩
  rw [(hquiet i c hc).1] at hsection
  cases hsection

theorem sound_leave (h : k.Sound) : (k.leave id).Sound := by
  have hold (i : ℕ) (c : Call) (hc : (k.leave id).calls[i]? = some c) : k.calls[i]? = some c := by
    rw [getElem?_leave] at hc
    split at hc
    · cases hc
    · exact hc
  cases herased : k.erased with
  | false => exact sound_of_alive herased h.late fun i c hc => h.held i c (hold i c hc)
  | true => exact h.of_calls herased rfl rfl fun i c hc => .inl (hold i c hc)

theorem sound_call (h : k.Sound) (request : Request) : (k.step (.call request)).Sound := by
  rw [step]
  split
  next program hbegins =>
    have hnew {P : ℕ → Call → Prop} (hold : ∀ i c, k.calls[i]? = some c → P i c)
        (hcall : P k.next { rest := program }) (i : ℕ) (c : Call)
        (hc : (k.spawn { rest := program }).calls[i]? = some c) : P i c := by
      rw [spawn, ExtTreeMap.getElem?_insert] at hc
      split at hc
      next heq =>
        cases hc
        exact LawfulEqOrd.eq_of_compare heq ▸ hcall
      · exact hold i c hc
    cases herased : k.erased with
    | false =>
      refine sound_of_alive herased h.late (hnew h.held fun hsection => ?_)
      cases hsection
    | true =>
      refine h.of_calls herased rfl rfl (hnew (fun _ _ => .inl) (.inr ⟨rfl, ?_⟩))
      -- of an erased device only tasks begin
      cases request with
      | task ops =>
        cases hbegins
        exact exposed_task ops
      | _ => simp [begins, isOpen, herased] at hbegins
  next => exact h

/-- A call gets out from under the lock, at the end of its block or with an error. -/
theorem sound_release (h : k.Sound) (hcall : k.calls[id]? = some call)
    (hsection : call.section_.isSome) (herased : k'.erased = false) (hlate : k'.late = k.late)
    (hcalls : ∀ (i : ℕ) (c : Call), k'.calls[i]? = some c → c.section_ = none ∨
      i ≠ id ∧ k.calls[i]? = some c) : k'.Sound := by
  refine sound_of_alive herased (hlate.trans h.late) fun i c hc hsome => ?_
  have hnone : c.section_ = none :=
    (hcalls i c hc).elim (fun hnone => hnone) fun hold => h.outside hcall hsection hold.2 hold.1
  rw [hnone] at hsome
  cases hsome

theorem Sound.alive (h : k.Sound) (hcall : k.calls[id]? = some call)
    (hsection : call.section_.isSome) : k.erased = false := by
  by_contra hnot
  rw [(h.calls (Bool.eq_true_of_not_eq_false hnot) id call hcall).1] at hsection
  cases hsection

/-- An act under the lock. -/
theorem sound_inside (h : k.Sound) {holder : Holder} {a : Act} {body : List Act}
    {rest : List Block} {ok : Bool}
    (hcall : k.calls[id]? = some ⟨some (holder, a :: body), rest⟩)
    (hperform : k.perform ok a = some k') : (k'.put id ⟨some (holder, body), rest⟩).Sound := by
  have halive : k.erased = false := h.alive hcall rfl
  have hact := performed_perform hperform
  refine sound_of_alive (hact.erased.trans halive) ((hact.alive halive).trans h.late)
    fun i c hc hsection => ?_
  show k'.lock = some i
  rw [hact.lock]
  rw [getElem?_put] at hc
  split at hc
  next heq => exact heq ▸ h.held id _ hcall rfl
  next =>
    rcases hact.calls i c hc with hc | hnone
    · exact h.held i c hc hsection
    · rw [hnone] at hsection
      cases hsection

/-- An act outside. -/
theorem sound_outside (h : k.Sound) {a : Act} {rest : List Block} {ok : Bool}
    (hcall : k.calls[id]? = some ⟨none, .act a :: rest⟩) (hperform : k.perform ok a = some k') :
    (k'.put id ⟨none, rest⟩).Sound := by
  have hact := performed_perform hperform
  cases herased : k.erased with
  | false =>
    refine sound_of_alive (hact.erased.trans herased) ((hact.alive herased).trans h.late)
      fun i c hc hsection => ?_
    show k'.lock = some i
    rw [hact.lock]
    rw [getElem?_put] at hc
    split at hc
    · cases hc
      cases hsection
    · rcases hact.calls i c hc with hc | hnone
      · exact h.held i c hc hsection
      · rw [hnone] at hsection
        cases hsection
  | true =>
    obtain ⟨hexposed, hrest⟩ :=
      exposed_of_perform (h.engine herased) hperform (h.calls herased id _ hcall).2
    obtain ⟨hlate, hengine, hcalls⟩ := hact.quiet hexposed
    refine h.of_calls herased hlate hengine fun i c hc => ?_
    rw [getElem?_put] at hc
    split at hc
    · cases hc
      exact .inr ⟨rfl, hrest⟩
    · exact .inl (hcalls ▸ hc)

/-- A call gets the lock. -/
theorem sound_enter (h : k.Sound) {holder : Holder} {body : List Act} {rest : List Block}
    (hlock : ¬ k.lock.isSome) (henter : k.enter holder = some k') :
    ({ k' with lock := some id }.put id ⟨some (holder, body), rest⟩).Sound := by
  cases herased : k.erased with
  | true =>
    rw [enter_erased herased] at henter
    cases henter
  | false =>
    obtain ⟨herased', hlate, hcalls⟩ := enter_fields henter
    refine sound_of_alive (herased'.trans herased) (hlate.trans h.late) fun i c hc hsection => ?_
    rw [getElem?_put] at hc
    split at hc
    next heq => exact congrArg some heq.symm
    next =>
      have hheld := h.held i c (hcalls ▸ hc) hsection
      rw [hheld] at hlock
      exact absurd rfl hlock

/-- The end of an erase that leaves no exposed call behind. -/
theorem sound_erased (h : k.Sound) {rest : List Block}
    (hcall : k.calls[id]? = some ⟨some (.erase, []), rest⟩)
    (hsettled : ∀ entry ∈ k.calls.toList, entry.1 ≠ id → exposed entry.2.rest = false) :
    ({ k.destroyed with lock := none }.leave id).Sound := by
  have hother (i : ℕ) (c : Call)
      (hc : ({ k.destroyed with lock := none }.leave id).calls[i]? = some c) :
      i ≠ id ∧ k.calls[i]? = some c := by
    rw [getElem?_leave] at hc
    split at hc
    · cases hc
    next hi => exact ⟨hi, hc⟩
  have hquiet (i : ℕ) (c : Call)
      (hc : ({ k.destroyed with lock := none }.leave id).calls[i]? = some c) :
      c.section_ = none ∧ exposed c.rest = false := by
    obtain ⟨hi, hc⟩ := hother i c hc
    exact ⟨h.outside hcall rfl hc hi,
      hsettled (i, c) (ExtTreeMap.mem_toList_iff_getElem?_eq_some.2 hc) hi⟩
  refine ⟨fun i c hc hsection => ?_, h.late, fun _ => rfl, fun _ => hquiet⟩
  rw [(hquiet i c hc).1] at hsection
  cases hsection

theorem sound_proceed (h : k.Sound) {ok : Bool} (hl : k.Settled (.proceed id ok)) :
    (k.proceed id ok).Sound := by
  have hreleased {rest : List Block} {k' : Device} (hcalls : k'.calls = k.calls) (i : ℕ) (c : Call)
      (hc : (k'.put id ⟨none, rest⟩).calls[i]? = some c) :
      c.section_ = none ∨ i ≠ id ∧ k.calls[i]? = some c := by
    rw [getElem?_put] at hc
    split at hc
    · cases hc
      exact .inl rfl
    next hi => exact .inr ⟨hi, hcalls ▸ hc⟩
  rw [proceed]
  split
  next => exact h
  next hcall =>
    split
    next hperform => exact sound_inside h hcall hperform
    next =>
      refine sound_release h hcall rfl (h.alive hcall rfl) rfl fun i c hc => ?_
      rw [getElem?_leave] at hc
      split at hc
      · cases hc
      next hi => exact .inr ⟨hi, hc⟩
  next hcall => exact sound_erased h hcall (hl (by rw [erasing, hcall]))
  next hcall => exact sound_release h hcall rfl (h.alive hcall rfl) rfl (hreleased rfl)
  next hcall => exact sound_release h hcall rfl (h.alive hcall rfl) rfl (hreleased rfl)
  next hcall =>
    split
    next hperform => exact sound_outside h hcall hperform
    next => exact sound_leave h
  next =>
    split
    next => exact h
    next hlock =>
      split
      next henter => exact sound_enter h hlock henter
      next => exact sound_leave h
  next => exact sound_leave h

theorem sound_step (k : Device) (l : Label) (hl : k.Settled l) (h : k.Sound) :
    (k.step l).Sound := by
  cases l with
  | call request => exact sound_call h request
  | proceed id ok => exact sound_proceed h hl

theorem sound_boot (asleep : Bool) (tier : Tier) (rest : Rest) (stored : Finset Record) :
    (boot asleep tier rest stored).Sound := by
  refine sound_of_alive rfl rfl fun i c hc hsection => ?_
  cases asleep with
  | true => cases hc
  | false =>
    simp only [boot, Bool.false_eq_true, if_false, ExtTreeMap.getElem?_insert] at hc
    split at hc
    · cases hc
      cases hsection
    · cases hc

/-- Erasing is final in every run in which no exposed call outlives an erase: nothing is written
afterwards, and neither an engine nor an endpoint is started. -/
theorem erase_final (asleep : Bool) (tier : Tier) (rest : Rest) (stored : Finset Record)
    (ls : List Label)
    (hmeets : Transition.Meets step Settled (boot asleep tier rest stored) ls) :
    (Transition.run step (boot asleep tier rest stored) ls).late = [] :=
  (Transition.run_preserves_of_meets sound_step hmeets (sound_boot asleep tier rest stored)).late

/-- A device that keeps itself: a task that is waiting to persist finds it erased, and so does a
`keep` that comes later. -/
def sampleRun : List Label :=
  [.proceed 0 true, .proceed 0 true, .call (.task [.persist true true]), .call .erase] ++
    -- the lock, `destroy` and the end
    List.replicate (destroy.length + 2) (.proceed 2 true) ++
    [.proceed 1 true, .call (.keep true true)]

theorem erase_final_sampleRun :
    (Transition.run step
      (boot false .ephemeral .restsOpen {.index, .dek, .pointer, .state, .manifest})
      sampleRun).late = [] := by
  have hmeets : Transition.Meets step Settled
      (boot false .ephemeral .restsOpen {.index, .dek, .pointer, .state, .manifest}) sampleRun := by
    decide +kernel
  exact erase_final _ _ _ _ _ hmeets

/-- A `keep` past its gate goes on after the erase: the wrapped key and the index row are back. -/
theorem kept_after_erase :
    let k := Transition.run step
      (boot false .ephemeral .restsOpen {.index, .dek, .pointer, .state, .manifest})
      ([.proceed 0 true, .proceed 0 true, .call (.keep true true), .call .erase] ++
        List.replicate (destroy.length + 2) (.proceed 2 true) ++
        List.replicate 3 (.proceed 1 true))
    k.erased = true ∧ k.stored = {.dekWrapped, .index} ∧
      k.late = [.wrote .dekWrapped, .wrote .index] := by
  decide +kernel

end Device

end Erasure

end Polyvisor
