import Mathlib.Logic.Function.Basic
import Polyvisor.Kernel.Erasure
import Polyvisor.Kernel.Seal

/-!
# Keeping a device

`keep`, `resume` and `unseal` of `kernel/src/lib.rs`, in runs with any number of calls of `keep`,
persists and crashes. A call goes on in one step from one await to the next. The small records are
changed in the order in which the changes were issued, so a step makes the change it issues, and a
crash before that change lands is a crash before the step.

What a checkpoint commits is taken as one value, which opens under the key it was sealed with. The
adoption of an identity, `erase` and a full disk do not occur.

## Main results

* `inv_step`: what the small records hold, beside the calls in flight.
* `keep_opens`: in a run in which no `keep` starts on a device without a generation, or beside
  another one with another passphrase, a crash leaves a device that opens to what was committed,
  and one whose `keep` under a passphrase returned opens with that passphrase only.
-/

namespace Polyvisor.Keep

/-! ## The small records -/

/-- `IndexRow`, without the id and the times. -/
structure IndexRow where
  petname : Bytes := []
  tier : Tier := .ephemeral
  rest : Rest := .restsOpen
  deriving DecidableEq

/-- What a checkpoint commits: the name in `Device` and the rest of the metadata, this device's
petname in `us` and the rest of the engine. -/
structure State (M E : Type) where
  name : Bytes
  metadata : M
  member : Bytes
  engine : E

/-- The pointer's generation and what is committed under it, sealed with a key. -/
structure Committed (M E : Type) where
  generation : ℕ
  key : Dek
  state : State M E

/-- The index row, `dek` and `dek-wrapped`, and what the pointer commits. -/
structure Records (M E : Type) where
  row : IndexRow := {}
  dek : Option Dek
  wrapped : Option WrappedDek := none
  committed : Committed M E

variable {M E : Type}

/-- `load`. A device without a generation has no metadata. -/
def load (c : Committed M E) (dek : Dek) : Except Error (Option (State M E)) :=
  if c.generation = 0 then .ok none
  else if c.key.key = dek.key then .ok (some c.state)
  else .error ⟨.failed, "this device's committed state did not open"⟩

/-- How a boot ends. -/
inductive Boot (M E : Type) where
  | opened (dek : Dek) (state : State M E)
  /-- An anchor is to be drawn. -/
  | minted (dek : Dek)
  | sealed (wrapped : WrappedDek)
  | refused (error : Error)

/-- `resume`, with `open_or_mint`. -/
def resume (r : Records M E) : Boot M E :=
  match r.row.rest with
  | .passphrase =>
    match r.wrapped with
    | none => .refused
        ⟨.failed, "this device rests under a passphrase but its wrapped key is missing"⟩
    | some wrapped => .sealed wrapped
  | .restsOpen =>
    match r.dek with
    | none => .refused ⟨.failed, "this device's data key is missing"⟩
    | some dek =>
      match load r.committed dek with
      | .error e => .refused e
      | .ok (some state) => .opened dek state
      | .ok none =>
        if r.row.tier = .ephemeral ∧ r.committed.generation = 0 then .minted dek
        else .refused ⟨.failed, "this device's state did not open"⟩

/-- `unseal` of what a boot left sealed. -/
def unsealWith (login : Login) (id : Bytes) (r : Records M E) (passphrase : Bytes) :
    Except Error (Dek × State M E) :=
  match resume r with
  | .sealed wrapped =>
    match wrapped.unwrapWith login passphrase id with
    | .error _ => .error ⟨.refused, "the passphrase did not open this device"⟩
    | .ok dek =>
      match load r.committed dek with
      | .error e => .error e
      | .ok none => .error ⟨.failed, "this device's state did not open"⟩
      | .ok (some state) => .ok (dek, state)
  | _ => .error ⟨.refused, "this device is already open"⟩

/-- The next boot opens the device to what is committed: by itself, or with this passphrase. -/
def Records.Opens (login : Login) (id : Bytes) (r : Records M E) : Option Bytes → Prop
  | none => ∃ dek, resume r = .opened dek r.committed.state
  | some passphrase => ∃ dek, unsealWith login id r passphrase = .ok (dek, r.committed.state)

/-! ## The device -/

/-- Where a call of `keep` stands. A call without a passphrase leaves the device resting open. -/
inductive Call where
  | idle
  /-- The wrapped key is set. -/
  | wrapped (petname passphrase : Bytes)
  /-- The index row is set, or the device was kept already. -/
  | rowed (passphrase : Option Bytes)
  /-- The engine has the member's petname. -/
  | named (passphrase : Option Bytes)
  /-- The unwrapped key is gone, if it had to go, and the checkpoint is next. -/
  | saving (passphrase : Option Bytes)
  | returned (result : Except Error Unit)

/-- The passphrase a call in flight keeps the device under. -/
def Call.passphrase? : Call → Option Bytes
  | .wrapped _ passphrase => some passphrase
  | .rowed passphrase | .named passphrase | .saving passphrase => passphrase
  | .idle | .returned _ => none

/-- The passphrase of a call that waits for its persist. -/
def Call.saved? : Call → Option Bytes
  | .saving passphrase => passphrase
  | _ => none

/-- A call that waits for its persist returns what that answers. -/
def Call.answered (call : Call) (result : Except Error Unit) : Call :=
  match call with
  | .saving _ => .returned result
  | call => call

/-- What an open device holds in memory. -/
structure Memory (M E : Type) where
  row : IndexRow
  dek : Dek
  state : State M E

/-- The persist that holds the lock: the call it is for, if it is a `keep`, what it copied, and
whether the pointer has moved. -/
structure Writer (M E : Type) where
  owner : Option ℕ
  metadata : Bool
  key : Dek
  state : State M E
  landed : Bool := false

/-- A device. The last three fields only record: whether a `keep` has started to write, the
passphrase of the last wrapped key, and the passphrases of the calls that returned `Ok`. -/
structure Device (M E : Type) where
  records : Records M E
  memory : Option (Memory M E)
  writer : Option (Writer M E) := none
  calls : ℕ → Call := fun _ => .idle
  begun : Bool := false
  offered : Option Bytes := none
  kept : List Bytes := []

/-- A device that was just minted, and whether its first checkpoint landed. -/
def Device.mint (dek : Dek) (state : State M E) (landed : Bool) : Device M E where
  records := { dek := some dek, committed := ⟨if landed then 1 else 0, dek, state⟩ }
  memory := some { row := {}, dek, state }

/-- What a call of `keep` draws. -/
structure Draw where
  petname : Bytes
  salt : Bytes
  nonce : Nonce

inductive Label (M E : Type) where
  /-- Any other call changes what is in memory. -/
  | mutate (state : State M E)
  | keep (id : ℕ) (petname : Bytes) (passphrase : Option Bytes) (draw : Draw)
  /-- A call goes on; `set_member_petname` answers. -/
  | go (id : ℕ) (member : Except String Unit)
  /-- A persist gets the lock and copies what it writes. -/
  | prepare (owner : Option ℕ) (metadata : Bool)
  /-- The pointer moves. -/
  | commit
  | finish (result : Except Error Unit)
  /-- `unseal`. -/
  | login (passphrase : Bytes)
  /-- The process stops and boots again. If an anchor is to be drawn, this is it. -/
  | crash (fresh : State M E) (landed : Bool)

/-- What a persist leaves committed. One of the engine alone leaves the metadata as it is. -/
def Writer.over (w : Writer M E) (c : Committed M E) : Committed M E where
  generation := c.generation + w.metadata.toNat
  key := w.key
  state :=
    if w.metadata then w.state
    else { c.state with member := w.state.member, engine := w.state.engine }

namespace Device

/-- `keep` sets the row, in memory and on disk. -/
def promote (d : Device M E) (id : ℕ) (m : Memory M E) (petname : Bytes)
    (passphrase : Option Bytes) : Device M E :=
  let row : IndexRow := {
    petname
    tier := .durable
    rest := if passphrase.isSome then .passphrase else .restsOpen }
  let name := if m.state.name = [] then petname else m.state.name
  { d with
    records := { d.records with row }
    memory := some { m with row, state := { m.state with name } }
    calls := Function.update d.calls id (.rowed passphrase)
    begun := true }

/-- `keep`, up to its first await. -/
def keep (login : Login) (deviceId : Bytes) (d : Device M E) (id : ℕ) (petname : Bytes)
    (passphrase : Option Bytes) (draw : Draw) : Device M E :=
  match d.memory, d.calls id with
  | some m, .idle =>
    let petname :=
      if petname ≠ [] then petname
      else if m.state.name ≠ [] then m.state.name
      else draw.petname
    if m.row.tier = .durable then
      if m.row.rest = .restsOpen ∧ passphrase = none then
        let name := if m.state.name = [] then petname else m.state.name
        { d with
          memory := some { m with row := { m.row with petname }, state := { m.state with name } }
          calls := Function.update d.calls id (.rowed none) }
      else
        { d with
          calls := Function.update d.calls id (.returned (.error
            ⟨.refused, "this device is already kept; how it rests cannot be changed yet"⟩)) }
    else
      match passphrase with
      | none => d.promote id m petname none
      | some passphrase =>
        match WrappedDek.wrap login draw.salt draw.nonce m.dek passphrase deviceId with
        | .error e => { d with calls := Function.update d.calls id (.returned (.error e)) }
        | .ok wrapped =>
          { d with
            records := { d.records with wrapped := some wrapped }
            calls := Function.update d.calls id (.wrapped petname passphrase)
            begun := true
            offered := some passphrase }
  | _, _ => d

/-- `keep`, from an await to the next. -/
def go (d : Device M E) (id : ℕ) (member : Except String Unit) : Device M E :=
  match d.memory, d.calls id with
  | some m, .wrapped petname passphrase => d.promote id m petname (some passphrase)
  | some m, .rowed passphrase =>
    match member with
    | .error why =>
      { d with calls := Function.update d.calls id (.returned (.error ⟨.failed, why⟩)) }
    | .ok () =>
      { d with
        memory := some { m with state := { m.state with member := m.state.name } }
        calls := Function.update d.calls id (.named passphrase) }
  | some _, .named passphrase =>
    { d with
      records := { d.records with dek := if passphrase.isSome then none else d.records.dek }
      calls := Function.update d.calls id (.saving passphrase) }
  | _, _ => d

/-- The call a persist is for waits for it. -/
def Waits (d : Device M E) (owner : Option ℕ) (metadata : Bool) : Prop :=
  ∀ id ∈ owner, metadata = true ∧ ∃ passphrase, d.calls id = .saving passphrase

instance (d : Device M E) (owner : Option ℕ) (metadata : Bool) :
    Decidable (d.Waits owner metadata) :=
  match owner with
  | none => isTrue (fun _ h => nomatch h)
  | some id =>
    match hcall : d.calls id, metadata with
    | .saving passphrase, true => isTrue (fun _ h => Option.some.inj h ▸ ⟨rfl, passphrase, hcall⟩)
    | _, false => isFalse fun h => nomatch (h id rfl).1
    | .idle, true | .wrapped _ _, true | .rowed _, true | .named _, true | .returned _, true =>
      isFalse fun h => by
        obtain ⟨-, _, hsaving⟩ := h id rfl
        exact nomatch hcall.symm.trans hsaving

def prepare (d : Device M E) (owner : Option ℕ) (metadata : Bool) : Device M E :=
  match d.memory, d.writer with
  | some m, none =>
    if d.Waits owner metadata then
      { d with writer := some { owner, metadata, key := m.dek, state := m.state } }
    else d
  | _, _ => d

def commit (d : Device M E) : Device M E :=
  match d.writer with
  | some w =>
    if w.landed then d
    else
      { d with
        records := { d.records with committed := w.over d.records.committed }
        writer := some { w with landed := true } }
  | none => d

/-- A persist ends: `touch_lease` if it went well, and the `keep` it is for returns. -/
def finish (d : Device M E) (result : Except Error Unit) : Device M E :=
  match d.memory, d.writer with
  | some m, some w =>
    if result.isOk ∧ ¬ w.landed then d
    else
      let calls := match w.owner with
        | none => d.calls
        | some id => Function.update d.calls id ((d.calls id).answered result)
      let passphrase := w.owner.bind fun id => (d.calls id).saved?
      if result.isOk then
        { d with
          records := { d.records with row := m.row }
          writer := none
          calls
          kept := passphrase.toList ++ d.kept }
      else { d with writer := none, calls }
  | _, _ => d

/-- `boot` of a device that has a row. -/
def crash (d : Device M E) (fresh : State M E) (landed : Bool) : Device M E :=
  let d := { d with writer := none, calls := fun _ => .idle }
  match resume d.records with
  | .opened dek state => { d with memory := some { row := d.records.row, dek, state } }
  | .minted dek =>
    { d with
      records := { d.records with
        committed := if landed then ⟨1, dek, fresh⟩ else d.records.committed }
      memory := some { row := d.records.row, dek, state := fresh } }
  -- the tail of `keep`, done here
  | .sealed _ => { d with records := { d.records with dek := none }, memory := none }
  | .refused _ => { d with memory := none }

variable (login : Login) (deviceId : Bytes)

def step (d : Device M E) : Label M E → Device M E
  | .mutate state => { d with memory := d.memory.map fun m => { m with state } }
  | .keep id petname passphrase draw => d.keep login deviceId id petname passphrase draw
  | .go id member => d.go id member
  | .prepare owner metadata => d.prepare owner metadata
  | .commit => d.commit
  | .finish result => d.finish result
  | .login passphrase =>
    match d.memory, unsealWith login deviceId d.records passphrase with
    | none, .ok (dek, state) =>
      { d with memory := some { row := d.records.row, dek, state } }
    | _, _ => d
  | .crash fresh landed => d.crash fresh landed

end Device

/-- What a boot has found. -/
def Records.Found (r : Records M E) : Boot M E → Prop
  | .opened dek _ => r.row.rest = .restsOpen ∧ r.dek = some dek
  | .minted dek => r.row.rest = .restsOpen ∧ r.dek = some dek ∧ r.row.tier = .ephemeral ∧
    r.committed.generation = 0
  | .sealed _ => r.row.rest = .passphrase
  | .refused _ => True

theorem found_resume (r : Records M E) : r.Found (resume r) := by
  unfold resume
  rcases hrest : r.row.rest with _ | _ <;> dsimp only
  · rcases hdek : r.dek with _ | dek <;> dsimp only
    · trivial
    · split
      · trivial
      · exact ⟨hrest, hdek⟩
      · split
        · next hfirst => exact ⟨hrest, hdek, hfirst⟩
        · trivial
  · split
    · trivial
    · exact hrest

/-- A stored state opens under its own key. -/
theorem load_eq {c : Committed M E} (hgeneration : c.generation ≠ 0) :
    load c c.key = .ok (some c.state) := by
  rw [load, if_neg hgeneration, if_pos rfl]

/-! ## What holds around the calls -/

section Invariant

variable {login : Login} {deviceId : Bytes} {dek : Dek} {d : Device M E}

/-- The wrapped key that is stored opens to the data key, and with this passphrase. -/
def Device.Under (login : Login) (deviceId : Bytes) (dek : Dek) (d : Device M E)
    (passphrase : Bytes) : Prop :=
  d.offered = some passphrase ∧ ∃ wrapped, d.records.wrapped = some wrapped ∧
    wrapped.unwrapWith login passphrase deviceId = .ok dek

/-- What holds while a call stands at a point. -/
def Device.At (login : Login) (deviceId : Bytes) (dek : Dek) (d : Device M E) : Call → Prop
  | .wrapped _ passphrase => d.Under login deviceId dek passphrase
  | .rowed (some passphrase) | .named (some passphrase) =>
    d.Under login deviceId dek passphrase ∧ d.records.row.rest = .passphrase
  | .saving (some passphrase) =>
    d.Under login deviceId dek passphrase ∧ d.records.row.rest = .passphrase ∧ d.records.dek = none
  | _ => True

/-- The row in memory says what the stored one says. -/
structure Memory.Agrees (dek : Dek) (m : Memory M E) (row : IndexRow) : Prop where
  dek : m.dek = dek
  tier : m.row.tier = row.tier
  rest : m.row.rest = row.rest

structure Inv (login : Login) (deviceId : Bytes) (dek : Dek) (d : Device M E) : Prop where
  key : d.records.committed.key = dek
  memory : ∀ m ∈ d.memory, m.Agrees dek d.records.row
  writer : ∀ w ∈ d.writer, w.key = dek
  /-- The unwrapped key stays as long as the row says that the device rests open. -/
  restsOpen : d.records.row.rest = .restsOpen → d.records.dek = some dek
  passphrase : d.records.row.rest = .passphrase → d.records.row.tier = .durable ∧
    ∃ passphrase, d.Under login deviceId dek passphrase
  durable : d.records.row.tier = .durable → d.begun
  offered : ∀ passphrase, d.offered = some passphrase → d.begun
  begun : d.begun → d.records.committed.generation ≠ 0
  calls : ∀ id, d.At login deviceId dek (d.calls id)
  kept : ∀ passphrase ∈ d.kept, d.records.row.rest = .passphrase ∧
    d.Under login deviceId dek passphrase ∧ d.records.dek = none

theorem inv_mint (dek : Dek) (state : State M E) (landed : Bool) :
    Inv login deviceId dek (.mint dek state landed) where
  key := rfl
  memory m hm := by
    obtain rfl := Option.mem_some.1 hm
    exact ⟨rfl, rfl, rfl⟩
  writer _ hw := nomatch hw
  restsOpen _ := rfl
  passphrase h := nomatch h
  durable h := nomatch h
  offered _ h := nomatch h
  begun h := nomatch h
  calls _ := trivial
  kept _ h := nomatch h

/-- A call whose point asks for nothing. -/
theorem inv_setCall (h : Inv login deviceId dek d) (id : ℕ) (call : Call)
    (hcall : d.At login deviceId dek call) :
    Inv login deviceId dek { d with calls := Function.update d.calls id call } where
  key := h.key
  memory := h.memory
  writer := h.writer
  restsOpen := h.restsOpen
  passphrase := h.passphrase
  durable := h.durable
  offered := h.offered
  begun := h.begun
  calls other := by
    show d.At login deviceId dek (Function.update d.calls id call other)
    by_cases hother : other = id
    · rw [hother, Function.update_self]
      exact hcall
    · rw [Function.update_of_ne hother]
      exact h.calls other
  kept := h.kept

/-- Nothing of the memory but how the device rests is bound to what is stored. -/
theorem inv_rename (h : Inv login deviceId dek d) {m : Memory M E} (hm : m ∈ d.memory)
    (petname : Bytes) (state : State M E) :
    Inv login deviceId dek
      { d with memory := some { m with row := { m.row with petname }, state } } where
  key := h.key
  memory held hheld := by
    obtain rfl := Option.mem_some.1 hheld
    exact ⟨(h.memory m hm).dek, (h.memory m hm).tier, (h.memory m hm).rest⟩
  writer := h.writer
  restsOpen := h.restsOpen
  passphrase := h.passphrase
  durable := h.durable
  offered := h.offered
  begun := h.begun
  calls := h.calls
  kept := h.kept

/-! ## Steps -/

/-- No `keep` starts on a device without a generation, or beside another one with another
passphrase. -/
def Device.Orderly (d : Device M E) : Label M E → Prop
  | .keep _ _ passphrase _ => ∀ m ∈ d.memory, m.row.tier = .ephemeral →
    d.records.committed.generation ≠ 0 ∧
      ∀ given ∈ passphrase, ∀ id, ∀ other ∈ (d.calls id).passphrase?, other = given
  | _ => True

/-- A call keeps its point under another row, unless that row is the first to rest open. -/
theorem at_of_row (row : IndexRow) {call : Call} (h : d.At login deviceId dek call)
    (hrest : row.rest = .passphrase ∨ d.records.row.rest = .restsOpen) :
    ({ d with records := { d.records with row } } : Device M E).At login deviceId dek call := by
  have hkeeps : d.records.row.rest = .passphrase → row.rest = .passphrase := by
    intro hpassphrase
    refine hrest.resolve_right fun hopen => ?_
    rw [hpassphrase] at hopen
    exact nomatch hopen
  rcases call with _ | ⟨petname, given⟩ | (_ | given) | (_ | given) | (_ | given) | result
  · trivial
  · exact h
  · trivial
  · exact ⟨h.1, hkeeps h.2⟩
  · trivial
  · exact ⟨h.1, hkeeps h.2⟩
  · trivial
  · exact ⟨h.1, hkeeps h.2.1, h.2.2⟩
  · trivial

/-- The row is set, in memory and on disk: to a passphrase that opens what is stored, or to rest
open where it rested open before. -/
theorem inv_row (h : Inv login deviceId dek d) (m : Memory M E) (row : IndexRow)
    (hm : m.Agrees dek row) (hdurable : row.tier = .durable)
    (hgeneration : d.records.committed.generation ≠ 0)
    (hrest : (row.rest = .passphrase ∧ ∃ passphrase, d.Under login deviceId dek passphrase) ∨
      row.rest = .restsOpen ∧ d.records.row.rest = .restsOpen) :
    Inv login deviceId dek
      { d with records := { d.records with row }, memory := some m, begun := true } where
  key := h.key
  memory held hheld := by
    obtain rfl := Option.mem_some.1 hheld
    exact hm
  writer := h.writer
  restsOpen hopen := by
    rcases hrest with ⟨hpassphrase, -⟩ | ⟨-, hbefore⟩
    · exact nomatch hpassphrase.symm.trans hopen
    · exact h.restsOpen hbefore
  passphrase hpassphrase := by
    rcases hrest with ⟨-, hunder⟩ | ⟨hopen, -⟩
    · exact ⟨hdurable, hunder⟩
    · exact nomatch hopen.symm.trans hpassphrase
  durable _ := rfl
  offered _ _ := rfl
  begun _ := hgeneration
  calls id := at_of_row row (h.calls id) (hrest.imp And.left And.right)
  kept passphrase hkept := by
    obtain ⟨hbefore, hunder, hdek⟩ := h.kept passphrase hkept
    rcases hrest with ⟨hpassphrase, -⟩ | ⟨-, hopen⟩
    · exact ⟨hpassphrase, hunder, hdek⟩
    · exact nomatch hopen.symm.trans hbefore

theorem inv_promote (h : Inv login deviceId dek d) {m : Memory M E} (hm : m ∈ d.memory) (id : ℕ)
    (petname : Bytes) {passphrase : Option Bytes} (hgeneration : d.records.committed.generation ≠ 0)
    (hopen : passphrase = none → d.records.row.rest = .restsOpen)
    (hunder : ∀ given ∈ passphrase, d.Under login deviceId dek given) :
    Inv login deviceId dek (d.promote id m petname passphrase) := by
  let name := if m.state.name = [] then petname else m.state.name
  have hagrees : ∀ row, Memory.Agrees dek { m with row, state := { m.state with name } } row :=
    fun _ => ⟨(h.memory m hm).dek, rfl, rfl⟩
  rcases passphrase with _ | given
  · have hset := inv_row h _ _ (hagrees ⟨petname, .durable, .restsOpen⟩) rfl hgeneration
      (.inr ⟨rfl, hopen rfl⟩)
    exact inv_setCall hset id (.rowed none) trivial
  · have hgiven := hunder given rfl
    have hset := inv_row h _ _ (hagrees ⟨petname, .durable, .passphrase⟩) rfl hgeneration
      (.inl ⟨rfl, given, hgiven⟩)
    exact inv_setCall hset id (.rowed (some given)) ⟨hgiven, rfl⟩

/-- A device that is not kept rests open, and no call of it has returned. -/
theorem restsOpen_of_ephemeral (h : Inv login deviceId dek d) {m : Memory M E} (hm : m ∈ d.memory)
    (hephemeral : m.row.tier = .ephemeral) : d.records.row.rest = .restsOpen := by
  rcases hrest : d.records.row.rest with _ | _
  · rfl
  · have hdurable := (h.passphrase hrest).1
    rw [← (h.memory m hm).tier, hephemeral] at hdurable
    exact nomatch hdurable

/-- The wrapped key is set again: every call that keeps the device under a passphrase keeps it under
this one. -/
theorem inv_wrap (h : Inv login deviceId dek d) {given : Bytes} {wrapped : WrappedDek}
    (hopens : wrapped.unwrapWith login given deviceId = .ok dek)
    (hopen : d.records.row.rest = .restsOpen) (hgeneration : d.records.committed.generation ≠ 0)
    (halone : ∀ id, ∀ other ∈ (d.calls id).passphrase?, other = given) :
    Inv login deviceId dek { d with
      records := { d.records with wrapped := some wrapped }
      begun := true
      offered := some given } where
  key := h.key
  memory := h.memory
  writer := h.writer
  restsOpen := h.restsOpen
  passphrase hpassphrase := nomatch hopen.symm.trans hpassphrase
  durable _ := rfl
  offered _ _ := rfl
  begun _ := hgeneration
  calls id := by
    have hat := h.calls id
    have hgiven := halone id
    -- past the first point, a call with a passphrase would have set the row
    rcases hcall : d.calls id with _ | ⟨petname, other⟩ | (_ | other) | (_ | other) | (_ | other) |
      result <;> rw [hcall] at hat hgiven
    · trivial
    · obtain rfl := hgiven other rfl
      exact ⟨rfl, wrapped, rfl, hopens⟩
    · trivial
    · exact nomatch hopen.symm.trans hat.2
    · trivial
    · exact nomatch hopen.symm.trans hat.2
    · trivial
    · exact nomatch hopen.symm.trans hat.2.1
    · trivial
  kept passphrase hkept := nomatch hopen.symm.trans (h.kept passphrase hkept).1

theorem inv_keep (haead : login.aead.Lawful) (h : Inv login deviceId dek d) {id : ℕ}
    {petname : Bytes} {passphrase : Option Bytes} {draw : Draw}
    (horderly : d.Orderly (.keep id petname passphrase draw)) :
    Inv login deviceId dek (d.keep login deviceId id petname passphrase draw) := by
  rw [Device.keep]
  split
  · next m hmemory hidle =>
    have hagrees := h.memory m hmemory
    dsimp only
    split
    · split
      · -- only the petname changes
        exact inv_setCall (inv_rename h hmemory _ _) id (.rowed none) trivial
      · exact inv_setCall h id _ trivial
    · next hdurable =>
      have hephemeral : m.row.tier = .ephemeral := by
        rcases htier : m.row.tier with _ | _
        · rfl
        · exact absurd htier hdurable
      have hopen := restsOpen_of_ephemeral h hmemory hephemeral
      obtain ⟨hgeneration, halone⟩ := horderly m hmemory hephemeral
      rcases passphrase with _ | given
      · exact inv_promote h hmemory id _ hgeneration (fun _ => hopen)
          (fun _ hgiven => nomatch hgiven)
      · dsimp only
        split
        · exact inv_setCall h id _ trivial
        · next wrapped hwrap =>
          have hopens := WrappedDek.unwrapWith_wrap haead hwrap
          rw [hagrees.dek] at hopens
          exact inv_setCall (inv_wrap h hopens hopen hgeneration (halone given rfl)) id _
            ⟨rfl, wrapped, rfl, hopens⟩
  · exact h

/-- The unwrapped key is deleted by a call whose passphrase opens the device. -/
theorem inv_deleteDek (h : Inv login deviceId dek d)
    (hpassphrase : d.records.row.rest = .passphrase) :
    Inv login deviceId dek { d with records := { d.records with dek := none } } where
  key := h.key
  memory := h.memory
  writer := h.writer
  restsOpen hopen := nomatch hpassphrase.symm.trans hopen
  passphrase := h.passphrase
  durable := h.durable
  offered := h.offered
  begun := h.begun
  calls id := by
    have hat := h.calls id
    rcases hcall : d.calls id with _ | ⟨petname, given⟩ | (_ | given) | (_ | given) | (_ | given) |
      result <;> rw [hcall] at hat
    · trivial
    · exact hat
    · trivial
    · exact hat
    · trivial
    · exact hat
    · trivial
    · exact ⟨hat.1, hat.2.1, rfl⟩
    · trivial
  kept passphrase hkept := ⟨hpassphrase, (h.kept passphrase hkept).2.1, rfl⟩

theorem inv_go (h : Inv login deviceId dek d) (id : ℕ) (member : Except String Unit) :
    Inv login deviceId dek (d.go id member) := by
  have hat := h.calls id
  rw [Device.go]
  split
  · next m petname given hmemory hcall =>
    rw [hcall] at hat
    have hgeneration : d.records.committed.generation ≠ 0 := h.begun (h.offered given hat.1)
    refine inv_promote h hmemory id petname hgeneration (fun hnone => nomatch hnone) ?_
    rintro _ ⟨⟩
    exact hat
  · next m passphrase hmemory hcall =>
    rw [hcall] at hat
    split
    · exact inv_setCall h id _ trivial
    · refine inv_setCall (inv_rename h hmemory m.row.petname _) id (.named passphrase) ?_
      rcases passphrase with _ | given
      · trivial
      · exact hat
  · next m passphrase hmemory hcall =>
    rw [hcall] at hat
    rcases passphrase with _ | given
    · exact inv_setCall h id _ trivial
    · exact inv_setCall (inv_deleteDek h hat.2) id (.saving (some given)) ⟨hat.1, hat.2, rfl⟩
  · exact h

theorem inv_prepare (h : Inv login deviceId dek d) (owner : Option ℕ) (metadata : Bool) :
    Inv login deviceId dek (d.prepare owner metadata) := by
  rw [Device.prepare]
  split
  · next m hmemory _ =>
    split
    · refine { h with writer := fun w hw => ?_ }
      obtain rfl := Option.mem_some.1 hw
      exact (h.memory m hmemory).dek
    · exact h
  · exact h

theorem inv_commit (h : Inv login deviceId dek d) : Inv login deviceId dek d.commit := by
  rw [Device.commit]
  split
  · next w hw =>
    split
    · exact h
    · refine { h with
        key := h.writer w hw
        writer := fun held hheld => ?_
        begun := fun hbegun => ?_ }
      · obtain rfl := Option.mem_some.1 hheld
        exact h.writer w hw
      · -- the generation never goes down
        have hbefore := h.begun hbegun
        show d.records.committed.generation + w.metadata.toNat ≠ 0
        omega
  · exact h

/-- The lease writes a row that says how the device rests as the stored one does. -/
theorem inv_lease (h : Inv login deviceId dek d) {m : Memory M E} (hm : m ∈ d.memory) :
    Inv login deviceId dek { d with records := { d.records with row := m.row } } := by
  have hagrees := h.memory m hm
  have hrest : d.records.row.rest = .passphrase ↔ m.row.rest = .passphrase := by
    rw [hagrees.rest]
  refine { h with
    memory := ?_, restsOpen := ?_, passphrase := ?_, durable := ?_, calls := ?_, kept := ?_ }
  · intro held hheld
    obtain rfl := Option.some.inj (hm.symm.trans hheld)
    exact ⟨hagrees.dek, rfl, rfl⟩
  · exact fun hopen => h.restsOpen (hagrees.rest ▸ hopen)
  · intro hpassphrase
    obtain ⟨hdurable, hunder⟩ := h.passphrase (hrest.2 hpassphrase)
    exact ⟨hagrees.tier.trans hdurable, hunder⟩
  · exact fun hdurable => h.durable (hagrees.tier ▸ hdurable)
  · intro id
    refine at_of_row m.row (h.calls id) ?_
    rcases hopen : d.records.row.rest with _ | _
    · exact .inr rfl
    · exact .inl (hrest.1 hopen)
  · intro passphrase hkept
    exact ⟨hrest.1 (h.kept passphrase hkept).1, (h.kept passphrase hkept).2⟩

theorem at_answered {call : Call} (h : d.At login deviceId dek call) (result : Except Error Unit) :
    d.At login deviceId dek (call.answered result) := by
  rcases call with _ | _ | _ | _ | passphrase | _
  · trivial
  · exact h
  · exact h
  · exact h
  · trivial
  · trivial

/-- The persist ends, and the call it is for may return. -/
theorem inv_answer (h : Inv login deviceId dek d) (owner : Option ℕ) (result : Except Error Unit) :
    Inv login deviceId dek { d with
      writer := none
      calls := match owner with
        | none => d.calls
        | some id => Function.update d.calls id ((d.calls id).answered result) } := by
  have hfree : Inv login deviceId dek { d with writer := none } :=
    { h with writer := fun _ hw => nomatch hw }
  rcases owner with _ | id
  · exact hfree
  · exact inv_setCall hfree id _ (at_answered (h.calls id) result)

theorem inv_finish (h : Inv login deviceId dek d) (result : Except Error Unit) :
    Inv login deviceId dek (d.finish result) := by
  rw [Device.finish]
  split
  · next m w hmemory hwriter =>
    split
    · exact h
    dsimp only
    by_cases hok : result.isOk
    · rw [if_pos hok]
      have hended := inv_answer (inv_lease h hmemory) w.owner result
      refine { hended with kept := fun given hgiven => ?_ }
      rcases List.mem_append.1 hgiven with hnew | hbefore
      · -- the call that returns waited with this passphrase
        obtain ⟨id, -, hsaved⟩ := Option.bind_eq_some_iff.1 (Option.mem_toList.1 hnew)
        have hat := (inv_lease h hmemory).calls id
        have hcall : d.calls id = .saving (some given) := by
          rcases hcall : d.calls id with _ | _ | _ | _ | other | _ <;> rw [hcall] at hsaved
          case saving => exact congrArg Call.saving hsaved
          all_goals exact nomatch hsaved
        replace hat : _ ∧ _ := hcall ▸ hat
        exact ⟨hat.2.1, hat.1, hat.2.2⟩
      · exact hended.kept given hbefore
    · rw [if_neg hok]
      exact inv_answer h w.owner result
  · exact h

theorem inv_crash (h : Inv login deviceId dek d) (fresh : State M E) (landed : Bool) :
    Inv login deviceId dek (d.crash fresh landed) := by
  have hstopped : Inv login deviceId dek { d with writer := none, calls := fun _ => .idle } :=
    { h with writer := (fun _ hw => nomatch hw), calls := fun _ => trivial }
  have hfound := found_resume d.records
  rw [Device.crash]
  dsimp only
  split
  · next key state hresume =>
    rw [hresume] at hfound
    refine { hstopped with memory := fun m hm => ?_ }
    obtain rfl := Option.mem_some.1 hm
    exact ⟨Option.some.inj (hfound.2.symm.trans (h.restsOpen hfound.1)), rfl, rfl⟩
  · next key hresume =>
    rw [hresume] at hfound
    obtain ⟨hopen, hdek, -, hzero⟩ := hfound
    obtain rfl := Option.some.inj (hdek.symm.trans (h.restsOpen hopen))
    have hkey : (if landed then ⟨1, key, fresh⟩ else d.records.committed : Committed M E).key =
        key := by
      split
      · rfl
      · exact h.key
    refine { hstopped with key := hkey, memory := fun m hm => ?_, begun := fun hbegun => ?_ }
    · obtain rfl := Option.mem_some.1 hm
      exact ⟨rfl, rfl, rfl⟩
    · exact absurd hzero (h.begun hbegun)
  · next wrapped hresume =>
    rw [hresume] at hfound
    exact { inv_deleteDek hstopped hfound with memory := fun _ hm => nomatch hm }
  · exact { hstopped with memory := fun _ hm => nomatch hm }

/-- A key that `unseal` answers is the one what is committed was sealed with. -/
theorem key_of_unsealWith {passphrase : Bytes} {key : Dek} {state : State M E}
    (h : Inv login deviceId dek d)
    (hunseal : unsealWith login deviceId d.records passphrase = .ok (key, state)) : key = dek := by
  unfold unsealWith at hunseal
  split at hunseal
  · split at hunseal
    · exact nomatch hunseal
    · next unwrapped hunwrap =>
      split at hunseal
      · exact nomatch hunseal
      · exact nomatch hunseal
      · next found hload =>
        obtain rfl := (Prod.mk.inj (Except.ok.inj hunseal)).1
        rw [load] at hload
        split at hload
        · exact nomatch hload
        · split at hload
          · next hsame =>
            rw [h.key] at hsame
            rcases dek with ⟨bytes, hlength⟩
            rcases unwrapped with ⟨bytes', hlength'⟩
            obtain rfl : bytes = bytes' := hsame
            rfl
          · exact nomatch hload
  · exact nomatch hunseal

theorem inv_step (haead : login.aead.Lawful) (l : Label M E) (horderly : d.Orderly l)
    (h : Inv login deviceId dek d) : Inv login deviceId dek (d.step login deviceId l) := by
  rcases l with state | ⟨id, petname, passphrase, draw⟩ | ⟨id, member⟩ | ⟨owner, metadata⟩ | _ |
    result | passphrase | ⟨fresh, landed⟩
  · refine { h with memory := fun m hm => ?_ }
    obtain ⟨held, hheld, rfl⟩ := Option.map_eq_some_iff.1 hm
    exact ⟨(h.memory held hheld).dek, (h.memory held hheld).tier, (h.memory held hheld).rest⟩
  · exact inv_keep haead h horderly
  · exact inv_go h id member
  · exact inv_prepare h owner metadata
  · exact inv_commit h
  · exact inv_finish h result
  · rw [Device.step]
    split
    · next key state _ hunseal =>
      refine { h with memory := fun m hm => ?_ }
      obtain rfl := Option.mem_some.1 hm
      exact ⟨key_of_unsealWith h hunseal, rfl, rfl⟩
    · exact h
  · exact inv_crash h fresh landed

/-! ## Runs -/

/-- What a crash at this point leaves: once a `keep` has started to write, a device that opens to
what is committed, by itself or with the passphrase of the last wrapped key; and for every `keep`
with a passphrase that returned `Ok`, one that opens with it and has no unwrapped key. -/
structure Device.Safe (login : Login) (deviceId : Bytes) (d : Device M E) : Prop where
  opens : d.begun → d.records.Opens login deviceId none ∨
    ∃ passphrase, d.offered = some passphrase ∧ d.records.Opens login deviceId (some passphrase)
  kept : ∀ passphrase ∈ d.kept, d.records.Opens login deviceId (some passphrase) ∧
    d.records.dek = none

theorem opens_of_under (h : Inv login deviceId dek d) (hrest : d.records.row.rest = .passphrase)
    {passphrase : Bytes} (hunder : d.Under login deviceId dek passphrase) :
    d.records.Opens login deviceId (some passphrase) := by
  obtain ⟨-, wrapped, hwrapped, hopens⟩ := hunder
  have hgeneration := h.begun (h.durable (h.passphrase hrest).1)
  have hload := load_eq hgeneration
  rw [h.key] at hload
  refine ⟨dek, ?_⟩
  have hresume : resume d.records = .sealed wrapped := by
    simp only [resume, hrest, hwrapped]
  simp only [unsealWith, hresume, hopens, hload]

theorem safe_of_inv (h : Inv login deviceId dek d) : d.Safe login deviceId := by
  refine ⟨fun hbegun => ?_, fun passphrase hkept => ?_⟩
  · rcases hrest : d.records.row.rest with _ | _
    · have hload := load_eq (h.begun hbegun)
      rw [h.key] at hload
      exact .inl ⟨dek, by simp only [resume, hrest, h.restsOpen hrest, hload]⟩
    · obtain ⟨-, passphrase, hunder⟩ := h.passphrase hrest
      exact .inr ⟨passphrase, hunder.1, opens_of_under h hrest hunder⟩
  · obtain ⟨hrest, hunder, hdek⟩ := h.kept passphrase hkept
    exact ⟨opens_of_under h hrest hunder, hdek⟩

end Invariant

/-- In every run in which no `keep` starts on a device without a generation, or beside another one
with another passphrase, a crash at any point leaves a device that opens. -/
theorem keep_opens {login : Login} (haead : login.aead.Lawful) (deviceId : Bytes) (dek : Dek)
    (state : State M E) (landed : Bool) {labels : List (Label M E)}
    (horderly : Transition.Meets (Device.step login deviceId) Device.Orderly
      (.mint dek state landed) labels) :
    (Transition.run (Device.step login deviceId) (.mint dek state landed) labels).Safe login
      deviceId :=
  safe_of_inv (Transition.run_preserves_of_meets (fun _ l => inv_step haead l) horderly
    (inv_mint dek state landed))

/-- The key `7` in every byte. -/
def exampleDek : Dek := ⟨List.replicate dekLen 7, by decide⟩

/-- A key is derived by repeating the passphrase, and encryption puts the key in front. -/
def exampleLogin : Login where
  aead := {
    encrypt := fun key _ plain _ => some (key ++ plain)
    decrypt := fun key _ ct _ =>
      if ct.take key.length = key then some (ct.drop key.length) else none }
  deriveKek := fun passphrase _ => .ok passphrase

theorem exampleLogin_lawful : exampleLogin.aead.Lawful where
  decrypt_encrypt {key nonce plain aad ct} h := by
    obtain rfl := Option.some.inj h
    simp [exampleLogin]

def exampleState : State Unit Unit := ⟨[], (), [], ()⟩

def exampleDraw : Draw := ⟨[1], [], ⟨List.replicate nonceLen 0, length_zeros⟩⟩

/-- A call of `keep` goes on to its end. -/
def keepToEnd (id : ℕ) : List (Label Unit Unit) :=
  [.go id (.ok ()), .go id (.ok ()), .prepare (some id) true, .commit, .finish (.ok ())]

/-- The first checkpoint of a device failed, and it is kept. -/
def keptWithoutGeneration : Device Unit Unit :=
  Transition.run (Device.step exampleLogin []) (.mint exampleDek exampleState false)
    [.keep 0 [2] none exampleDraw]

/-- A device is kept under two passphrases at once. -/
def keptTwice : Device Unit Unit :=
  Transition.run (Device.step exampleLogin []) (.mint exampleDek exampleState true)
    ([.keep 0 [2] (some [5]) exampleDraw, .keep 1 [2] (some [6]) exampleDraw,
      .go 0 (.ok ()), .go 1 (.ok ())] ++ keepToEnd 0 ++ keepToEnd 1)

/-- Of two calls that both returned `Ok`, only the second passphrase opens the device; and a crash
right after the row was set leaves a device without a generation that nothing opens. -/
theorem keep_leaves_closed :
    (keptTwice.kept = [[6], [5]] ∧ ¬ keptTwice.records.Opens exampleLogin [] (some [5]) ∧
        ¬ keptTwice.Safe exampleLogin []) ∧
      (∀ passphrase, ¬ keptWithoutGeneration.records.Opens exampleLogin [] passphrase) ∧
      ¬ keptWithoutGeneration.Safe exampleLogin [] := by
  have hwrong : unsealWith exampleLogin [] keptTwice.records [5] =
      .error ⟨.refused, "the passphrase did not open this device"⟩ := rfl
  have hrefused : resume keptWithoutGeneration.records =
      .refused ⟨.failed, "this device's state did not open"⟩ := rfl
  have hfirst : ¬ keptTwice.records.Opens exampleLogin [] (some [5]) := by
    rintro ⟨dek, hopens⟩
    exact nomatch hwrong.symm.trans hopens
  have hclosed : ∀ passphrase,
      ¬ keptWithoutGeneration.records.Opens exampleLogin [] passphrase := by
    rintro (_ | passphrase) ⟨dek, hopens⟩
    · exact nomatch hrefused.symm.trans hopens
    · rw [unsealWith, hrefused] at hopens
      exact nomatch hopens
  refine ⟨⟨rfl, hfirst, fun hsafe => ?_⟩, hclosed, fun hsafe => ?_⟩
  · exact hfirst (hsafe.kept [5] (.tail _ (.head _))).1
  · rcases hsafe.opens rfl with hopens | ⟨passphrase, -, hopens⟩
    · exact hclosed none hopens
    · exact hclosed (some passphrase) hopens

/-- A crash falls between the wrapped key and the row. Then two calls overlap under one passphrase,
and the first one has returned when a crash stops the second between two of its effects. -/
def keptOverlapping : List (Label Unit Unit) :=
  [.keep 0 [2] (some [5]) exampleDraw, .crash exampleState true,
    .keep 0 [2] (some [5]) exampleDraw, .keep 1 [3] (some [5]) exampleDraw,
    .go 0 (.ok ()), .go 1 (.ok ())] ++ keepToEnd 0 ++
    [.go 1 (.ok ()), .crash exampleState true, .login [5]]

theorem keep_opens_overlapping :
    (Transition.run (Device.step exampleLogin []) (.mint exampleDek exampleState true)
      keptOverlapping).Safe exampleLogin [] := by
  refine keep_opens exampleLogin_lawful [] exampleDek exampleState true ?_
  refine ⟨fun m _ _ => ⟨by decide, fun given _ id other hother => ?_⟩, trivial,
    fun m _ _ => ⟨by decide, fun given _ id other hother => ?_⟩,
    fun m _ _ => ⟨by decide, fun given hgiven id other hother => ?_⟩, trivial, trivial, trivial,
    trivial, trivial, trivial, trivial, trivial, trivial, trivial, trivial⟩
  · exact nomatch hother
  · exact nomatch hother
  · -- the call beside it is call 0, under the same passphrase
    obtain rfl := Option.some.inj hgiven
    by_cases hid : id = 0
    · subst hid
      exact (Option.some.inj hother).symm
    · have hidle : (Function.update (fun _ => Call.idle) 0 (.wrapped [2] [5]) id).passphrase? =
          none := by
        rw [Function.update_of_ne hid]
        rfl
      exact nomatch hidle.symm.trans hother

end Polyvisor.Keep
