import Mathlib.Algebra.GroupWithZero.Nat
import Mathlib.Data.List.Perm.Basic
import Mathlib.Data.List.Nodup
import Polyvisor.Lib.Transition

/-!
# Calls over a port

The two ends of `web/rpc.ts` on one port. `proxyInterfaces` numbers the calls made through its
record and keeps a waiter for each; `serveInterfaces` looks the function up, runs it and posts what
came of it. A port may have several records on one end, each numbering its calls from 1 and each
hearing every response, as the frame's has. Requests and responses arrive in the order they were
posted; functions complete in any order.

`postMessage` throws for what cannot be cloned. The caller catches this and rejects its promise. The
server posts its response outside the `try`: a result that cannot be cloned leaves the caller
waiting.

## Main results

* `dispatch_eq_ok`: the function that runs is an own member of an own interface.
* `answered_iff_accepted`: every call of a run is settled once, with what came of its own function,
  iff every step of the run is `Accepted`.
* `uncloneable_result_is_not_answered`: a function that returns a function.
-/

open Transition

namespace Polyvisor.Rpc

/-! ## Objects and messages -/

/-- A JavaScript object: its own properties, and what its prototypes have. -/
structure JsObject (α : Type) where
  own : String → Option α
  inherited : String → Option α := fun _ => none

namespace JsObject

variable {α : Type}

/-- `o[key]`. -/
def get (o : JsObject α) (key : String) : Option α :=
  (o.own key).orElse fun _ => o.inherited key

/-- `Object.hasOwn`. -/
def hasOwn (o : JsObject α) (key : String) : Bool :=
  (o.own key).isSome

theorem get_of_own {o : JsObject α} {key : String} {a : α} (h : o.own key = some a) :
    o.get key = some a := by
  rw [get, h]
  rfl

theorem hasOwn_iff {o : JsObject α} {key : String} : o.hasOwn key ↔ ∃ a, o.own key = some a :=
  Option.isSome_iff_exists

end JsObject

/-- The values of the two realms and the functions that are served. -/
structure Realm where
  Value : Type
  Function : Type
  /-- What the far side of the port gets; nothing where `postMessage` throws. -/
  clone : Value → Option Value

/-- A property of a served interface. -/
inductive Member (R : Realm) where
  | function (f : R.Function)
  | other

/-- `Interfaces`. -/
abbrev Interfaces (R : Realm) := JsObject (JsObject (Member R))

structure Request (R : Realm) where
  id : ℕ
  iface : String
  fn : String
  args : List R.Value

inductive Failure (R : Realm) where
  | componentException (payload : R.Value)
  | error (message : String)

/-- `Response`: `ok` with its `value`, or not with its `error`. -/
structure Response (R : Realm) where
  id : ℕ
  result : Except (Failure R) R.Value

/-- What a function throws: an `isComponentException`, or something else with the string that
`err?.message ?? err` converts to, if it does. -/
inductive Thrown (R : Realm) where
  | componentException (payload : R.Value)
  | other (message : Option String)

/-- What comes of a function. -/
inductive Outcome (R : Realm) where
  | returned (value : R.Value)
  | threw (err : Thrown R)

/-- What a promise is rejected with: a failure, or what `postMessage` threw at the caller. -/
inductive Rejection (R : Realm) where
  | componentException (payload : R.Value)
  | error (message : String)
  | dataClone

inductive Settlement (R : Realm) where
  | resolved (value : R.Value)
  | rejected (reason : Rejection R)

variable {R : Realm}

/-- The request as it is posted. -/
def Request.posted (req : Request R) : Option (Request R) :=
  (req.args.mapM R.clone).map fun args => { req with args }

def Failure.posted : Failure R → Option (Failure R)
  | .componentException payload => (R.clone payload).map .componentException
  | .error message => some (.error message)

/-- The response as it is posted. -/
def Response.posted (res : Response R) : Option (Response R) :=
  match res.result with
  | .ok value => (R.clone value).map fun value => ⟨res.id, .ok value⟩
  | .error failure => failure.posted.map fun failure => ⟨res.id, .error failure⟩

/-- `toFailure`, which throws itself where there is no string. -/
def toFailure : Thrown R → Option (Failure R)
  | .componentException payload => some (.componentException payload)
  | .other message => message.map .error

/-- `fromFailure`. -/
def fromFailure : Failure R → Rejection R
  | .componentException payload => .componentException payload
  | .error message => .error message

/-- The response of the server: to a value, or in the `catch` to what was thrown. -/
def respond (id : ℕ) : Outcome R → Option (Response R)
  | .returned value => some ⟨id, .ok value⟩
  | .threw err => (toFailure err).map fun failure => ⟨id, .error failure⟩

/-- What the caller does with the response. -/
def settle (res : Response R) : Settlement R :=
  match res.result with
  | .ok value => .resolved value
  | .error failure => .rejected (fromFailure failure)

/-- The lookups of `serveInterfaces`, or the message of the error that they throw. -/
def dispatch (impls : Interfaces R) (iface fn : String) : Except String R.Function :=
  if !impls.hasOwn iface then .error ("rpc: interface '" ++ iface ++ "' is not served here")
  else
    match impls.get iface with
    | none => .error "Cannot convert undefined or null to object"
    | some members =>
      if !members.hasOwn fn then .error ("rpc: '" ++ iface ++ "' has no '" ++ fn ++ "'")
      else
        match members.get fn with
        | some (.function f) => .ok f
        | _ => .error ("rpc: '" ++ iface ++ "' has no '" ++ fn ++ "'")

/-! ## The port -/

/-- An entry of a record's `pending`: the record, the id, and the call whose promise waits. -/
structure Waiter where
  proxy : ℕ
  id : ℕ
  call : ℕ
  deriving DecidableEq

/-- The record and the id, under which a waiter is found. -/
def Waiter.key (w : Waiter) : ℕ × ℕ :=
  (w.proxy, w.id)

/-- A message, or a run of a function, with the waiter of the call it comes from. The waiter is not
part of the message. -/
structure Sent (α : Type) where
  waiter : Waiter
  data : α

/-- A call as it was made. -/
structure Call (R : Realm) where
  iface : String
  fn : String
  args : List R.Value

/-- A function that ran for a call, and the arguments it was given. -/
structure Invocation (R : Realm) where
  call : ℕ
  function : R.Function
  args : List R.Value

/-- The port with its records, and what has come of the calls. -/
structure Port (R : Realm) where
  /-- `nextId` of each record. -/
  nextId : ℕ → ℕ := fun _ => 1
  /-- `pending` of all records. -/
  pending : List Waiter := []
  requests : List (Sent (Request R)) := []
  /-- The functions that have not completed, with the id each will answer. -/
  running : List (Sent ℕ) := []
  responses : List (Sent (Response R)) := []
  made : List (Call R) := []
  invoked : List (Invocation R) := []
  completed : List (ℕ × Outcome R) := []
  /-- The calls of `resolve` and `reject`. -/
  settled : List (ℕ × Settlement R) := []

inductive Event (R : Realm) where
  /-- `record[iface][fn](...args)` of a record. -/
  | call (proxy : ℕ) (iface fn : String) (args : List R.Value)
  /-- The server hears the next request. -/
  | arrive
  /-- A function that is running completes. -/
  | complete (i : ℕ) (outcome : Outcome R)
  /-- The records hear the next response. -/
  | deliver

/-- `id + 1` of a number that is a double. -/
def increment (id : ℕ) : ℕ :=
  if id < 2 ^ 53 then id + 1 else id

/-- `pending.delete`. -/
def delete (pending : List Waiter) (key : ℕ × ℕ) : List Waiter :=
  pending.filter (·.key ≠ key)

/-- `pending.set`. -/
def set (pending : List Waiter) (w : Waiter) : List Waiter :=
  delete pending w.key ++ [w]

namespace Port

/-- The server posts its response. Where that throws, nobody hears of it. -/
def answer (s : Port R) (call : Sent ℕ) (outcome : Outcome R) : Port R :=
  match (respond call.data outcome).bind Response.posted with
  | none => s
  | some res => { s with responses := s.responses ++ [⟨call.waiter, res⟩] }

/-- The waiter of the next call of a record. -/
def waiter (s : Port R) (proxy : ℕ) : Waiter :=
  ⟨proxy, s.nextId proxy, s.made.length⟩

def call (s : Port R) (proxy : ℕ) (iface fn : String) (args : List R.Value) : Port R :=
  let w := s.waiter proxy
  let s : Port R := { s with
    nextId := fun p => if p = proxy then increment (s.nextId proxy) else s.nextId p
    made := s.made ++ [⟨iface, fn, args⟩]
    pending := set s.pending w }
  match (Request.mk w.id iface fn args).posted with
  | some req => { s with requests := s.requests ++ [⟨w, req⟩] }
  | none => { s with
      pending := delete s.pending w.key
      settled := s.settled ++ [(w.call, .rejected .dataClone)] }

def arrive (impls : Interfaces R) (s : Port R) : Port R :=
  match s.requests with
  | [] => s
  | req :: requests =>
    let s : Port R := { s with requests }
    match dispatch impls req.data.iface req.data.fn with
    | .error message => s.answer ⟨req.waiter, req.data.id⟩ (.threw (.other (some message)))
    | .ok f => { s with
        running := s.running ++ [⟨req.waiter, req.data.id⟩]
        invoked := s.invoked ++ [⟨req.waiter.call, f, req.data.args⟩] }

def complete (s : Port R) (i : ℕ) (outcome : Outcome R) : Port R :=
  match s.running[i]? with
  | none => s
  | some call => answer { s with
      running := s.running.eraseIdx i
      completed := s.completed ++ [(call.waiter.call, outcome)] } call outcome

/-- Every record takes the response whose `pending` has its id. -/
def deliver (s : Port R) : Port R :=
  match s.responses with
  | [] => s
  | res :: responses => { s with
      responses
      pending := s.pending.filter (·.id ≠ res.data.id)
      settled := s.settled ++ (s.pending.filter (·.id = res.data.id)).map fun w =>
        (w.call, settle res.data) }

def step (impls : Interfaces R) (s : Port R) : Event R → Port R
  | .call proxy iface fn args => s.call proxy iface fn args
  | .arrive => s.arrive impls
  | .complete i outcome => s.complete i outcome
  | .deliver => s.deliver

/-- A port before any call. -/
def init (R : Realm) : Port R := {}

/-! ## Answers -/

/-- The waiters of the calls whose request, function or response is on its way. -/
def onTheWay (s : Port R) : List Waiter :=
  s.requests.map (·.waiter) ++ s.running.map (·.waiter) ++ s.responses.map (·.waiter)

end Port

/-- What the caller is to get of an outcome: a clone of the value or of the payload, or the
message. -/
def Outcome.carried : Outcome R → Option (Settlement R)
  | .returned value => (R.clone value).map .resolved
  | .threw (.componentException payload) =>
    (R.clone payload).map fun payload => .rejected (.componentException payload)
  | .threw (.other message) => message.map fun message => .rejected (.error message)

/-- What a call is to be settled with: what came of the function that ran for it; the refusal if it
names none; the exception if it could not be posted. -/
def Port.Due (impls : Interfaces R) (s : Port R) (n : ℕ) (settlement : Settlement R) : Prop :=
  ∃ call, s.made[n]? = some call ∧
    (call.args.mapM R.clone = none ∧ settlement = .rejected .dataClone ∨
      ∃ args, call.args.mapM R.clone = some args ∧
        ((∃ message, dispatch impls call.iface call.fn = .error message ∧
            settlement = .rejected (.error message)) ∨
          ∃ f outcome, dispatch impls call.iface call.fn = .ok f ∧
            ⟨n, f, args⟩ ∈ s.invoked ∧ (n, outcome) ∈ s.completed ∧
            outcome.carried = some settlement))

/-- Every call is either settled, once, or on its way with its promise waiting; it is settled with
what it is due; and a function runs, and completes, once for a call. -/
structure Port.Answered (impls : Interfaces R) (s : Port R) : Prop where
  once : (s.settled.map Prod.fst ++ s.onTheWay.map (·.call)).Perm (List.range s.made.length)
  waiting : ∀ w ∈ s.onTheWay, w.call ∈ s.pending.map (·.call)
  own : ∀ n settlement, (n, settlement) ∈ s.settled → s.Due impls n settlement
  invoked : (s.invoked.map (·.call)).Nodup
  completed : (s.completed.map Prod.fst).Nodup

/-- Every function that ran is an own member of an own interface, the ones its call names. -/
def Port.Dispatched (impls : Interfaces R) (s : Port R) : Prop :=
  ∀ inv ∈ s.invoked, ∃ call members, s.made[inv.call]? = some call ∧
    impls.own call.iface = some members ∧ members.own call.fn = some (.function inv.function)

/-- A call gets an id under which none waits in its record; what comes of a function can be posted;
and a response finds its id in one record only. -/
def Port.Accepted (s : Port R) : Event R → Prop
  | .call proxy _ _ _ => (s.waiter proxy).key ∉ s.pending.map Waiter.key
  | .arrive => True
  | .complete i outcome => i < s.running.length → outcome.carried.isSome
  | .deliver => ∀ res ∈ s.responses.head?, ∀ w ∈ s.pending, w.id = res.data.id → w = res.waiter

/-! ## One message -/

theorem dispatch_eq_ok {impls : Interfaces R} {iface fn : String} {f : R.Function} :
    dispatch impls iface fn = .ok f ↔
      ∃ members, impls.own iface = some members ∧ members.own fn = some (.function f) := by
  unfold dispatch
  constructor
  · intro h
    split_ifs at h with hiface
    obtain ⟨members, hmembers⟩ := JsObject.hasOwn_iff.1 (by simpa using hiface)
    simp only [JsObject.get_of_own hmembers] at h
    split_ifs at h with hfn
    obtain ⟨member, hmember⟩ := JsObject.hasOwn_iff.1 (by simpa using hfn)
    simp only [JsObject.get_of_own hmember] at h
    rcases member with f' | -
    · exact ⟨members, hmembers, Except.ok.inj h ▸ hmember⟩
    · exact nomatch h
  · rintro ⟨members, hmembers, hmember⟩
    have hiface : impls.hasOwn iface := JsObject.hasOwn_iff.2 ⟨members, hmembers⟩
    have hfn : members.hasOwn fn := JsObject.hasOwn_iff.2 ⟨_, hmember⟩
    simp [hiface, hfn, JsObject.get_of_own hmembers, JsObject.get_of_own hmember]

namespace Port

/-- The server's answer to an outcome comes back as what is due for it, or not at all. -/
theorem answer_cases (s : Port R) (call : Sent ℕ) (outcome : Outcome R) :
    (outcome.carried = none ∧ s.answer call outcome = s) ∨
      ∃ res, outcome.carried = some (settle res) ∧ res.id = call.data ∧
        s.answer call outcome = { s with responses := s.responses ++ [⟨call.waiter, res⟩] } := by
  unfold answer
  rcases outcome with value | payload | - | message
  · rcases hclone : R.clone value with - | value'
    · left
      simp [Outcome.carried, respond, Response.posted, hclone]
    · right
      refine ⟨⟨call.data, .ok value'⟩, ?_⟩
      simp [Outcome.carried, respond, Response.posted, hclone, settle]
  · rcases hclone : R.clone payload with - | payload'
    · left
      simp [Outcome.carried, respond, toFailure, Response.posted, Failure.posted, hclone]
    · right
      refine ⟨⟨call.data, .error (.componentException payload')⟩, ?_⟩
      simp [Outcome.carried, respond, toFailure, Response.posted, Failure.posted, hclone, settle,
        fromFailure]
  · left
    simp [Outcome.carried, respond, toFailure]
  · right
    refine ⟨⟨call.data, .error (.error message)⟩, ?_⟩
    simp [Outcome.carried, respond, toFailure, Response.posted, Failure.posted, settle, fromFailure]

end Port

theorem delete_of_not_mem {pending : List Waiter} {key : ℕ × ℕ} (h : key ∉ pending.map Waiter.key) :
    delete pending key = pending := by
  refine List.filter_eq_self.2 fun w hw => ?_
  rw [decide_eq_true_iff]
  rintro rfl
  exact h (List.mem_map_of_mem hw)

theorem set_of_not_mem {pending : List Waiter} {w : Waiter} (h : w.key ∉ pending.map Waiter.key) :
    set pending w = pending ++ [w] := by
  rw [set, delete_of_not_mem h]

theorem delete_set (pending : List Waiter) (w : Waiter) :
    delete (set pending w) w.key = delete pending w.key := by
  simp [set, delete]

/-- A waiter whose key is set again is gone. -/
theorem not_mem_set {pending : List Waiter} {w old : Waiter} (hkey : old.key = w.key)
    (hne : old.call ≠ w.call) (hcalls : (pending.map (·.call)).Nodup) (hold : old ∈ pending) :
    old.call ∉ (set pending w).map (·.call) := by
  intro h
  obtain ⟨other, hother, hcall⟩ := List.mem_map.1 h
  rcases List.mem_append.1 hother with hother | hother
  · obtain ⟨hmem, hne'⟩ := List.mem_filter.1 hother
    rw [decide_eq_true_iff] at hne'
    exact hne' (List.inj_on_of_nodup_map hcalls hmem hold hcall ▸ hkey)
  · rw [List.mem_singleton.1 hother] at hcall
    exact hne hcall.symm

namespace Port

/-! ## Where the calls are -/

/-- Every call has one place, those on their way have one waiter each, and messages carry the ids of
their waiters. -/
structure Counted (s : Port R) : Prop where
  keys : (s.pending.map Waiter.key).Nodup
  waiters : s.pending.Perm s.onTheWay
  once : (s.settled.map Prod.fst ++ s.onTheWay.map (·.call)).Perm (List.range s.made.length)
  requests : ∀ m ∈ s.requests, m.data.id = m.waiter.id
  running : ∀ m ∈ s.running, m.data = m.waiter.id
  responses : ∀ m ∈ s.responses, m.data.id = m.waiter.id

namespace Counted

variable {s : Port R}

theorem nodup (h : Counted s) : (s.settled.map Prod.fst ++ s.onTheWay.map (·.call)).Nodup :=
  h.once.nodup_iff.2 List.nodup_range

theorem nodup_way (h : Counted s) : (s.onTheWay.map (·.call)).Nodup :=
  (List.nodup_append.1 h.nodup).2.1

theorem nodup_pending (h : Counted s) : (s.pending.map (·.call)).Nodup :=
  (h.waiters.map _).nodup_iff.2 h.nodup_way

theorem lt_of_mem (h : Counted s) {w : Waiter} (hw : w ∈ s.onTheWay) : w.call < s.made.length := by
  apply List.mem_range.1
  apply h.once.subset
  exact List.mem_append_right _ (List.mem_map_of_mem hw)

/-- A step that moves a call from one place to the next. -/
theorem of_perm (h : Counted s) {s' : Port R} (hpending : s'.pending = s.pending)
    (hsettled : s'.settled = s.settled) (hmade : s'.made = s.made)
    (hway : s'.onTheWay.Perm s.onTheWay)
    (hrequests : ∀ m ∈ s'.requests, m.data.id = m.waiter.id)
    (hrunning : ∀ m ∈ s'.running, m.data = m.waiter.id)
    (hresponses : ∀ m ∈ s'.responses, m.data.id = m.waiter.id) : Counted s' := by
  constructor
  · rw [hpending]
    exact h.keys
  · rw [hpending]
    exact h.waiters.trans hway.symm
  · rw [hsettled, hmade]
    exact (List.Perm.append_left _ (hway.map _)).trans h.once
  · exact hrequests
  · exact hrunning
  · exact hresponses

end Counted

variable {impls : Interfaces R} {s : Port R}

theorem call_of_posted {args args' : List R.Value} (h : args.mapM R.clone = some args')
    (proxy : ℕ) (iface fn : String) : s.call proxy iface fn args = { s with
      nextId := fun p => if p = proxy then increment (s.nextId proxy) else s.nextId p
      made := s.made ++ [⟨iface, fn, args⟩]
      pending := set s.pending (s.waiter proxy)
      requests := s.requests ++ [⟨s.waiter proxy, ⟨s.nextId proxy, iface, fn, args'⟩⟩] } := by
  simp only [call, Request.posted, h, Option.map_some]
  rfl

theorem call_of_unposted {args : List R.Value} (h : args.mapM R.clone = none)
    (proxy : ℕ) (iface fn : String) : s.call proxy iface fn args = { s with
      nextId := fun p => if p = proxy then increment (s.nextId proxy) else s.nextId p
      made := s.made ++ [⟨iface, fn, args⟩]
      pending := delete s.pending (s.waiter proxy).key
      settled := s.settled ++ [(s.made.length, .rejected .dataClone)] } := by
  simp only [call, Request.posted, h, Option.map_none, delete_set]
  rfl

theorem arrive_cases (impls : Interfaces R) (s : Port R) :
    (s.requests = [] ∧ s.arrive impls = s) ∨
    ∃ req requests, s.requests = req :: requests ∧
      ((∃ message, dispatch impls req.data.iface req.data.fn = .error message ∧
          s.arrive impls = { s with
            requests
            responses := s.responses ++
              [⟨req.waiter, ⟨req.data.id, .error (.error message)⟩⟩] }) ∨
        ∃ f, dispatch impls req.data.iface req.data.fn = .ok f ∧
          s.arrive impls = { s with
            requests
            running := s.running ++ [⟨req.waiter, req.data.id⟩]
            invoked := s.invoked ++ [⟨req.waiter.call, f, req.data.args⟩] }) := by
  unfold arrive
  rcases hrequests : s.requests with - | ⟨req, requests⟩
  · exact .inl ⟨rfl, rfl⟩
  refine .inr ⟨req, requests, rfl, ?_⟩
  rcases hdispatch : dispatch impls req.data.iface req.data.fn with message | f
  · exact .inl ⟨message, rfl, by simp only [hdispatch]; rfl⟩
  · exact .inr ⟨f, rfl, by simp only [hdispatch]⟩

/-- Which call is taken out of those that run does not matter to where the others are. -/
theorem perm_running {i : ℕ} {call : Sent ℕ} (h : s.running[i]? = some call) :
    s.running.Perm (call :: s.running.eraseIdx i) := by
  obtain ⟨hi, rfl⟩ := List.getElem?_eq_some_iff.1 h
  exact (List.getElem_cons_eraseIdx_perm hi).symm

theorem complete_cases (s : Port R) (i : ℕ) (outcome : Outcome R) :
    (s.running.length ≤ i ∧ s.complete i outcome = s) ∨
    ∃ call, s.running[i]? = some call ∧
      ((outcome.carried = none ∧ s.complete i outcome = { s with
          running := s.running.eraseIdx i
          completed := s.completed ++ [(call.waiter.call, outcome)] }) ∨
        ∃ res, outcome.carried = some (settle res) ∧ res.id = call.data ∧
          s.complete i outcome = { s with
            running := s.running.eraseIdx i
            completed := s.completed ++ [(call.waiter.call, outcome)]
            responses := s.responses ++ [⟨call.waiter, res⟩] }) := by
  unfold complete
  rcases hcall : s.running[i]? with - | call
  · exact .inl ⟨List.getElem?_eq_none_iff.1 hcall, rfl⟩
  · exact .inr ⟨call, rfl, answer_cases _ call outcome⟩

namespace Counted

theorem call (h : Counted s) {proxy : ℕ} (hkey : (s.waiter proxy).key ∉ s.pending.map Waiter.key)
    (iface fn : String) (args : List R.Value) : Counted (s.call proxy iface fn args) := by
  rcases hposted : args.mapM R.clone with - | args'
  · -- The promise is rejected at once, and nothing else has changed.
    rw [call_of_unposted hposted, delete_of_not_mem hkey]
    refine ⟨h.keys, h.waiters, ?_, h.requests, h.running, h.responses⟩
    apply List.perm_iff_count.2
    intro n
    have := List.perm_iff_count.1 h.once n
    simp only [onTheWay, List.map_append, List.count_append, List.length_append,
      List.length_singleton, List.range_succ, List.map_cons, List.map_nil] at this ⊢
    omega
  · rw [call_of_posted hposted, set_of_not_mem hkey]
    constructor
    · show ((s.pending ++ [s.waiter proxy]).map Waiter.key).Nodup
      rw [List.map_append]
      refine h.keys.append (List.nodup_singleton _) ?_
      exact List.disjoint_singleton.2 hkey
    · apply List.perm_iff_count.2
      intro w
      have := List.perm_iff_count.1 h.waiters w
      simp only [onTheWay, List.map_append, List.count_append, List.map_cons, List.map_nil]
        at this ⊢
      omega
    · apply List.perm_iff_count.2
      intro n
      have := List.perm_iff_count.1 h.once n
      simp only [onTheWay, List.map_append, List.count_append, List.length_append,
        List.length_singleton, List.range_succ, List.map_cons, List.map_nil, waiter] at this ⊢
      omega
    · intro m hm
      rcases List.mem_append.1 hm with hm | hm
      · exact h.requests m hm
      · rw [List.mem_singleton.1 hm]
        rfl
    · exact h.running
    · exact h.responses

theorem arrive (h : Counted s) (impls : Interfaces R) : Counted (s.arrive impls) := by
  rcases arrive_cases impls s with ⟨-, hstep⟩ | ⟨req, requests, hrequests, hcase⟩
  · rwa [hstep]
  have hrest : ∀ m ∈ requests, m.data.id = m.waiter.id := fun m hm =>
    h.requests m (hrequests ▸ List.mem_cons_of_mem req hm)
  have hid : req.data.id = req.waiter.id := h.requests req (hrequests ▸ List.mem_cons_self)
  rcases hcase with ⟨message, -, hstep⟩ | ⟨f, -, hstep⟩
  · rw [hstep]
    refine h.of_perm rfl rfl rfl ?_ hrest h.running ?_
    · apply List.perm_iff_count.2
      intro w
      simp only [onTheWay, hrequests, List.map_append, List.count_append, List.map_cons,
        List.map_nil, List.count_cons, List.count_nil]
      omega
    · intro m hm
      rcases List.mem_append.1 hm with hm | hm
      · exact h.responses m hm
      · rw [List.mem_singleton.1 hm]
        exact hid
  · rw [hstep]
    refine h.of_perm rfl rfl rfl ?_ hrest ?_ h.responses
    · apply List.perm_iff_count.2
      intro w
      simp only [onTheWay, hrequests, List.map_append, List.count_append, List.map_cons,
        List.map_nil, List.count_cons, List.count_nil]
      omega
    · intro m hm
      rcases List.mem_append.1 hm with hm | hm
      · exact h.running m hm
      · rw [List.mem_singleton.1 hm]
        exact hid

theorem complete (h : Counted s) {i : ℕ} {outcome : Outcome R}
    (hcarried : i < s.running.length → outcome.carried.isSome) :
    Counted (s.complete i outcome) := by
  rcases complete_cases s i outcome with
    ⟨-, hstep⟩ | ⟨call, hcall, ⟨hnone, -⟩ | ⟨res, -, hid, hstep⟩⟩
  · rwa [hstep]
  · have hsome := hcarried (List.getElem?_eq_some_iff.1 hcall).1
    rw [hnone] at hsome
    exact Bool.noConfusion hsome
  rw [hstep]
  have hperm := perm_running hcall
  refine h.of_perm rfl rfl rfl ?_ h.requests ?_ ?_
  · apply List.perm_iff_count.2
    intro w
    have := List.perm_iff_count.1 (hperm.map (·.waiter)) w
    simp only [onTheWay, List.map_append, List.count_append, List.map_cons,
      List.map_nil, List.count_cons, List.count_nil] at this ⊢
    omega
  · exact fun m hm => h.running m (List.mem_of_mem_eraseIdx hm)
  · intro m hm
    rcases List.mem_append.1 hm with hm | hm
    · exact h.responses m hm
    · rw [List.mem_singleton.1 hm]
      exact hid.trans (h.running call (List.mem_of_getElem? hcall))

/-- The waiter of the response at the front is the only one that it finds. -/
theorem heard_eq (h : Counted s) {res : Sent (Response R)} {responses : List (Sent (Response R))}
    (hresponses : s.responses = res :: responses)
    (honly : ∀ w ∈ s.pending, w.id = res.data.id → w = res.waiter) :
    s.pending.filter (·.id = res.data.id) = [res.waiter] := by
  have hid : res.data.id = res.waiter.id := h.responses res (hresponses ▸ List.mem_cons_self)
  have hway : res.waiter ∈ s.onTheWay :=
    List.mem_append_right _ (List.mem_map_of_mem (hresponses ▸ List.mem_cons_self))
  have hmem : res.waiter ∈ s.pending := h.waiters.mem_iff.2 hway
  have hfiltered : ∀ w ∈ s.pending.filter (·.id = res.data.id), w = res.waiter := by
    intro w hw
    obtain ⟨hw, hheard⟩ := List.mem_filter.1 hw
    exact honly w hw (of_decide_eq_true hheard)
  have hnodup : (s.pending.filter (·.id = res.data.id)).Nodup := h.keys.of_map.filter _
  have hheard : res.waiter ∈ s.pending.filter (·.id = res.data.id) :=
    List.mem_filter.2 ⟨hmem, decide_eq_true hid.symm⟩
  exact List.perm_singleton.1 ((List.perm_ext_iff_of_nodup hnodup (List.nodup_singleton _)).2
    fun w => ⟨fun hw => List.mem_singleton.2 (hfiltered w hw),
      fun hw => List.mem_singleton.1 hw ▸ hheard⟩)

/-- An accepted response settles its own call. -/
theorem deliver_eq (h : Counted s) {res : Sent (Response R)} {responses : List (Sent (Response R))}
    (hresponses : s.responses = res :: responses)
    (hcond : ∀ res ∈ s.responses.head?, ∀ w ∈ s.pending, w.id = res.data.id → w = res.waiter) :
    s.deliver = { s with
      responses
      pending := s.pending.filter (·.id ≠ res.data.id)
      settled := s.settled ++ [(res.waiter.call, settle res.data)] } := by
  have hheard := h.heard_eq hresponses (hcond res (by rw [hresponses]; exact rfl))
  simp only [Port.deliver, hresponses, hheard, List.map_cons, List.map_nil]

theorem deliver (h : Counted s)
    (hcond : ∀ res ∈ s.responses.head?, ∀ w ∈ s.pending, w.id = res.data.id → w = res.waiter) :
    Counted s.deliver := by
  rcases hresponses : s.responses with - | ⟨res, responses⟩
  · rwa [show s.deliver = s by simp only [Port.deliver, hresponses]]
  have hheard := h.heard_eq hresponses (hcond res (by rw [hresponses]; exact rfl))
  rw [h.deliver_eq hresponses hcond]
  have hsplit := List.filter_append_perm (fun w : Waiter => decide (w.id = res.data.id)) s.pending
  rw [hheard] at hsplit
  have hsplit' : (res.waiter :: s.pending.filter (·.id ≠ res.data.id)).Perm s.pending := by
    simpa using hsplit
  constructor
  · exact h.keys.sublist (List.filter_sublist.map _)
  · apply List.perm_iff_count.2
    intro w
    have hcount := List.perm_iff_count.1 hsplit' w
    have := List.perm_iff_count.1 h.waiters w
    simp only [onTheWay, hresponses, List.map_cons, List.count_append, List.count_cons]
      at this hcount ⊢
    omega
  · apply List.perm_iff_count.2
    intro n
    have := List.perm_iff_count.1 h.once n
    simp only [onTheWay, hresponses, List.map_append, List.map_cons, List.map_nil,
      List.count_append, List.count_cons, List.count_nil] at this ⊢
    omega
  · exact h.requests
  · exact h.running
  · exact fun m hm => h.responses m (hresponses ▸ List.mem_cons_of_mem res hm)

end Counted

/-! ## What the calls are due -/

theorem getElem?_of_prefix {α : Type} {front list : List α} (h : front <+: list) {n : ℕ} {a : α}
    (ha : front[n]? = some a) : list[n]? = some a := by
  obtain ⟨rest, rfl⟩ := h
  rw [List.getElem?_append_left (List.getElem?_eq_some_iff.1 ha).1, ha]

/-- What a call is due stays what it is due. -/
theorem Due.mono {s s' : Port R} {n : ℕ} {settlement : Settlement R} (h : s.Due impls n settlement)
    (hmade : s.made <+: s'.made) (hinvoked : s.invoked ⊆ s'.invoked)
    (hcompleted : s.completed ⊆ s'.completed) : s'.Due impls n settlement := by
  obtain ⟨call, hcall, hdue⟩ := h
  refine ⟨call, getElem?_of_prefix hmade hcall, ?_⟩
  rcases hdue with hunsent | ⟨args, hargs, hrefused | ⟨f, outcome, hf, hinv, hout, hcarried⟩⟩
  · exact .inl hunsent
  · exact .inr ⟨args, hargs, .inl hrefused⟩
  · exact .inr ⟨args, hargs, .inr ⟨f, outcome, hf, hinvoked hinv, hcompleted hout, hcarried⟩⟩

/-- A request is what its call says, a run is one for its call, and what is in a response, or has
been said to a promise, is due. Nothing ran, or completed, for a call that is still further back. -/
structure Served (impls : Interfaces R) (s : Port R) : Prop where
  requests : ∀ m ∈ s.requests, ∃ call, s.made[m.waiter.call]? = some call ∧
    m.data.iface = call.iface ∧ m.data.fn = call.fn ∧
    call.args.mapM R.clone = some m.data.args
  running : ∀ m ∈ s.running, ∃ call f args, s.made[m.waiter.call]? = some call ∧
    dispatch impls call.iface call.fn = .ok f ∧ call.args.mapM R.clone = some args ∧
    ⟨m.waiter.call, f, args⟩ ∈ s.invoked
  responses : ∀ m ∈ s.responses, s.Due impls m.waiter.call (settle m.data)
  own : ∀ n settlement, (n, settlement) ∈ s.settled → s.Due impls n settlement
  invoked : (s.invoked.map (·.call)).Nodup
  invokedLater : ∀ inv ∈ s.invoked, inv.call < s.made.length ∧
    ∀ m ∈ s.requests, m.waiter.call ≠ inv.call
  completed : (s.completed.map Prod.fst).Nodup
  completedLater : ∀ n ∈ s.completed.map Prod.fst, n < s.made.length ∧
    (∀ m ∈ s.requests, m.waiter.call ≠ n) ∧ ∀ m ∈ s.running, m.waiter.call ≠ n

namespace Served

/-- Making a call moves nothing that is there. -/
theorem call (h : Served impls s) (proxy : ℕ) (iface fn : String) (args : List R.Value) :
    Served impls (s.call proxy iface fn args) := by
  have hlast : (s.made ++ [⟨iface, fn, args⟩])[s.made.length]? = some ⟨iface, fn, args⟩ := by
    rw [List.getElem?_append_right (Nat.le_refl _), Nat.sub_self]
    rfl
  have hprefixed : s.made <+: s.made ++ [⟨iface, fn, args⟩] := List.prefix_append _ _
  have hlength : ∀ n, n < s.made.length →
      n < (s.made ++ [(⟨iface, fn, args⟩ : Call R)]).length := by
    intro n hn
    rw [List.length_append]
    exact Nat.lt_add_right _ hn
  rcases hposted : args.mapM R.clone with - | args'
  · rw [call_of_unposted hposted]
    constructor
    · intro m hm
      obtain ⟨call, hcall, hrest⟩ := h.requests m hm
      exact ⟨call, getElem?_of_prefix hprefixed hcall, hrest⟩
    · intro m hm
      obtain ⟨call, f, args, hcall, hrest⟩ := h.running m hm
      exact ⟨call, f, args, getElem?_of_prefix hprefixed hcall, hrest⟩
    · exact fun m hm => (h.responses m hm).mono hprefixed (List.Subset.refl _) (List.Subset.refl _)
    · intro n settlement hsettled
      rcases List.mem_append.1 hsettled with hsettled | hsettled
      · exact (h.own n settlement hsettled).mono hprefixed (List.Subset.refl _) (List.Subset.refl _)
      · obtain ⟨rfl, rfl⟩ := Prod.mk.inj (List.mem_singleton.1 hsettled)
        exact ⟨⟨iface, fn, args⟩, hlast, .inl ⟨hposted, rfl⟩⟩
    · exact h.invoked
    · exact fun inv hinv => ⟨hlength _ (h.invokedLater inv hinv).1, (h.invokedLater inv hinv).2⟩
    · exact h.completed
    · exact fun n hn => ⟨hlength _ (h.completedLater n hn).1, (h.completedLater n hn).2⟩
  · rw [call_of_posted hposted]
    constructor
    · intro m hm
      rcases List.mem_append.1 hm with hm | hm
      · obtain ⟨call, hcall, hrest⟩ := h.requests m hm
        exact ⟨call, getElem?_of_prefix hprefixed hcall, hrest⟩
      · rw [List.mem_singleton.1 hm]
        exact ⟨⟨iface, fn, args⟩, hlast, rfl, rfl, hposted⟩
    · intro m hm
      obtain ⟨call, f, args, hcall, hrest⟩ := h.running m hm
      exact ⟨call, f, args, getElem?_of_prefix hprefixed hcall, hrest⟩
    · exact fun m hm => (h.responses m hm).mono hprefixed (List.Subset.refl _) (List.Subset.refl _)
    · exact fun n settlement hsettled =>
        (h.own n settlement hsettled).mono hprefixed (List.Subset.refl _) (List.Subset.refl _)
    · exact h.invoked
    · intro inv hinv
      obtain ⟨hlt, hrequests⟩ := h.invokedLater inv hinv
      refine ⟨hlength _ hlt, fun m hm => ?_⟩
      rcases List.mem_append.1 hm with hm | hm
      · exact hrequests m hm
      · rw [List.mem_singleton.1 hm]
        exact Nat.ne_of_gt hlt
    · exact h.completed
    · intro n hn
      obtain ⟨hlt, hrequests, hrunning⟩ := h.completedLater n hn
      refine ⟨hlength _ hlt, fun m hm => ?_, hrunning⟩
      rcases List.mem_append.1 hm with hm | hm
      · exact hrequests m hm
      · rw [List.mem_singleton.1 hm]
        exact Nat.ne_of_gt hlt

/-- A request becomes the run of the function it names, or is refused. -/
theorem arrive (h : Served impls s) (hcounted : Counted s) : Served impls (s.arrive impls) := by
  rcases arrive_cases impls s with ⟨-, hstep⟩ | ⟨req, requests, hrequests, hcase⟩
  · rwa [hstep]
  have hmem : req ∈ s.requests := hrequests ▸ List.mem_cons_self
  have hrest : ∀ m ∈ requests, m ∈ s.requests :=
    fun m hm => hrequests ▸ List.mem_cons_of_mem req hm
  have hlt : req.waiter.call < s.made.length := hcounted.lt_of_mem
    (List.mem_append_left _ (List.mem_append_left _ (List.mem_map_of_mem hmem)))
  have hothers : ∀ m ∈ requests, m.waiter.call ≠ req.waiter.call := by
    have hnodup := hcounted.nodup_way
    simp only [onTheWay, hrequests, List.map_cons, List.cons_append, List.nodup_cons] at hnodup
    intro m hm heq
    refine hnodup.1 (heq ▸ List.mem_map_of_mem ?_)
    exact List.mem_append_left _ (List.mem_append_left _ (List.mem_map_of_mem hm))
  obtain ⟨call, hcall, hiface, hfn, hargs⟩ := h.requests req hmem
  rw [hiface, hfn] at hcase
  rcases hcase with ⟨message, hdispatch, hstep⟩ | ⟨f, hdispatch, hstep⟩
  · rw [hstep]
    refine ⟨fun m hm => h.requests m (hrest m hm), h.running, ?_, h.own, h.invoked, ?_,
      h.completed, ?_⟩
    · intro m hm
      rcases List.mem_append.1 hm with hm | hm
      · exact h.responses m hm
      · rw [List.mem_singleton.1 hm]
        exact ⟨call, hcall, .inr ⟨_, hargs, .inl ⟨message, hdispatch, rfl⟩⟩⟩
    · exact fun inv hinv => ⟨(h.invokedLater inv hinv).1,
        fun m hm => (h.invokedLater inv hinv).2 m (hrest m hm)⟩
    · exact fun n hn => ⟨(h.completedLater n hn).1,
        fun m hm => (h.completedLater n hn).2.1 m (hrest m hm), (h.completedLater n hn).2.2⟩
  · rw [hstep]
    have hmore : s.invoked ⊆ s.invoked ++ [⟨req.waiter.call, f, req.data.args⟩] :=
      List.subset_append_left _ _
    constructor
    · exact fun m hm => h.requests m (hrest m hm)
    · intro m hm
      rcases List.mem_append.1 hm with hm | hm
      · obtain ⟨call, f, args, hcall, hf, hargs, hinv⟩ := h.running m hm
        exact ⟨call, f, args, hcall, hf, hargs, hmore hinv⟩
      · rw [List.mem_singleton.1 hm]
        exact ⟨call, f, _, hcall, hdispatch, hargs,
          List.mem_append_right _ (List.mem_singleton.2 rfl)⟩
    · exact fun m hm => (h.responses m hm).mono List.prefix_rfl hmore (List.Subset.refl _)
    · exact fun n settlement hsettled =>
        (h.own n settlement hsettled).mono List.prefix_rfl hmore (List.Subset.refl _)
    · show ((s.invoked ++ [_]).map Invocation.call).Nodup
      rw [List.map_append]
      refine h.invoked.append (List.nodup_singleton _) (List.disjoint_singleton.2 fun hran => ?_)
      obtain ⟨inv, hinv, heq⟩ := List.mem_map.1 hran
      exact (h.invokedLater inv hinv).2 req hmem heq.symm
    · intro inv hinv
      rcases List.mem_append.1 hinv with hinv | hinv
      · exact ⟨(h.invokedLater inv hinv).1, fun m hm => (h.invokedLater inv hinv).2 m (hrest m hm)⟩
      · rw [List.mem_singleton.1 hinv]
        exact ⟨hlt, hothers⟩
    · exact h.completed
    · intro n hn
      obtain ⟨hn, hfree, hrunning⟩ := h.completedLater n hn
      refine ⟨hn, fun m hm => hfree m (hrest m hm), fun m hm => ?_⟩
      rcases List.mem_append.1 hm with hm | hm
      · exact hrunning m hm
      · rw [List.mem_singleton.1 hm]
        exact hfree req hmem

/-- A run becomes its response. -/
theorem complete (h : Served impls s) (hcounted : Counted s) {i : ℕ} {outcome : Outcome R}
    (hcarried : i < s.running.length → outcome.carried.isSome) :
    Served impls (s.complete i outcome) := by
  rcases complete_cases s i outcome with
    ⟨-, hstep⟩ | ⟨call, hcall, ⟨hnone, -⟩ | ⟨res, hres, -, hstep⟩⟩
  · rwa [hstep]
  · have hsome := hcarried (List.getElem?_eq_some_iff.1 hcall).1
    rw [hnone] at hsome
    exact Bool.noConfusion hsome
  rw [hstep]
  have hmem : call ∈ s.running := List.mem_of_getElem? hcall
  have hlt : call.waiter.call < s.made.length := hcounted.lt_of_mem
    (List.mem_append_left _ (List.mem_append_right _ (List.mem_map_of_mem hmem)))
  have hmore : s.completed ⊆ s.completed ++ [(call.waiter.call, outcome)] :=
    List.subset_append_left _ _
  -- The call is nowhere else, so nothing behind it belongs to it.
  have hway : (s.requests.map (·.waiter) ++
      (call :: s.running.eraseIdx i).map (·.waiter) ++ s.responses.map (·.waiter)).Perm
        s.onTheWay :=
    List.Perm.append_right _ (List.Perm.append_left _ ((perm_running hcall).symm.map _))
  have hnodup := (hway.map Waiter.call).nodup_iff.2 hcounted.nodup_way
  simp only [List.map_append, List.map_cons, List.nodup_append, List.nodup_cons, List.mem_append,
    List.mem_cons] at hnodup
  have hrequests : ∀ m ∈ s.requests, m.waiter.call ≠ call.waiter.call := fun m hm =>
    hnodup.1.2.2 _ (List.mem_map_of_mem (List.mem_map_of_mem hm)) _ (.inl rfl)
  have hrunning : ∀ m ∈ s.running.eraseIdx i, m.waiter.call ≠ call.waiter.call := fun m hm heq =>
    hnodup.1.2.1.1 (heq ▸ List.mem_map_of_mem (List.mem_map_of_mem hm))
  constructor
  · exact h.requests
  · exact fun m hm => h.running m (List.mem_of_mem_eraseIdx hm)
  · intro m hm
    rcases List.mem_append.1 hm with hm | hm
    · exact (h.responses m hm).mono List.prefix_rfl (List.Subset.refl _) hmore
    · obtain ⟨made, f, args, hmade, hf, hargs, hinv⟩ := h.running call hmem
      rw [List.mem_singleton.1 hm]
      exact ⟨made, hmade, .inr ⟨args, hargs, .inr ⟨f, outcome, hf, hinv,
        List.mem_append_right _ (List.mem_singleton.2 rfl), hres⟩⟩⟩
  · exact fun n settlement hsettled =>
      (h.own n settlement hsettled).mono List.prefix_rfl (List.Subset.refl _) hmore
  · exact h.invoked
  · exact h.invokedLater
  · show ((s.completed ++ [_]).map Prod.fst).Nodup
    rw [List.map_append]
    refine h.completed.append (List.nodup_singleton _) (List.disjoint_singleton.2 fun hdone => ?_)
    exact (h.completedLater _ hdone).2.2 call hmem rfl
  · intro n hn
    rw [List.map_append] at hn
    rcases List.mem_append.1 hn with hn | hn
    · obtain ⟨hn, hfree, hapart⟩ := h.completedLater n hn
      exact ⟨hn, hfree, fun m hm => hapart m (List.mem_of_mem_eraseIdx hm)⟩
    · rw [List.mem_singleton.1 hn]
      exact ⟨hlt, hrequests, hrunning⟩

/-- A response settles the call that it answers. -/
theorem deliver (h : Served impls s) (hcounted : Counted s)
    (hcond : ∀ res ∈ s.responses.head?, ∀ w ∈ s.pending, w.id = res.data.id → w = res.waiter) :
    Served impls s.deliver := by
  rcases hresponses : s.responses with - | ⟨res, responses⟩
  · rwa [show s.deliver = s by simp only [Port.deliver, hresponses]]
  rw [hcounted.deliver_eq hresponses hcond]
  refine ⟨h.requests, h.running, ?_, ?_, h.invoked, h.invokedLater, h.completed, h.completedLater⟩
  · exact fun m hm => h.responses m (hresponses ▸ List.mem_cons_of_mem res hm)
  · intro n settlement hsettled
    rcases List.mem_append.1 hsettled with hsettled | hsettled
    · exact h.own n settlement hsettled
    · obtain ⟨rfl, rfl⟩ := Prod.mk.inj (List.mem_singleton.1 hsettled)
      exact h.responses res (hresponses ▸ List.mem_cons_self)

end Served

/-! ## Runs -/

/-- What holds in a run whose steps are accepted. -/
structure Matched (impls : Interfaces R) (s : Port R) : Prop where
  counted : Counted s
  served : Served impls s

theorem Matched.answered (h : Matched impls s) : s.Answered impls where
  once := h.counted.once
  waiting _ hw := List.mem_map_of_mem (h.counted.waiters.mem_iff.2 hw)
  own := h.served.own
  invoked := h.served.invoked
  completed := h.served.completed

theorem matched_init : Matched impls (init R) where
  counted := by constructor <;> simp [init, onTheWay]
  served := by constructor <;> simp [init]

theorem Matched.step (h : Matched impls s) {event : Event R} (hcond : s.Accepted event) :
    Matched impls (s.step impls event) := by
  rcases event with ⟨proxy, iface, fn, args⟩ | - | ⟨i, outcome⟩ | -
  · exact ⟨h.counted.call hcond iface fn args, h.served.call proxy iface fn args⟩
  · exact ⟨h.counted.arrive impls, h.served.arrive h.counted⟩
  · exact ⟨h.counted.complete hcond, h.served.complete h.counted hcond⟩
  · exact ⟨h.counted.deliver hcond, h.served.deliver h.counted hcond⟩

/-- The number of calls that are settled or on their way. -/
theorem Answered.length (h : s.Answered impls) :
    s.settled.length + s.onTheWay.length = s.made.length := by
  have := h.once.length_eq
  simpa using this

/-- A step that is not accepted loses the promise of a call, or its answer, or gives it to another
call as well. -/
theorem Matched.accepted (h : Matched impls s) {event : Event R}
    (hanswered : (s.step impls event).Answered impls) : s.Accepted event := by
  have hbefore := h.answered.length
  rcases event with ⟨proxy, iface, fn, args⟩ | - | ⟨i, outcome⟩ | -
  · -- The old waiter under the id is dropped while its call is on its way.
    intro hkey
    obtain ⟨old, hold, hkeys⟩ := List.mem_map.1 hkey
    have hway : old ∈ s.onTheWay := h.counted.waiters.mem_iff.1 hold
    have hne : old.call ≠ (s.waiter proxy).call := Nat.ne_of_lt (h.counted.lt_of_mem hway)
    have hgone := not_mem_set hkeys hne h.counted.nodup_pending hold
    rcases hposted : args.mapM R.clone with - | args'
    · have hwaiting := hanswered.waiting
      rw [show s.step impls (.call proxy iface fn args) = s.call proxy iface fn args from rfl,
        call_of_unposted hposted] at hwaiting
      have hmem := hwaiting old hway
      obtain ⟨other, hother, hcall⟩ := List.mem_map.1 hmem
      exact hgone (List.mem_map.2 ⟨other, List.mem_append_left _ hother, hcall⟩)
    · have hwaiting := hanswered.waiting
      rw [show s.step impls (.call proxy iface fn args) = s.call proxy iface fn args from rfl,
        call_of_posted hposted] at hwaiting
      refine hgone (hwaiting old ?_)
      simp only [onTheWay, List.map_append, List.mem_append] at hway ⊢
      rcases hway with (hway | hway) | hway
      · exact .inl (.inl (.inl hway))
      · exact .inl (.inr hway)
      · exact .inr hway
  · trivial
  · intro hi
    rcases complete_cases s i outcome with ⟨hle, -⟩ | ⟨call, hcall, ⟨-, hstep⟩ | ⟨res, hres, -, -⟩⟩
    · omega
    · -- The call has left the server and nothing is behind it.
      have hafter := hanswered.length
      rw [show s.step impls (.complete i outcome) = s.complete i outcome from rfl, hstep] at hafter
      simp only [onTheWay, List.length_append, List.length_map, List.length_eraseIdx_of_lt hi]
        at hbefore hafter
      omega
    · rw [hres]
      rfl
  · -- Two promises are settled by one response.
    intro res hres w hw hid
    by_contra hne
    obtain ⟨responses, hresponses⟩ := List.head?_eq_some_iff.1 hres
    have hafter := hanswered.length
    have hstep : s.step impls .deliver = { s with
        responses
        pending := s.pending.filter (·.id ≠ res.data.id)
        settled := s.settled ++ (s.pending.filter (·.id = res.data.id)).map fun w =>
          (w.call, settle res.data) } := by
      show s.deliver = _
      simp only [Port.deliver, hresponses]
    have hown : res.waiter ∈ s.pending := h.counted.waiters.mem_iff.2
      (List.mem_append_right _ (List.mem_map_of_mem (hresponses ▸ List.mem_cons_self)))
    have htwo : [w, res.waiter].Subperm (s.pending.filter (·.id = res.data.id)) := by
      refine List.subperm_of_subset (by simpa using hne) fun other hother => ?_
      rcases List.mem_cons.1 hother with rfl | hother
      · exact List.mem_filter.2 ⟨hw, decide_eq_true hid⟩
      · rw [List.mem_singleton.1 hother]
        exact List.mem_filter.2 ⟨hown, decide_eq_true
          (h.counted.responses res (hresponses ▸ List.mem_cons_self)).symm⟩
    have hlength := htwo.length_le
    rw [hstep] at hafter
    simp only [onTheWay, List.length_append, List.length_map, hresponses, List.length_cons,
      List.length_nil] at hbefore hafter hlength
    omega

/-- Requests carry the names of their calls, and the functions that ran are the ones of these
names. This holds in every run. -/
structure Named (impls : Interfaces R) (s : Port R) : Prop where
  requests : ∀ m ∈ s.requests, ∃ call, s.made[m.waiter.call]? = some call ∧
    m.data.iface = call.iface ∧ m.data.fn = call.fn
  dispatched : s.Dispatched impls

theorem Named.step (h : Named impls s) (event : Event R) : Named impls (s.step impls event) := by
  rcases event with ⟨proxy, iface, fn, args⟩ | - | ⟨i, outcome⟩ | -
  · have hlonger : s.made <+: s.made ++ [⟨iface, fn, args⟩] := List.prefix_append _ _
    have hold : ∀ m ∈ s.requests, ∃ call, (s.made ++ [⟨iface, fn, args⟩])[m.waiter.call]? =
        some call ∧ m.data.iface = call.iface ∧ m.data.fn = call.fn := by
      intro m hm
      obtain ⟨call, hcall, hnames⟩ := h.requests m hm
      exact ⟨call, getElem?_of_prefix hlonger hcall, hnames⟩
    have hran : ∀ inv ∈ s.invoked, ∃ call members,
        (s.made ++ [⟨iface, fn, args⟩])[inv.call]? = some call ∧
          impls.own call.iface = some members ∧
            members.own call.fn = some (.function inv.function) := by
      intro inv hinv
      obtain ⟨call, members, hcall, hmembers⟩ := h.dispatched inv hinv
      exact ⟨call, members, getElem?_of_prefix hlonger hcall, hmembers⟩
    show Named impls (s.call proxy iface fn args)
    rcases hposted : args.mapM R.clone with - | args'
    · rw [call_of_unposted hposted]
      exact ⟨hold, hran⟩
    · rw [call_of_posted hposted]
      refine ⟨fun m hm => ?_, hran⟩
      rcases List.mem_append.1 hm with hm | hm
      · exact hold m hm
      · rw [List.mem_singleton.1 hm]
        refine ⟨⟨iface, fn, args⟩, ?_, rfl, rfl⟩
        show (s.made ++ _)[s.made.length]? = _
        rw [List.getElem?_append_right (Nat.le_refl _), Nat.sub_self]
        rfl
  · show Named impls (s.arrive impls)
    rcases arrive_cases impls s with ⟨-, hstep⟩ | ⟨req, requests, hrequests, hcase⟩
    · rwa [hstep]
    have hrest : ∀ m ∈ requests, ∃ call, s.made[m.waiter.call]? = some call ∧
        m.data.iface = call.iface ∧ m.data.fn = call.fn := fun m hm =>
      h.requests m (hrequests ▸ List.mem_cons_of_mem req hm)
    rcases hcase with ⟨message, -, hstep⟩ | ⟨f, hdispatch, hstep⟩
    · rw [hstep]
      exact ⟨hrest, h.dispatched⟩
    · rw [hstep]
      refine ⟨hrest, fun inv hinv => ?_⟩
      rcases List.mem_append.1 hinv with hinv | hinv
      · exact h.dispatched inv hinv
      · obtain ⟨call, hcall, hiface, hfn⟩ :=
          h.requests req (hrequests ▸ List.mem_cons_self)
        rw [hiface, hfn] at hdispatch
        obtain ⟨members, hmembers⟩ := dispatch_eq_ok.1 hdispatch
        rw [List.mem_singleton.1 hinv]
        exact ⟨call, members, hcall, hmembers⟩
  · show Named impls (s.complete i outcome)
    rcases complete_cases s i outcome with ⟨-, hstep⟩ | ⟨call, -, ⟨-, hstep⟩ | ⟨res, -, -, hstep⟩⟩
    · rwa [hstep]
    · rw [hstep]
      exact ⟨h.requests, h.dispatched⟩
    · rw [hstep]
      exact ⟨h.requests, h.dispatched⟩
  · show Named impls s.deliver
    unfold deliver
    split
    · exact h
    · exact ⟨h.requests, h.dispatched⟩

theorem named_init (impls : Interfaces R) : Named impls (init R) :=
  ⟨fun _ hm => (nomatch hm), fun _ hinv => (nomatch hinv)⟩

end Port

open Port in
/-- In every run only own functions of own interfaces run. Every call of a run is answered once,
with what came of its own function, iff the run's steps are accepted. -/
theorem answered_iff_accepted (impls : Interfaces R) (events : List (Event R)) :
    Throughout (step impls) (Dispatched impls) (init R) events ∧
      (Throughout (step impls) (Answered impls) (init R) events ↔
        Meets (step impls) Accepted (init R) events) := by
  refine ⟨throughout_iff.2 fun front hfront => ?_, ?_⟩
  · have hstep : ∀ s event, Named impls s → Named impls (step impls s event) :=
      fun s event h => h.step event
    exact (run_preserves hstep (named_init impls) front).dispatched
  · exact throughout_iff_meets_of_keeps (fun s h => Matched.answered h)
      (fun s event h hcond => h.step hcond) (fun s event h hanswered => h.accepted hanswered)
      events matched_init

/-! ## A result that cannot be cloned -/

/-- Two values: a string, and a function, which no port takes. -/
inductive Example where
  | text (text : String)
  | closure
  deriving DecidableEq

def exampleRealm : Realm where
  Value := Example
  Function := Unit
  clone
    | .text text => some (.text text)
    | .closure => none

/-- One interface with one function. -/
def exampleInterfaces : Interfaces exampleRealm where
  own iface := if iface = "polyvisor:app/tasks@0.1.0" then
    some { own := fun fn => if fn = "add" then some (.function ()) else none } else none

/-- The function returns a function: nothing is on its way any more, and the promise has not been
settled. -/
theorem uncloneable_result_is_not_answered :
    let s := run (Port.step exampleInterfaces) (Port.init exampleRealm)
      [.call 0 "polyvisor:app/tasks@0.1.0" "add" [.text "milk"], .arrive,
        .complete 0 (.returned .closure), .deliver]
    s.made.length = 1 ∧ s.onTheWay = [] ∧ s.settled = [] ∧ s.pending = [⟨0, 1, 0⟩] ∧
      ¬ s.Answered exampleInterfaces := by
  intro s
  have hway : s.onTheWay = [] := by decide
  have hsettled : s.settled = [] := by rfl
  refine ⟨by decide, hway, hsettled, by decide, fun h => ?_⟩
  have hlength := h.once.length_eq
  rw [hway, hsettled] at hlength
  exact absurd hlength (by decide)

end Polyvisor.Rpc
