import Polyvisor.Lib.Backlog
import Polyvisor.Lib.Transition
import Mathlib.Algebra.GroupWithZero.Nat

/-!
# The device's worker

`web/worker.ts`: the SharedWorker of one device, with the ports of its tabs. The first hello says
which device it is; the kernel is booted once, under the lock of the device. The pump over the
kernel's `events.next` (`kernel/src/events.rs`) copies every event to the backlog of every tab,
where that tab's own `events.next` finds it. The key of a backup is derived by the tab that asked
for the backup, since a SharedWorker has no workers of its own. A device whose boot failed may be
erased by a tab.

A step is what runs between two awaits: a message of a tab, or what a promise settles with. What the
kernel and the browser do is part of the label.

## Main results

* `standing_depart`: a tab that departs has said no hello.
-/

namespace Polyvisor.SharedWorker

abbrev Bytes := List UInt8

/-- `QUEUE_LIMIT`. -/
def queueLimit : ℕ := 64

/-- `boot-config`, as a hello has it. -/
structure Hello where
  device : String
  homeOrigin : String
  relay : String
  pageUrl : String
  driveApi : Option String := none
  driveOauth : Option String := none
  deriving DecidableEq, Repr

/-- `optional`. -/
def optional (v : Option String) : Option String :=
  v.filter (· ≠ "")

/-- What a tab posts. -/
inductive Message where
  | hello (data : Hello)
  | depart
  /-- `key` if it is a `Uint8Array`. -/
  | kdfResponse (id : ℕ) (key : Option Bytes) (error : Option String)
  /-- `request` if it is a safe integer. -/
  | eraseFailedDevice (request : Option ℤ)
  | framePort (session : ℕ)
  deriving DecidableEq, Repr

/-- What the worker posts to a tab. -/
inductive Post where
  | booted
  | fatal (message : String) (canErase : Bool)
  | failedDeviceErased
  | eraseResult (request : ℤ) (error : Option String)
  | kdfRequest (id : ℕ) (passphrase : String) (salt : Bytes)
  | kdfCancel (id : ℕ)
  | framePort (session : ℕ)
  | framePortFailed (session : ℕ) (message : String)
  deriving DecidableEq, Repr

/-- `Tab`, with its port. -/
structure Tab (E : Type) where
  /-- `queue` and `waiter`. -/
  backlog : Backlog E := {}
  helloed : Bool := false
  /-- Whether it is in `tabs`. -/
  connected : Bool := true
  /-- Whether the port is open. -/
  isOpen : Bool := true
  /-- What was posted to it. -/
  posted : List Post := []
  /-- How many events were fanned out before it connected. No code reads it. -/
  joined : ℕ := 0
  /-- Whether it was ever out of `tabs`. No code reads it. -/
  left : Bool := false

inductive BootState where
  | pending
  | live
  | failed
  | erased
  deriving DecidableEq, Repr

/-- Where `ready` stands. -/
inductive Ready where
  /-- No tab has said hello. -/
  | helloed
  | locking
  | loading
  | booting
  | resolved
  | rejected
  deriving DecidableEq, Repr

/-- The pump over `events.next`. -/
inductive Pump (E : Type) where
  | idle
  /-- The future is to be polled. -/
  | woken
  /-- The future is pending. -/
  | parked
  /-- The future answered, and the `await` has not. -/
  | carrying (ev : E)
  | stopped
  deriving DecidableEq, Repr

/-- `failedDeviceErase`. -/
inductive Erase where
  | idle
  /-- `removeEntry` is under way. -/
  | removing
  /-- `deleteDeviceRecords` is under way. -/
  | deleting
  | done
  deriving DecidableEq, Repr

/-- A call of the `derive` that is dispatched. -/
structure KdfRequest where
  id : ℕ
  tab : ℕ
  /-- The operation whose call it is. No code reads it. -/
  operation : ℕ
  passphrase : String
  salt : Bytes
  deriving DecidableEq, Repr

structure Worker (E : Type) where
  tabs : List (Tab E) := []
  hello : Option Hello := none
  /-- Whether the worker holds the lock of the device. -/
  deviceLock : Bool := false
  ready : Ready := .helloed
  kernelBootStarted : Bool := false
  bootState : BootState := .pending
  bootFailure : Option String := none
  failedDeviceErase : Erase := .idle
  /-- The requests that wait for `failedDeviceErase`. -/
  eraseRequests : List (ℕ × ℤ) := []
  /-- The ports for frames that wait for `ready`. -/
  framePorts : List (ℕ × ℕ) := []
  /-- The kernel's `Inner`, and whether it has the pump's waker. -/
  queue : List E := []
  waker : Bool := false
  pump : Pump E := .idle
  nextKdfRequest : ℕ := 0
  kdfOwner : Option ℕ := none
  /-- `kdfWaiters`: the number of the request under each id. -/
  kdfWaiters : List (ℕ × ℕ) := []
  /-- The requests whose timeout is armed. -/
  kdfTimeouts : List ℕ := []
  /-- The calls of `lifecycle.boot`. -/
  boots : List Hello := []
  /-- The devices that are removed, or were to be. -/
  removed : List String := []
  /-- What the kernel pushed. -/
  pushed : List E := []
  /-- What `fanOut` was called with. -/
  fanned : List E := []
  /-- The tab of each operation of `withKdfOwner`. -/
  operations : List ℕ := []
  requests : List KdfRequest := []
  /-- What the calls of `derive` were answered. -/
  derived : List (ℕ × Except String Bytes) := []

/-- What the worker is woken by. A result is `none` where it is good. -/
inductive Event (E : Type) where
  | connect
  | message (tab : ℕ) (m : Message)
  | locked (failure : Option String)
  | loaded (failure : Option String)
  | booted (failure : Option String)
  /-- `removeEntry` or `deleteDeviceRecords` settles. What is not found counts as removed. -/
  | erased (failure : Option String)
  | push (ev : E)
  /-- The future of the kernel's `next` is polled. -/
  | poll
  /-- The `await` of the pump answers. -/
  | answered
  /-- It rejects. -/
  | stopped
  /-- A tab calls `events.next`. -/
  | next (tab : ℕ)
  /-- A tab calls one of the four functions that derive a key. -/
  | backup (tab : ℕ)
  /-- The call that owns the derivation settles. -/
  | backedUp
  /-- The kernel calls `derive` for the call of an operation. -/
  | derive (operation : ℕ) (passphrase : String) (salt : Bytes)
  | timeout (request : ℕ)

variable {E : Type}

/-- `port.postMessage`. -/
def Tab.post (m : Post) (tab : Tab E) : Tab E :=
  if tab.isOpen then { tab with posted := tab.posted ++ [m] } else tab

/-- `tabs.delete`. -/
def Tab.leave (tab : Tab E) : Tab E :=
  { tab with helloed := false, connected := false, left := true }

/-- What `fanOut` does with one event. -/
def Tab.offer (ev : E) (tab : Tab E) : Tab E :=
  if tab.connected then { tab with backlog := tab.backlog.offer queueLimit ev } else tab

namespace Worker

variable (w : Worker E)

def update (t : ℕ) (f : Tab E → Tab E) : Worker E :=
  { w with tabs := w.tabs.modify t f }

/-- To every tab. -/
def each (f : Tab E → Tab E) : Worker E :=
  { w with tabs := w.tabs.map f }

def post (t : ℕ) (m : Post) : Worker E :=
  w.update t (Tab.post m)

/-- `tab.helloed` of a port that is open. -/
def isHelloed (t : ℕ) : Bool :=
  (w.tabs[t]?.map Tab.helloed).getD false

/-! ## Derivations -/

/-- `++nextKdfRequest` of a number that is a double. -/
def increment (id : ℕ) : ℕ :=
  if id < 2 ^ 53 then id + 1 else id

/-- A derivation is over: its entry and its timeout are gone, and the promise has settled. -/
def settle (n : ℕ) (request : KdfRequest) (outcome : Except String Bytes) : Worker E :=
  { w with
    kdfWaiters := w.kdfWaiters.filter (·.1 ≠ request.id)
    kdfTimeouts := w.kdfTimeouts.erase n
    derived := w.derived ++ [(n, outcome)] }

/-- `backupKdf.derive`, with the dispatch. Refused ones are not numbered. -/
def derive (operation : ℕ) (passphrase : String) (salt : Bytes) : Worker E :=
  -- the kernel derives within the call of the operation, so never for one that is over;
  -- `createBackupKdf` looks at the salt before it dispatches
  if operation + 1 ≠ w.operations.length ∨ salt.length ≠ 16 then w
  else
    match w.kdfOwner with
    | none => w
    | some tab =>
      if !w.isHelloed tab then w
      else
        -- an id that does not grow any more takes the entry of the one before it
        let id := increment w.nextKdfRequest
        let n := w.requests.length
        post { w with
          nextKdfRequest := id
          requests := w.requests ++ [⟨id, tab, operation, passphrase, salt⟩]
          kdfWaiters := w.kdfWaiters.filter (·.1 ≠ id) ++ [(id, n)]
          kdfTimeouts := w.kdfTimeouts ++ [n] } tab (.kdfRequest id passphrase salt)

/-- The timeout of a request fires. -/
def timeout (n : ℕ) : Worker E :=
  match w.requests[n]? with
  | none => w
  | some request =>
    if n ∈ w.kdfTimeouts then
      -- the timeout was not cleared, but another entry may have its id by now
      (w.settle n request (.error "backup KDF worker timed out")).post request.tab
        (.kdfCancel request.id)
    else w

/-- What `derive` makes of the tab's answer. -/
def keyOf (key : Option Bytes) (error : Option String) : Except String Bytes :=
  match key with
  | some key => if key.length ≠ 32 then .error "backup KDF returned an invalid key" else .ok key
  | none => .error (error.getD "backup KDF failed")

/-- `kdf-response`. -/
def kdfResponse (t id : ℕ) (key : Option Bytes) (error : Option String) : Worker E :=
  match w.kdfWaiters.lookup id with
  -- an answer that comes late finds no entry
  | none => w
  | some n =>
    match w.requests[n]? with
    | none => w
    -- only the tab that was asked may answer
    | some request => if request.tab ≠ t then w else w.settle n request (keyOf key error)

/-- The requests of a tab that wait. -/
def waitingOn (t : ℕ) : List (ℕ × KdfRequest) :=
  w.kdfWaiters.filterMap fun waiter =>
    (w.requests[waiter.2]?.filter (·.tab = t)).map (waiter.2, ·)

/-- `depart`. -/
def depart (t : ℕ) : Worker E :=
  (w.waitingOn t).foldl
    (fun w waiter =>
      (w.post t (.kdfCancel waiter.2.id)).settle waiter.1 waiter.2
        (.error "the requesting tab departed"))
    -- it is out of `tabs` first, so nothing that follows reaches it as a connected tab
    (w.update t Tab.leave)

/-- `withKdfOwner`, up to the operation. -/
def backup (t : ℕ) : Worker E :=
  if w.isHelloed t ∧ w.kdfOwner = none then
    { w with kdfOwner := some t, operations := w.operations ++ [t] }
  else w

/-! ## Boot -/

/-- `ready` rejects. -/
def fail (message : String) : Worker E :=
  -- a boot that never started leaves nothing to erase
  let bootState := if w.kernelBootStarted then .failed else w.bootState
  let w : Worker E := { w with ready := .rejected, bootState, bootFailure := some message }
  let w := w.each fun tab =>
    if tab.connected then tab.post (.fatal message (bootState = .failed)) else tab
  -- the ports that were asked for
  w.framePorts.foldl (fun w frame => w.post frame.1 (.framePortFailed frame.2 message))
    { w with framePorts := [] }

/-- `ready` resolves. -/
def live : Worker E :=
  let w : Worker E := { w with ready := .resolved, bootState := .live, pump := .woken }
  -- every tab that has a port hears of it, helloed or not
  let w := w.each (Tab.post .booted)
  w.framePorts.foldl (fun w frame => w.post frame.1 (.framePort frame.2))
    { w with framePorts := [] }

def locked (failure : Option String) : Worker E :=
  match w.ready, failure with
  | .locking, none => { w with deviceLock := true, ready := .loading }
  | .locking, some message => w.fail message
  | _, _ => w

def loaded (failure : Option String) : Worker E :=
  match w.ready, failure with
  | .loading, none =>
    -- the kernel is constructed here and nowhere else
    { w with ready := .booting, kernelBootStarted := true, boots := w.boots ++ w.hello.toList }
  | .loading, some message => w.fail message
  | _, _ => w

def booted (failure : Option String) : Worker E :=
  match w.ready, failure with
  | .booting, none => w.live
  | .booting, some message => w.fail message
  | _, _ => w

/-- The text of the fatal message to a tab of another device. -/
def mismatch (ours theirs : String) : String :=
  "this worker is device " ++ ours ++ ", not " ++ theirs ++ " — the " ++
    "browser matched two SharedWorker names to one worker"

/-- What a tab that came late is told. -/
def tellFailure (t : ℕ) : Worker E :=
  match w.bootFailure with
  | none => w
  | some message => w.post t <|
    if w.bootState = .erased then .failedDeviceErased else .fatal message (w.bootState = .failed)

/-- `hello`. -/
def sayHello (t : ℕ) (data : Hello) : Worker E :=
  match w.hello with
  | none =>
    let hello := { data with
      driveApi := optional data.driveApi, driveOauth := optional data.driveOauth }
    -- a tab that departed before it said hello is not in `tabs`, and stays out
    tellFailure (update { w with hello := some hello, ready := .locking } t fun tab =>
      { tab with helloed := tab.helloed || tab.connected }) t
  | some hello =>
    -- the browser matched two names to one worker
    if hello.device ≠ data.device then
      ((w.post t (.fatal (mismatch hello.device data.device) false)).depart t).update t fun tab =>
        { tab with isOpen := false }
    else
      (w.update t fun tab => { tab with helloed := true, connected := true }).tellFailure t

/-! ## Erasing a device that did not boot -/

/-- `eraseFailedDeviceOnce` settles, and the requests are answered. -/
def answerErase (error : Option String) : Worker E :=
  w.eraseRequests.foldl (fun w request => w.post request.1 (.eraseResult request.2 error))
    { w with eraseRequests := [] }

/-- `erase-failed-device`. -/
def eraseFailedDevice (t : ℕ) (request : Option ℤ) : Worker E :=
  match request with
  | none => w
  | some request =>
    if !w.isHelloed t then w
    else
      match w.failedDeviceErase, w.hello with
      -- the promise has resolved and is kept
      | .done, _ => w.post t (.eraseResult request none)
      | .idle, some hello =>
        if w.bootState = .failed then { w with
          failedDeviceErase := .removing
          eraseRequests := w.eraseRequests ++ [(t, request)]
          removed := w.removed ++ [hello.device] }
        else w.post t (.eraseResult request
          (some "device erase is available only after this worker's boot failed"))
      | .idle, none => w.post t (.eraseResult request
          (some "device erase is available only after this worker's boot failed"))
      -- one erase is under way: the request waits for the same promise
      | _, _ => { w with eraseRequests := w.eraseRequests ++ [(t, request)] }

def erased (failure : Option String) : Worker E :=
  match w.failedDeviceErase, failure with
  -- the files are gone, the records come next
  | .removing, none => { w with failedDeviceErase := .deleting }
  | .deleting, none =>
    let w : Worker E := { w with failedDeviceErase := .done, bootState := .erased }
    (w.each fun tab =>
      if tab.connected ∧ tab.helloed then tab.post .failedDeviceErased else tab).answerErase none
  -- the promise is dropped, so that a later request starts again
  | .removing, some message | .deleting, some message =>
    answerErase { w with failedDeviceErase := .idle } (some message)
  | _, _ => w

/-! ## Events and frames -/

/-- `Events::push`. -/
def push (ev : E) : Worker E :=
  let w : Worker E := { w with queue := w.queue ++ [ev], pushed := w.pushed ++ [ev] }
  -- only a `next` that sleeps has left its waker
  if w.waker then { w with
    waker := false
    pump := if w.pump matches .parked then .woken else w.pump }
  else w

/-- `Events::next`, polled by the pump. -/
def poll : Worker E :=
  match w.pump with
  | .woken =>
    match w.queue with
    | ev :: queue => { w with queue, pump := .carrying ev }
    | [] => { w with waker := true, pump := .parked }
  | _ => w

/-- `fanOut`, and the pump goes round. -/
def answered : Worker E :=
  match w.pump with
  | .carrying ev => each { w with pump := .woken, fanned := w.fanned ++ [ev] } (Tab.offer ev)
  | _ => w

/-- The runtime is gone, and what was not answered is gone with it. -/
def stopped : Worker E :=
  match w.pump with
  | .woken | .parked => { w with pump := .stopped }
  | _ => w

/-- `frame-port`. -/
def framePort (t session : ℕ) : Worker E :=
  match w.ready, w.bootFailure with
  | .resolved, _ => w.post t (.framePort session)
  | .rejected, some message => w.post t (.framePortFailed session message)
  -- the worker answers once `ready` has settled
  | _, _ => { w with framePorts := w.framePorts ++ [(t, session)] }

def connect : Worker E :=
  let tab : Tab E := { joined := w.fanned.length }
  let tab := if w.ready = .resolved then tab.post .booted else tab
  { w with tabs := w.tabs ++ [tab] }

def message (t : ℕ) (m : Message) : Worker E :=
  match m with
  | .hello data => w.sayHello t data
  | .depart => w.depart t
  | .kdfResponse id key error => w.kdfResponse t id key error
  | .eraseFailedDevice request => w.eraseFailedDevice t request
  | .framePort session => w.framePort t session

/-- Whether the tab has an open port. -/
def hears (t : ℕ) : Bool :=
  (w.tabs[t]?.map Tab.isOpen).getD false

def step : Event E → Worker E
  | .connect => w.connect
  | .message t m => if w.hears t then w.message t m else w
  | .locked failure => w.locked failure
  | .loaded failure => w.loaded failure
  | .booted failure => w.booted failure
  | .erased failure => w.erased failure
  | .push ev => w.push ev
  | .poll => w.poll
  | .answered => w.answered
  | .stopped => w.stopped
  | .next t =>
    if w.hears t then w.update t fun tab => { tab with backlog := tab.backlog.next.1 } else w
  | .backup t => if w.hears t then w.backup t else w
  | .backedUp => { w with kdfOwner := none }
  | .derive operation passphrase salt => w.derive operation passphrase salt
  | .timeout request => w.timeout request

/-! ## What a tab is left with -/

/-- A part of a tab. -/
def view {β : Type} (g : Tab E → β) (t : ℕ) : Option β :=
  w.tabs[t]?.map g

/-- `helloed`, and whether the tab is in `tabs`. -/
def standing (t : ℕ) : Option (Bool × Bool) :=
  w.view (fun tab => (tab.helloed, tab.connected)) t

theorem isHelloed_eq (t : ℕ) : w.isHelloed t = ((w.standing t).map Prod.fst).getD false := by
  simp [isHelloed, standing, view, Function.comp_def]

variable {w}

theorem view_update {β : Type} {g : Tab E → β} {f : Tab E → Tab E} (hf : ∀ tab, g (f tab) = g tab)
    (t t' : ℕ) : (w.update t f).view g t' = w.view g t' := by
  simp only [view, update, List.getElem?_modify]
  cases w.tabs[t']? with
  | none => rfl
  | some tab =>
    split_ifs
    · simp [hf tab]
    · simp

theorem view_each {β : Type} {g : Tab E → β} {f : Tab E → Tab E} (hf : ∀ tab, g (f tab) = g tab)
    (t : ℕ) : (w.each f).view g t = w.view g t := by
  simp only [view, each, List.getElem?_map, Option.map_map]
  congr 1
  ext tab
  exact hf tab

theorem view_foldl {β γ : Type} {g : Tab E → β} {f : Worker E → γ → Worker E} {t : ℕ}
    (hf : ∀ (w : Worker E) c, (f w c).view g t = w.view g t) (l : List γ) (w : Worker E) :
    (l.foldl f w).view g t = w.view g t := by
  induction l generalizing w with
  | nil => rfl
  | cons c l ih => rw [List.foldl_cons, ih, hf]

variable (w)

@[simp]
theorem standing_post (t t' : ℕ) (m : Post) : (w.post t m).standing t' = w.standing t' := by
  refine view_update (fun tab => ?_) t t'
  unfold Tab.post
  split_ifs <;> rfl

/-- A tab that departs is out of `tabs`, and has not said hello. -/
theorem standing_depart (t t' : ℕ) :
    (w.depart t).standing t' =
      if t' = t then (w.standing t').map fun _ => (false, false) else w.standing t' := by
  have hcancelled (w : Worker E) (waiter : ℕ × KdfRequest) :
      ((w.post t (.kdfCancel waiter.2.id)).settle waiter.1 waiter.2
        (.error "the requesting tab departed")).view (fun tab => (tab.helloed, tab.connected)) t' =
          w.view (fun tab => (tab.helloed, tab.connected)) t' :=
    standing_post w t t' _
  unfold depart standing
  rw [view_foldl hcancelled]
  simp only [view, update, List.getElem?_modify]
  split_ifs with h h' h'
  · simp [Tab.leave, Function.comp_def]
  · exact absurd h.symm h'
  · exact absurd h'.symm h
  · simp

end Worker

end Polyvisor.SharedWorker
