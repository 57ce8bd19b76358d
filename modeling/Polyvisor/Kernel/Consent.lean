import Polyvisor.Lib.Transition
import Mathlib.Algebra.GroupWithZero.Nat
import Mathlib.Data.List.Nodup

/-!
# The store's consent

`oauth_start`, `oauth_complete`, `storage_disconnect`, `drive_request` and `refresh_tokens` of
`kernel/src/drive.rs`: the ceremony that is waited for, the tokens that are held, and the requests
that are made with them. A step is what a call does between two awaits, so that tokens can be
forgotten, or a new consent given, while an answer is under way.

A consent is numbered by the ceremony it was given in. Tokens and the cached folder carry that
number here, which no code reads. What the passes do with the store is elsewhere; here they make
requests, and find the folder (`drive_folder`) with one for each page of the listing and another to
create it.

## Main results

* `verifiers_once`: in every run, a verifier is sent once at most, with the answer that has its
  ceremony's state, and the tokens come of such exchanges alone.
* `one_consent_iff`: tokens and folder are of one consent throughout a run iff no refresh answers,
  and no folder that was found is cached, while the tokens of another consent are held.
-/

namespace Polyvisor.Consent

open Transition

/-! ## The store's half of the kernel -/

/-- `Ceremony`. -/
structure Ceremony where
  verifier : String
  state : String
  clientId : String
  clientSecret : String
  deriving DecidableEq

/-- A token, and the consent it was issued for. -/
structure Bearer where
  text : String
  consent : ℕ
  deriving DecidableEq

/-- `Tokens`, and the consent that the client pair is of. -/
structure Tokens where
  access : Bearer
  refresh : Bearer
  clientId : String
  clientSecret : String
  /-- In milliseconds; 0 when the endpoint said nothing about it. -/
  expiresAtMs : ℕ
  consent : ℕ
  deriving DecidableEq

/-- `Sealed`. -/
structure Sealed where
  tokens : Option Tokens
  lastPull : ℕ
  lastPush : ℕ
  deriving DecidableEq

/-- `Trouble`. -/
inductive Trouble where
  | reauthorize (why : String)
  | hiccup (why : String)
  deriving DecidableEq

/-- The cached folder, the name key it was resolved under, and the consent it was found with. -/
structure Folder where
  nameKey : List UInt8
  id : String
  consent : ℕ
  deriving DecidableEq

/-- `Drive`. A ceremony has its number beside it. -/
structure Drive where
  tokens : Option Tokens := none
  lastPull : ℕ := 0
  lastPush : ℕ := 0
  pending : Option (ℕ × Ceremony) := none
  trouble : Option Trouble := none
  folder : Option Folder := none
  rejected : List String := []
  deriving DecidableEq

namespace Drive

/-- `Drive::restore`. -/
def restore : Option Sealed → Drive
  | none => {}
  | some s => { tokens := s.tokens, lastPull := s.lastPull, lastPush := s.lastPush }

/-- `Drive::sealed`. -/
def sealed (d : Drive) : Option Sealed :=
  d.tokens.map fun _ => { tokens := d.tokens, lastPull := d.lastPull, lastPush := d.lastPush }

/-- `Drive::state`. -/
def stateLine (d : Drive) : String :=
  match d.tokens, d.trouble with
  | none, _ => "not connected"
  | some _, some (.reauthorize why) => "needs re-authorization: " ++ why
  | some _, some (.hiccup why) => "connected; the last sync did not finish: " ++ why
  | some _, none => "connected"

end Drive

/-! ## The token endpoint -/

/-- `HttpResponse`, as far as it is read. -/
structure HttpResponse where
  status : ℕ
  body : List UInt8

def HttpResponse.ok (r : HttpResponse) : Bool :=
  200 ≤ r.status ∧ r.status < 300

/-- `Issued`. -/
structure Issued where
  accessToken : String
  refreshToken : Option String
  expiresIn : Option ℕ

/-- `TokenFailure`. -/
inductive TokenFailure where
  | refused (why : String)
  | unreachable (why : String)

/-- What `serde_json` makes of a body: the tokens, or what it says; and an error's two fields. -/
structure Library where
  issued : List UInt8 → Except String Issued
  error : List UInt8 → Option (String × String)

/-- `clip`. -/
def clip (text : String) (limit : ℕ) : String :=
  if limit < text.toList.length then String.ofList (text.toList.take limit) ++ "…" else text

variable (lib : Library)

/-- `oauth_error`. -/
def oauthError (body : List UInt8) : String :=
  match lib.error body with
  | none => ""
  | some ("", "") => ""
  | some (code, "") => ": " ++ clip code 120
  | some ("", detail) => ": " ++ clip detail 120
  | some (code, detail) => ": " ++ clip (code ++ ": " ++ detail) 120

/-- `token_request`, from the answer on. -/
def tokenRequest (answer : Except String HttpResponse) : Except TokenFailure Issued :=
  match answer with
  | .error why => .error (.unreachable why)
  | .ok response =>
    if ¬ response.ok then
      .error (.refused
        (s!"the sign-in service answered {response.status}" ++ oauthError lib response.body))
    else
      match lib.issued response.body with
      | .ok issued => .ok issued
      | .error e => .error (.refused ("the sign-in service's answer could not be read: " ++ e))

/-- `u64::saturating_add`, of what is no less. -/
def saturate (n : ℕ) : ℕ :=
  min n (2 ^ 64 - 1)

/-- `expiry`. -/
def expiry (now : ℕ) : Option ℕ → ℕ
  | some seconds => saturate (now + (saturate (seconds * 1000) - 60000))
  | none => 0

/-- What `oauth_complete` keeps. -/
def exchanged (n : ℕ) (c : Ceremony) (issued : Issued) (refresh : String) (now : ℕ) : Tokens where
  access := ⟨issued.accessToken, n⟩
  refresh := ⟨refresh, n⟩
  clientId := c.clientId
  clientSecret := c.clientSecret
  expiresAtMs := expiry now issued.expiresIn
  consent := n

/-- What `refresh_tokens` makes of the tokens it finds, with what was issued for `sent`. -/
def Tokens.refreshed (held sent : Tokens) (issued : Issued) (now : ℕ) : Tokens :=
  { held with
    access := ⟨issued.accessToken, sent.refresh.consent⟩
    refresh := issued.refreshToken.elim held.refresh fun rotated => ⟨rotated, sent.refresh.consent⟩
    expiresAtMs := expiry now issued.expiresIn }

/-! ## What is under way -/

/-- What a request is for. -/
inductive Purpose where
  | other
  /-- `drive_query` for the folder, with the first id that a page has had so far, and the consent of
  the token which that page was asked with. -/
  | list (nameKey : List UInt8) (first : Option (String × ℕ))
  /-- No page had one. -/
  | create (nameKey : List UInt8)

/-- A request of a pass: what it is for, and whether a refresh was spent on it. -/
structure Request where
  what : String
  purpose : Purpose
  retried : Bool

/-- What is read of a body: the ids of a page and whether there is a `nextPageToken`, or the id of
what was created. -/
structure Page where
  ids : List String
  more : Bool

inductive Task where
  | done
  /-- `oauth_complete` awaits the token endpoint. -/
  | exchanging (n : ℕ) (c : Ceremony)
  /-- `refresh_tokens` awaits it, with the tokens it found. -/
  | refreshing (tokens : Tokens) (request : Request)
  /-- A checkpoint is under way; then the request goes out. -/
  | writing (request : Option Request)
  /-- The store is asked, with this token. -/
  | requesting (access : Bearer) (request : Request)

structure Kernel where
  /-- `open`. -/
  isOpen : Bool := true
  drive : Drive := {}
  tasks : List Task := []
  /-- What the last checkpoint holds. -/
  saved : Option Sealed := none
  /-- The ceremonies that were started. -/
  ceremonies : List Ceremony := []
  /-- The exchanges that were asked for: the ceremony's number, its verifier, and the state that the
  answer came with. -/
  exchanges : List (ℕ × String × String) := []

/-- `trim().is_empty()`: nothing but white space. -/
def blank (text : String) : Bool :=
  text.toList.all fun c =>
    let n := c.toNat
    (9 ≤ n ∧ n ≤ 13) ∨ n = 32 ∨ n = 0x85 ∨ n = 0xA0 ∨ n = 0x1680 ∨ (0x2000 ≤ n ∧ n ≤ 0x200A) ∨
      n = 0x2028 ∨ n = 0x2029 ∨ n = 0x202F ∨ n = 0x205F ∨ n = 0x3000

namespace Kernel

variable (k : Kernel)

def goto (i : ℕ) (task : Task) : Kernel :=
  { k with tasks := k.tasks.set i task }

/-- The pass is over. -/
def fail (i : ℕ) (trouble : Trouble) : Kernel :=
  { k with drive.trouble := some trouble, tasks := k.tasks.set i .done }

/-- Why nothing is sent without tokens. -/
def notConnected : Trouble := .reauthorize "this device is not connected"

/-- `refresh_tokens`, up to its await. -/
def refresh (i : ℕ) (request : Request) : Kernel :=
  match k.drive.tokens with
  | none => k.fail i notConnected
  -- the tokens are cloned: what is held may change before the answer
  | some tokens => k.goto i (.refreshing tokens request)

/-- `authorized`, up to its await. -/
def authorize (i : ℕ) (request : Request) : Kernel :=
  match k.drive.tokens with
  | none => k.fail i notConnected
  | some tokens => k.goto i (.requesting tokens.access request)

/-- The recorded expiry has passed. -/
def stale (now : ℕ) : Bool :=
  k.drive.tokens.any fun tokens => tokens.expiresAtMs ≠ 0 ∧ tokens.expiresAtMs ≤ now

/-- What `oauth_complete` does with an answer. -/
def complete (i n : ℕ) (c : Ceremony) (answer : Except String HttpResponse) (now : ℕ) : Kernel :=
  match tokenRequest lib answer with
  | .error _ => k.goto i .done
  | .ok issued =>
    match issued.refreshToken with
    -- a consent without a refresh token is not kept
    | none => k.goto i .done
    | some refresh =>
      { k with
        drive.tokens := some (exchanged n c issued refresh now)
        drive.trouble := none
        -- both caches are of the connection before
        drive.folder := none
        drive.rejected := []
        tasks := k.tasks.set i (.writing none) }

/-- What `refresh_tokens` does with an answer. -/
def renew (i : ℕ) (sent : Tokens) (request : Request) (answer : Except String HttpResponse)
    (now : ℕ) : Kernel :=
  match tokenRequest lib answer with
  -- a refusal needs a new consent, and the network only another try
  | .error (.refused why) => k.fail i (.reauthorize why)
  | .error (.unreachable why) => k.fail i (.hiccup why)
  | .ok issued =>
    { k with
      -- nothing asks whether the held tokens are those the refresh was sent with
      drive.tokens := k.drive.tokens.map fun held => held.refreshed sent issued now
      tasks := k.tasks.set i (.writing (some request)) }

/-- `drive_request`, up to its first await. -/
def send (i now : ℕ) (request : Request) : Kernel :=
  -- the recorded expiry is looked at first, and the answer decides
  if k.stale now then k.refresh i request else k.authorize i request

/-- The end of `drive_folder`. -/
def cache (i : ℕ) (folder : Folder) : Kernel :=
  { k with drive.folder := some folder, drive.rejected := [], tasks := k.tasks.set i .done }

/-- What `drive_request` does with an answer, and its caller: `found` is what the caller makes of
another status than 401, and of the body. -/
def answered (i : ℕ) (access : Bearer) (request : Request) (answer : Except String HttpResponse)
    (now : ℕ) (found : Except String Page) : Kernel :=
  match answer with
  | .error why => k.fail i (.hiccup why)
  | .ok response =>
    if response.status = 401 then
      -- one refresh for a request, and then it is over
      if request.retried then
        k.fail i (.reauthorize
          ("the store no longer accepts this device's sign-in, so it cannot " ++ request.what))
      else k.refresh i { request with retried := true }
    else
      match found, request.purpose with
      | .error why, _ => k.fail i (.hiccup why)
      | .ok _, .other => k.goto i .done
      | .ok page, .list nameKey first =>
        -- the first of all pages counts, and the next page is asked for anew
        let first := first.or (page.ids.head?.map (·, access.consent))
        if page.more then k.send i now ⟨request.what, .list nameKey first, false⟩
        else
          match first with
          | some (id, consent) => k.cache i ⟨nameKey, id, consent⟩
          | none => k.send i now ⟨"create the store's folder", .create nameKey, false⟩
      | .ok page, .create nameKey =>
        match page.ids.head? with
        | some id => k.cache i ⟨nameKey, id, access.consent⟩
        | none => k.fail i (.hiccup "the store answered a folder with no id")

end Kernel

/-- What can happen next. -/
inductive Label where
  | start (clientId clientSecret verifier state : String)
  /-- `oauth_complete` is called. -/
  | complete (state : String)
  | disconnect
  | syncNow
  /-- A pass makes a request, or the first one for the folder under a name key. -/
  | request (what : String) (folder : Option (List UInt8)) (now : ℕ)
  /-- The endpoint or the store answers a task. -/
  | answer (i : ℕ) (answer : Except String HttpResponse) (now : ℕ) (found : Except String Page)
  /-- The checkpoint of a task is over, or failed. -/
  | written (i : ℕ) (failed : Option String)
  /-- A pass could not read an object. -/
  | reject (id : String)
  | pulled (now : ℕ)
  | pushed (now : ℕ)
  /-- A pass is over. -/
  | passed
  /-- A checkpoint is written. -/
  | checkpoint
  | erase
  /-- The worker dies, and the device is booted or unsealed from its checkpoint. -/
  | restart

namespace Kernel

def step (k : Kernel) : Label → Kernel
  | .start clientId clientSecret verifier state =>
    if ¬ k.isOpen ∨ blank clientId then k
    else
      let c := { verifier, state, clientId, clientSecret }
      { k with drive.pending := some (k.ceremonies.length, c), ceremonies := k.ceremonies ++ [c] }
  | .complete state =>
    match k.isOpen, k.drive.pending with
    | true, some (n, c) =>
      -- another state leaves the ceremony waiting
      if c.state = state then
        { k with
          drive.pending := none
          tasks := k.tasks ++ [.exchanging n c]
          exchanges := k.exchanges ++ [(n, c.verifier, state)] }
      else k
    | _, _ => k
  | .disconnect => if k.isOpen then { k with drive := {} } else k
  | .syncNow => if k.isOpen then { k with drive.trouble := none } else k
  | .request what folder now =>
    let purpose := folder.elim .other fun nameKey => .list nameKey none
    send { k with tasks := k.tasks ++ [Task.done] } k.tasks.length now ⟨what, purpose, false⟩
  | .answer i answer now found =>
    match k.tasks[i]? with
    | some (.exchanging n c) => k.complete lib i n c answer now
    | some (.refreshing tokens request) => k.renew lib i tokens request answer now
    | some (.requesting access request) => k.answered i access request answer now found
    | _ => k
  | .written i failed =>
    match k.tasks[i]?, failed with
    | some (.writing none), _ => k.goto i .done
    | some (.writing (some request)), none => k.authorize i request
    | some (.writing (some _)), some why => k.fail i (.hiccup why)
    | _, _ => k
  | .reject id => { k with drive.rejected := id :: k.drive.rejected }
  | .pulled now => { k with drive.lastPull := now }
  | .pushed now => { k with drive.lastPush := now }
  | .passed => { k with drive.trouble := none }
  | .checkpoint => { k with saved := k.drive.sealed }
  | .erase => { k with isOpen := false, drive := {} }
  | .restart => { k with isOpen := true, drive := .restore k.saved, tasks := [] }

end Kernel

/-! ## Every token there is -/

namespace Kernel

variable {lib : Library} {k : Kernel} {Q : Tokens → Prop} {i : ℕ}

/-- A property of the tokens that are held, that are saved, or that a refresh was sent with. -/
structure Every (Q : Tokens → Prop) (k : Kernel) : Prop where
  held : ∀ t ∈ k.drive.tokens, Q t
  saved : ∀ s ∈ k.saved, ∀ t ∈ s.tokens, Q t
  sent : ∀ t request, .refreshing t request ∈ k.tasks → Q t

/-- What is under way, after one task went on. -/
theorem mem_set {tasks : List Task} {task task' : Task} (h : task' ∈ tasks.set i task) :
    task' ∈ tasks ∨ task' = task :=
  List.mem_or_eq_of_mem_set h

theorem Every.goto (h : k.Every Q) (task : Task)
    (htask : ∀ t request, task = .refreshing t request → Q t) : (k.goto i task).Every Q where
  held := h.held
  saved := h.saved
  sent t request hmem := by
    obtain hmem | heq := mem_set hmem
    · exact h.sent t request hmem
    · exact htask t request heq.symm

theorem Every.fail (h : k.Every Q) (trouble : Trouble) : (k.fail i trouble).Every Q where
  held := h.held
  saved := h.saved
  sent t request hmem := by
    obtain hmem | heq := mem_set hmem
    · exact h.sent t request hmem
    · cases heq

theorem Every.refresh (h : k.Every Q) (request : Request) : (k.refresh i request).Every Q := by
  rw [Kernel.refresh]
  cases htokens : k.drive.tokens with
  | none => exact h.fail _
  | some tokens =>
    refine h.goto _ fun t request' heq => ?_
    cases heq
    exact h.held _ htokens

theorem Every.authorize (h : k.Every Q) (request : Request) : (k.authorize i request).Every Q := by
  rw [Kernel.authorize]
  cases k.drive.tokens with
  | none => exact h.fail _
  | some tokens => exact h.goto _ (by simp)

theorem Every.send (h : k.Every Q) (now : ℕ) (request : Request) :
    (k.send i now request).Every Q := by
  rw [Kernel.send]
  split_ifs
  · exact h.refresh request
  · exact h.authorize request

/-- A task is appended, and tokens are changed. -/
theorem Every.of_tokens (h : k.Every Q) {drive : Drive} {tasks : List Task}
    (hheld : ∀ t ∈ drive.tokens, Q t)
    (htasks : ∀ t request, .refreshing t request ∈ tasks → .refreshing t request ∈ k.tasks) :
    (Every Q { k with drive, tasks }) :=
  ⟨hheld, h.saved, fun t request hmem => h.sent t request (htasks t request hmem)⟩

theorem refreshing_mem_of_set {tasks : List Task} {task : Task}
    (hne : ∀ t r, task ≠ .refreshing t r)
    (t : Tokens) (request : Request) (hmem : .refreshing t request ∈ tasks.set i task) :
    .refreshing t request ∈ tasks := by
  obtain hmem | heq := mem_set hmem
  · exact hmem
  · exact absurd heq.symm (hne t request)

theorem Every.cache (h : k.Every Q) (folder : Folder) : (k.cache i folder).Every Q :=
  h.of_tokens h.held (refreshing_mem_of_set (by simp))

theorem Every.answered (h : k.Every Q) (access : Bearer) (request : Request)
    (answer : Except String HttpResponse) (now : ℕ) (found : Except String Page) :
    (k.answered i access request answer now found).Every Q := by
  simp only [Kernel.answered]
  split
  · exact h.fail _
  · split_ifs
    · exact h.fail _
    · exact h.refresh _
    · split
      · exact h.fail _
      · exact h.goto _ (by simp)
      · split_ifs
        · exact h.send now _
        · split
          · exact h.cache _
          · exact h.send now _
      · split
        · exact h.cache _
        · exact h.fail _

/-- What holds of the tokens that an exchange and a refresh make holds of all. -/
theorem Every.step (h : k.Every Q) (l : Label)
    (hexchanged : ∀ i answer now found n c issued refresh, l = .answer i answer now found →
      k.tasks[i]? = some (.exchanging n c) → Q (exchanged n c issued refresh now))
    (hrefreshed : ∀ i answer now found sent request issued held, l = .answer i answer now found →
      k.tasks[i]? = some (.refreshing sent request) → tokenRequest lib answer = .ok issued →
        k.drive.tokens = some held → Q (held.refreshed sent issued now)) :
    (k.step lib l).Every Q := by
  have hnone : ∀ t ∈ (none : Option Tokens), Q t := by simp
  have happend (task : Task) (hne : ∀ t r, task ≠ .refreshing t r) (t : Tokens) (request : Request)
      (hmem : .refreshing t request ∈ k.tasks ++ [task]) : .refreshing t request ∈ k.tasks := by
    obtain hmem | hmem := List.mem_append.1 hmem
    · exact hmem
    · exact absurd (List.mem_singleton.1 hmem).symm (hne t request)
  cases l with
  | start clientId clientSecret verifier state =>
    simp only [Kernel.step]
    split_ifs
    · exact h
    · exact ⟨h.held, h.saved, h.sent⟩
  | complete state =>
    simp only [Kernel.step]
    split
    · split_ifs
      · exact ⟨h.held, h.saved, fun t r hmem => h.sent t r (happend _ (by simp) t r hmem)⟩
      · exact h
    · exact h
  | disconnect =>
    simp only [Kernel.step]
    split_ifs
    · exact ⟨hnone, h.saved, h.sent⟩
    · exact h
  | syncNow =>
    simp only [Kernel.step]
    split_ifs
    · exact ⟨h.held, h.saved, h.sent⟩
    · exact h
  | request what folder now =>
    have hasked : ({ k with tasks := k.tasks ++ [Task.done] } : Kernel).Every Q :=
      h.of_tokens h.held (happend _ (by simp))
    exact hasked.send now _
  | answer i answer now found =>
    simp only [Kernel.step]
    split
    next n c htask =>
      rw [Kernel.complete]
      split
      · exact h.goto _ (by simp)
      · split
        · exact h.goto _ (by simp)
        next issued _ _ refresh _ =>
          refine h.of_tokens ?_ (refreshing_mem_of_set (by simp))
          rintro t ⟨⟩
          exact hexchanged i answer now found n c issued refresh rfl htask
    next sent request htask =>
      rw [Kernel.renew]
      split
      · exact h.fail _
      · exact h.fail _
      next issued hissued =>
        refine h.of_tokens ?_ (refreshing_mem_of_set (by simp))
        intro t ht
        obtain ⟨held, hheld, rfl⟩ := Option.map_eq_some_iff.1 ht
        exact hrefreshed i answer now found sent request issued held rfl htask hissued hheld
    next access request htask =>
      exact h.answered access request answer now found
    next => exact h
  | written i failed =>
    simp only [Kernel.step]
    split
    · exact h.goto _ (by simp)
    · exact h.authorize _
    · exact h.fail _
    · exact h
  | reject id => exact ⟨h.held, h.saved, h.sent⟩
  | pulled now => exact ⟨h.held, h.saved, h.sent⟩
  | pushed now => exact ⟨h.held, h.saved, h.sent⟩
  | passed => exact ⟨h.held, h.saved, h.sent⟩
  | checkpoint =>
    refine ⟨h.held, fun s hs t ht => ?_, h.sent⟩
    obtain ⟨_, -, rfl⟩ := Option.map_eq_some_iff.1 hs
    exact h.held t ht
  | erase => exact ⟨hnone, h.saved, h.sent⟩
  | restart =>
    refine ⟨?_, h.saved, by simp [Kernel.step]⟩
    show ∀ t ∈ (Drive.restore k.saved).tokens, Q t
    cases hsaved : k.saved with
    | none => exact hnone
    | some s => exact h.saved s hsaved

theorem every_start : Every Q ({} : Kernel) :=
  ⟨by simp, by simp, by simp⟩

/-! ## One consent -/

@[simp]
theorem drive_goto (i : ℕ) (task : Task) : (k.goto i task).drive = k.drive := rfl

@[simp]
theorem tokens_fail (i : ℕ) (trouble : Trouble) :
    (k.fail i trouble).drive.tokens = k.drive.tokens := rfl

@[simp]
theorem folder_fail (i : ℕ) (trouble : Trouble) :
    (k.fail i trouble).drive.folder = k.drive.folder := rfl

@[simp]
theorem tokens_refresh (i : ℕ) (request : Request) :
    (k.refresh i request).drive.tokens = k.drive.tokens := by
  rw [refresh]
  split <;> rfl

@[simp]
theorem folder_refresh (i : ℕ) (request : Request) :
    (k.refresh i request).drive.folder = k.drive.folder := by
  rw [refresh]
  split <;> rfl

@[simp]
theorem tokens_authorize (i : ℕ) (request : Request) :
    (k.authorize i request).drive.tokens = k.drive.tokens := by
  rw [authorize]
  split <;> rfl

@[simp]
theorem folder_authorize (i : ℕ) (request : Request) :
    (k.authorize i request).drive.folder = k.drive.folder := by
  rw [authorize]
  split <;> rfl

@[simp]
theorem tokens_send (i now : ℕ) (request : Request) :
    (k.send i now request).drive.tokens = k.drive.tokens := by
  rw [send]
  split_ifs <;> simp

@[simp]
theorem folder_send (i now : ℕ) (request : Request) :
    (k.send i now request).drive.folder = k.drive.folder := by
  rw [send]
  split_ifs <;> simp

end Kernel

/-- Both tokens are of the consent that the client pair is of. -/
def Tokens.Whole (t : Tokens) : Prop :=
  t.access.consent = t.consent ∧ t.refresh.consent = t.consent

/-- The folder was found with the consent that is held. -/
def Drive.FolderOf (d : Drive) : Prop :=
  ∀ t ∈ d.tokens, ∀ f ∈ d.folder, f.consent = t.consent

/-- Everything that is held is of one consent. -/
def Drive.OneConsent (d : Drive) : Prop :=
  (∀ t ∈ d.tokens, t.Whole) ∧ d.FolderOf

/-- The folder that the last answer of `drive_folder` leaves it with: the first one of all pages, or
the one that was created. -/
def foundBy (access : Bearer) (request : Request) (page : Page) : Option Folder :=
  match request.purpose with
  | .other => none
  | .list nameKey first =>
    if page.more then none
    else
      (first.or (page.ids.head?.map (·, access.consent))).map fun found =>
        ⟨nameKey, found.1, found.2⟩
  | .create nameKey => page.ids.head?.map fun id => ⟨nameKey, id, access.consent⟩

/-- The answer ends the search with a folder. -/
def Finds (access : Bearer) (request : Request) (answer : Except String HttpResponse)
    (found : Except String Page) (folder : Folder) : Prop :=
  (∃ response, answer = .ok response ∧ response.status ≠ 401) ∧
    ∃ page, found = .ok page ∧ foundBy access request page = some folder

/-- The condition on a step. New tokens come to the consent that they were asked for, and a folder
to the one that its page was asked with, or to none. -/
def Lands (lib : Library) (k : Kernel) : Label → Prop
  | .answer i answer _ found =>
    match k.tasks[i]? with
    | some (.refreshing sent _) =>
      (∃ issued, tokenRequest lib answer = .ok issued) →
        ∀ t ∈ k.drive.tokens, t.consent = sent.consent
    | some (.requesting access request) =>
      ∀ folder, Finds access request answer found folder →
        ∀ t ∈ k.drive.tokens, t.consent = folder.consent
    | _ => True
  | _ => True

namespace Kernel

variable {lib : Library} {k : Kernel}

theorem folderOf_congr {d d' : Drive} (h : d.FolderOf) (htokens : d'.tokens = d.tokens)
    (hfolder : d'.folder = d.folder) : d'.FolderOf := by
  rw [Drive.FolderOf, htokens, hfolder]
  exact h

theorem folderOf_of_none {d : Drive} (h : d.tokens = none ∨ d.folder = none) : d.FolderOf := by
  intro t ht f hf
  obtain hnone | hnone := h
  · simp [hnone] at ht
  · simp [hnone] at hf

/-- An answer leaves the tokens alone, and the folder too unless it finds one. -/
theorem drive_answered (i : ℕ) (access : Bearer) (request : Request)
    (answer : Except String HttpResponse) (now : ℕ) (found : Except String Page) :
    (k.answered i access request answer now found).drive.tokens = k.drive.tokens ∧
      ((k.answered i access request answer now found).drive.folder = k.drive.folder ∧
          (∀ folder, ¬ Finds access request answer found folder) ∨
        ∃ folder, Finds access request answer found folder ∧
          (k.answered i access request answer now found).drive.folder = some folder) := by
  simp only [answered]
  split
  · exact ⟨rfl, .inl ⟨rfl, by simp [Finds]⟩⟩
  next response =>
    split_ifs with hstatus
    · exact ⟨rfl, .inl ⟨rfl, by simp [Finds, hstatus]⟩⟩
    · exact ⟨by simp, .inl ⟨by simp, by simp [Finds, hstatus]⟩⟩
    · have hfinds {page : Page} {folder : Folder}
          (h : Finds access request (.ok response) (.ok page) folder) :
          foundBy access request page = some folder := by
        obtain ⟨-, page', heq, hfound⟩ := h
        cases heq
        exact hfound
      have hfind {page : Page} {folder : Folder} (h : foundBy access request page = some folder) :
          Finds access request (.ok response) (.ok page) folder :=
        ⟨⟨response, rfl, hstatus⟩, page, rfl, h⟩
      split
      · exact ⟨rfl, .inl ⟨rfl, by simp [Finds]⟩⟩
      next page hpurpose =>
        refine ⟨rfl, .inl ⟨rfl, fun folder h => ?_⟩⟩
        simpa [foundBy, hpurpose] using hfinds h
      next page nameKey first hpurpose =>
        split_ifs with hmore
        · refine ⟨by simp, .inl ⟨by simp, fun folder h => ?_⟩⟩
          simpa [foundBy, hpurpose, hmore] using hfinds h
        · split
          next id consent hfirst =>
            exact ⟨rfl, .inr ⟨_, hfind (by simp [foundBy, hpurpose, hmore, hfirst]), rfl⟩⟩
          next hfirst =>
            refine ⟨by simp, .inl ⟨by simp, fun folder h => ?_⟩⟩
            simpa [foundBy, hpurpose, hmore, hfirst] using hfinds h
      next page nameKey hpurpose =>
        split
        next id hid => exact ⟨rfl, .inr ⟨_, hfind (by simp [foundBy, hpurpose, hid]), rfl⟩⟩
        next hid =>
          refine ⟨rfl, .inl ⟨rfl, fun folder h => ?_⟩⟩
          simpa [foundBy, hpurpose, hid] using hfinds h

/-- A step that meets the condition leaves the folder with its consent. -/
theorem folderOf_step (h : k.drive.FolderOf) {l : Label} (hlands : Lands lib k l) :
    (k.step lib l).drive.FolderOf := by
  cases l with
  | start clientId clientSecret verifier state =>
    simp only [step]
    split_ifs
    · exact h
    · exact folderOf_congr h rfl rfl
  | complete state =>
    simp only [step]
    split
    · split_ifs
      · exact folderOf_congr h rfl rfl
      · exact h
    · exact h
  | disconnect =>
    simp only [step]
    split_ifs
    · exact folderOf_of_none (.inl rfl)
    · exact h
  | syncNow =>
    simp only [step]
    split_ifs
    · exact folderOf_congr h rfl rfl
    · exact h
  | request what folder now =>
    exact folderOf_congr h (by simp [step]) (by simp [step])
  | answer i answer now found =>
    simp only [step]
    split
    · rw [complete]
      split
      · exact h
      · split
        · exact h
        · exact folderOf_of_none (.inr rfl)
    · rw [renew]
      split
      · exact folderOf_congr h rfl rfl
      · exact folderOf_congr h rfl rfl
      · -- the consent of the tokens that are held stays
        intro t ht f hf
        obtain ⟨held, hheld, rfl⟩ := Option.map_eq_some_iff.1 ht
        exact h held hheld f hf
    next access request htask =>
      simp only [Lands, htask] at hlands
      obtain ⟨htokens, ⟨hfolder, -⟩ | ⟨folder, hfinds, hfolder⟩⟩ :=
        k.drive_answered i access request answer now found
      · exact folderOf_congr h htokens hfolder
      · -- the folder is the one that this search has found
        intro t ht f hf
        rw [htokens] at ht
        rw [hfolder] at hf
        obtain rfl := Option.some.inj hf
        exact (hlands _ hfinds t ht).symm
    · exact h
  | written i failed =>
    simp only [step]
    split
    · exact h
    · exact folderOf_congr h (by simp) (by simp)
    · exact folderOf_congr h rfl rfl
    · exact h
  | reject id => exact folderOf_congr h rfl rfl
  | pulled now => exact folderOf_congr h rfl rfl
  | pushed now => exact folderOf_congr h rfl rfl
  | passed => exact folderOf_congr h rfl rfl
  | checkpoint => exact h
  | erase => exact folderOf_of_none (.inl rfl)
  | restart =>
    refine folderOf_of_none (.inr ?_)
    show (Drive.restore k.saved).folder = none
    cases k.saved <;> rfl

/-- A step that meets the condition leaves both tokens with their consent. -/
theorem whole_step (h : k.Every Tokens.Whole) {l : Label} (hlands : Lands lib k l) :
    (k.step lib l).Every Tokens.Whole := by
  refine h.step l (fun i answer now found n c issued refresh _ _ => ⟨rfl, rfl⟩) ?_
  -- only a refresh mixes the two tokens: the new access token comes of what was sent
  rintro i answer now found sent request issued held rfl htask hissued hheld
  simp only [Lands, htask] at hlands
  have hconsent : held.consent = sent.consent := hlands ⟨issued, hissued⟩ held hheld
  have hsent : sent.Whole := h.sent sent request (List.mem_of_getElem? htask)
  have hnew : sent.refresh.consent = held.consent := hsent.2.trans hconsent.symm
  refine ⟨hnew, ?_⟩
  show (issued.refreshToken.elim held.refresh _).consent = held.consent
  cases issued.refreshToken with
  | none => exact (h.held held hheld).2
  | some rotated => exact hnew

/-- A step that does not meet the condition mixes two consents. -/
theorem lands_of_oneConsent (h : k.Every Tokens.Whole) {l : Label}
    (hone : (k.step lib l).drive.OneConsent) : Lands lib k l := by
  cases l with
  | answer i answer now found =>
    simp only [Lands]
    split
    next sent request htask =>
      rintro ⟨issued, hissued⟩ t ht
      have hsent : sent.Whole := h.sent sent request (List.mem_of_getElem? htask)
      have hheld : t.refreshed sent issued now ∈
          (k.step lib (.answer i answer now found)).drive.tokens := by
        simp only [step, htask, renew, hissued]
        exact Option.mem_map_of_mem _ ht
      exact (hone.1 _ hheld).1.symm.trans hsent.2
    next access request htask =>
      intro folder hfinds t ht
      obtain ⟨htokens, ⟨-, hnone⟩ | ⟨folder', hfinds', hfolder⟩⟩ :=
        k.drive_answered i access request answer now found
      · exact absurd hfinds (hnone folder)
      · obtain ⟨-, page, rfl, hpage⟩ := hfinds
        obtain ⟨-, page', heq, hpage'⟩ := hfinds'
        cases heq
        obtain rfl : folder = folder' := Option.some.inj (hpage.symm.trans hpage')
        have hstep : (k.step lib (.answer i answer now (.ok page))).drive =
            (k.answered i access request answer now (.ok page)).drive := by
          simp only [step, htask]
        rw [hstep] at hone
        exact (hone.2 t (htokens ▸ ht) folder hfolder).symm
    · trivial
  | _ => trivial

end Kernel

/-- The tokens that are held and the folder that is known are of one consent throughout a run
exactly when no refresh answers while the tokens of another consent are held, and no folder is
cached while the tokens of another consent are held than the one its page was asked under. -/
theorem one_consent_iff (lib : Library) (ls : List Label) :
    Throughout (Kernel.step lib) (fun k => k.drive.OneConsent) ({} : Kernel) ls ↔
      Meets (Kernel.step lib) (Lands lib) ({} : Kernel) ls := by
  -- the invariant carries the tokens of requests under way and of the checkpoint as well
  have hInv (k : Kernel) (h : k.Every Tokens.Whole ∧ k.drive.FolderOf) : k.drive.OneConsent :=
    ⟨h.1.held, h.2⟩
  refine throughout_iff_meets_of_keeps hInv ?_ ?_ ls ?_
  · rintro k l ⟨hwhole, hfolder⟩ hlands
    exact ⟨Kernel.whole_step hwhole hlands, Kernel.folderOf_step hfolder hlands⟩
  · rintro k l ⟨hwhole, -⟩ hone
    exact Kernel.lands_of_oneConsent hwhole hone
  · exact ⟨Kernel.every_start, Kernel.folderOf_of_none (.inl rfl)⟩

/-! ## The ceremonies -/

/-- The exchanges that were asked for, by number. -/
def Kernel.exchangedNumbers (k : Kernel) : List ℕ :=
  k.exchanges.map Prod.fst

/-- The tokens come of an exchange, and the client pair is that of its ceremony. -/
def Tokens.Known (ceremonies : List Ceremony) (numbers : List ℕ) (t : Tokens) : Prop :=
  t.access.consent ∈ numbers ∧ t.refresh.consent ∈ numbers ∧ t.consent ∈ numbers ∧
    ∃ c, ceremonies[t.consent]? = some c ∧ t.clientId = c.clientId ∧
      t.clientSecret = c.clientSecret

/-- What is known of the ceremonies: the one that is waited for is the last that was started; each
is exchanged once at most, in the order they were started in. -/
structure Kernel.Ledger (k : Kernel) : Prop where
  pending : ∀ n c, k.drive.pending = some (n, c) →
    k.ceremonies[n]? = some c ∧ n + 1 = k.ceremonies.length ∧ ∀ m ∈ k.exchangedNumbers, m < n
  exchanges : ∀ e ∈ k.exchanges, ∃ c, k.ceremonies[e.1]? = some c ∧ e.2.1 = c.verifier ∧
    e.2.2 = c.state
  sorted : k.exchangedNumbers.Pairwise (· < ·)
  exchanging : ∀ n c, .exchanging n c ∈ k.tasks →
    k.ceremonies[n]? = some c ∧ n ∈ k.exchangedNumbers

theorem Tokens.Known.mono {ceremonies more : List Ceremony} {numbers numbers' : List ℕ} {t : Tokens}
    (h : t.Known ceremonies numbers) (hmem : ∀ n ∈ numbers, n ∈ numbers') :
    t.Known (ceremonies ++ more) numbers' := by
  obtain ⟨haccess, hrefresh, hconsent, c, hc, hpair⟩ := h
  refine ⟨hmem _ haccess, hmem _ hrefresh, hmem _ hconsent, c, ?_, hpair⟩
  rw [List.getElem?_append_left (List.getElem?_eq_some_iff.1 hc).1, hc]

namespace Kernel

variable {lib : Library} {k : Kernel}

theorem Every.mono {Q Q' : Tokens → Prop} (h : k.Every Q) (hQ : ∀ t, Q t → Q' t) : k.Every Q' :=
  ⟨fun t ht => hQ t (h.held t ht), fun s hs t ht => hQ t (h.saved s hs t ht),
    fun t request hmem => hQ t (h.sent t request hmem)⟩

/-- What the ledger is about is as it was, or less is waited for. -/
structure Idle (k k' : Kernel) : Prop where
  pending : k'.drive.pending = k.drive.pending ∨ k'.drive.pending = none
  ceremonies : k'.ceremonies = k.ceremonies
  exchanges : k'.exchanges = k.exchanges
  tasks : ∀ n c, .exchanging n c ∈ k'.tasks → .exchanging n c ∈ k.tasks

theorem idle_refl (k : Kernel) : k.Idle k :=
  ⟨.inl rfl, rfl, rfl, fun _ _ => id⟩

/-- One task goes on to something else than an exchange. -/
theorem idle_set {drive : Drive} {i : ℕ} {task : Task} (hne : ∀ n c, task ≠ .exchanging n c)
    (hpending : drive.pending = k.drive.pending) :
    k.Idle { k with drive, tasks := k.tasks.set i task } := by
  refine ⟨.inl hpending, rfl, rfl, fun n c hmem => ?_⟩
  obtain hmem | heq := mem_set hmem
  · exact hmem
  · exact absurd heq.symm (hne n c)

theorem idle_goto {i : ℕ} {task : Task} (hne : ∀ n c, task ≠ .exchanging n c) :
    k.Idle (k.goto i task) :=
  idle_set hne rfl

theorem idle_fail (i : ℕ) (trouble : Trouble) : k.Idle (k.fail i trouble) :=
  idle_set (by simp) rfl

theorem idle_refresh (i : ℕ) (request : Request) : k.Idle (k.refresh i request) := by
  rw [refresh]
  split
  · exact idle_fail _ _
  · exact idle_goto (by simp)

theorem idle_authorize (i : ℕ) (request : Request) : k.Idle (k.authorize i request) := by
  rw [authorize]
  split
  · exact idle_fail _ _
  · exact idle_goto (by simp)

theorem idle_send (i now : ℕ) (request : Request) : k.Idle (k.send i now request) := by
  rw [send]
  split_ifs
  · exact idle_refresh i request
  · exact idle_authorize i request

/-- Only the store's half changes. -/
theorem idle_drive {drive : Drive}
    (hpending : drive.pending = k.drive.pending ∨ drive.pending = none) :
    k.Idle { k with drive } :=
  ⟨hpending, rfl, rfl, fun _ _ => id⟩

theorem Idle.trans {k' k'' : Kernel} (h : k.Idle k') (h' : k'.Idle k'') : k.Idle k'' where
  pending := by
    obtain heq | hnone := h'.pending
    · rw [heq]
      exact h.pending
    · exact .inr hnone
  ceremonies := h'.ceremonies.trans h.ceremonies
  exchanges := h'.exchanges.trans h.exchanges
  tasks n c hmem := h.tasks n c (h'.tasks n c hmem)

theorem idle_answered (i : ℕ) (access : Bearer) (request : Request)
    (answer : Except String HttpResponse) (now : ℕ) (found : Except String Page) :
    k.Idle (k.answered i access request answer now found) := by
  simp only [answered]
  split
  · exact idle_fail _ _
  · split_ifs
    · exact idle_fail _ _
    · exact idle_refresh _ _
    · split
      · exact idle_fail _ _
      · exact idle_goto (by simp)
      · split_ifs
        · exact idle_send _ _ _
        · split
          · exact idle_set (by simp) rfl
          · exact idle_send _ _ _
      · split
        · exact idle_set (by simp) rfl
        · exact idle_fail _ _

theorem idle_answer (i : ℕ) (answer : Except String HttpResponse) (now : ℕ)
    (found : Except String Page) : k.Idle (k.step lib (.answer i answer now found)) := by
  simp only [step]
  split
  · rw [complete]
    split
    · exact idle_goto (by simp)
    · split
      · exact idle_goto (by simp)
      · exact idle_set (by simp) rfl
  · rw [renew]
    split
    · exact idle_fail _ _
    · exact idle_fail _ _
    · exact idle_set (by simp) rfl
  · exact idle_answered _ _ _ _ _ _
  · exact idle_refl k

/-- What a step does to the ceremonies: one is started, or the one that is waited for is exchanged,
or they stay. -/
theorem step_ledger (lib : Library) (k : Kernel) (l : Label) :
    (∃ c, k.step lib l = { k with
        drive.pending := some (k.ceremonies.length, c), ceremonies := k.ceremonies ++ [c] }) ∨
      (∃ n c, k.drive.pending = some (n, c) ∧ k.step lib l = { k with
        drive.pending := none
        tasks := k.tasks ++ [.exchanging n c]
        exchanges := k.exchanges ++ [(n, c.verifier, c.state)] }) ∨
      k.Idle (k.step lib l) := by
  cases l with
  | start clientId clientSecret verifier state =>
    simp only [step]
    split_ifs
    · exact .inr (.inr (idle_refl k))
    · exact .inl ⟨_, rfl⟩
  | complete state =>
    simp only [step]
    split
    next n c _ hpending =>
      split_ifs with hstate
      · subst hstate
        exact .inr (.inl ⟨n, c, hpending, rfl⟩)
      · exact .inr (.inr (idle_refl k))
    · exact .inr (.inr (idle_refl k))
  | disconnect =>
    simp only [step]
    split_ifs
    · exact .inr (.inr (idle_drive (.inr rfl)))
    · exact .inr (.inr (idle_refl k))
  | syncNow =>
    simp only [step]
    split_ifs
    · exact .inr (.inr (idle_drive (.inl rfl)))
    · exact .inr (.inr (idle_refl k))
  | request what folder now =>
    have hasked : k.Idle { k with tasks := k.tasks ++ [Task.done] } := by
      refine ⟨.inl rfl, rfl, rfl, fun n c hmem => ?_⟩
      simpa using hmem
    exact .inr (.inr (hasked.trans (idle_send _ _ _)))
  | answer i answer now found => exact .inr (.inr (idle_answer i answer now found))
  | written i failed =>
    refine .inr (.inr ?_)
    simp only [step]
    split
    · exact idle_goto (by simp)
    · exact idle_authorize _ _
    · exact idle_fail _ _
    · exact idle_refl k
  | reject id => exact .inr (.inr (idle_drive (.inl rfl)))
  | pulled now => exact .inr (.inr (idle_drive (.inl rfl)))
  | pushed now => exact .inr (.inr (idle_drive (.inl rfl)))
  | passed => exact .inr (.inr (idle_drive (.inl rfl)))
  | checkpoint => exact .inr (.inr ⟨.inl rfl, rfl, rfl, fun _ _ => id⟩)
  | erase => exact .inr (.inr ⟨.inr rfl, rfl, rfl, fun _ _ => id⟩)
  | restart =>
    refine .inr (.inr ⟨.inr ?_, rfl, rfl, by simp [step]⟩)
    show (Drive.restore k.saved).pending = none
    cases k.saved <;> rfl

/-- No ceremony is exchanged after a later one was started, and none twice. -/
theorem ledger_step (l : Label) (h : k.Ledger) : (k.step lib l).Ledger := by
  have hbound : ∀ m ∈ k.exchangedNumbers, m < k.ceremonies.length := by
    intro m hm
    obtain ⟨e, he, rfl⟩ := List.mem_map.1 hm
    obtain ⟨c, hc, -⟩ := h.exchanges e he
    exact (List.getElem?_eq_some_iff.1 hc).1
  have hkeep {n : ℕ} {c : Ceremony} (more : List Ceremony) (hc : k.ceremonies[n]? = some c) :
      (k.ceremonies ++ more)[n]? = some c := by
    rw [List.getElem?_append_left (List.getElem?_eq_some_iff.1 hc).1, hc]
  obtain ⟨c, heq⟩ | ⟨n, c, hpending, heq⟩ | hidle := step_ledger lib k l
  · rw [heq]
    refine ⟨?_, fun e he => ?_, h.sorted, fun n c' hmem => ?_⟩
    · rintro n c' ⟨⟩
      exact ⟨List.getElem?_concat_length, by simp, hbound⟩
    · obtain ⟨c', hc, hrest⟩ := h.exchanges e he
      exact ⟨c', hkeep _ hc, hrest⟩
    · exact (h.exchanging n c' hmem).imp_left (hkeep _)
  · obtain ⟨hc, -, hlast⟩ := h.pending n c hpending
    have hnumbers : (k.step lib l).exchangedNumbers = k.exchangedNumbers ++ [n] := by
      rw [heq]
      simp [exchangedNumbers]
    refine ⟨by simp [heq], fun e he => ?_, ?_, fun n' c' hmem => ?_⟩
    · rw [heq] at he ⊢
      obtain he | he := List.mem_append.1 he
      · exact h.exchanges e he
      · rw [List.mem_singleton.1 he]
        exact ⟨c, hc, rfl, rfl⟩
    · rw [hnumbers, List.pairwise_append]
      refine ⟨h.sorted, List.pairwise_singleton _ _, fun m hm n' hn' => ?_⟩
      rw [List.mem_singleton.1 hn']
      exact hlast m hm
    · rw [hnumbers]
      rw [heq] at hmem ⊢
      obtain hmem | hmem := List.mem_append.1 hmem
      · exact (h.exchanging n' c' hmem).imp_right (List.mem_append_left _)
      · cases List.mem_singleton.1 hmem
        exact ⟨hc, List.mem_append_right _ (List.mem_singleton_self _)⟩
  · have hnumbers : (k.step lib l).exchangedNumbers = k.exchangedNumbers := by
      rw [exchangedNumbers, hidle.exchanges, exchangedNumbers]
    refine ⟨fun n c hpend => ?_, ?_, hnumbers ▸ h.sorted, fun n c hmem => ?_⟩
    · rw [hidle.ceremonies, hnumbers]
      obtain hsame | hnone := hidle.pending
      · exact h.pending n c (hsame ▸ hpend)
      · rw [hnone] at hpend
        cases hpend
    · rw [hidle.ceremonies, hidle.exchanges]
      exact h.exchanges
    · rw [hidle.ceremonies, hnumbers]
      exact h.exchanging n c (hidle.tasks n c hmem)

/-- The tokens that there are come of exchanges. -/
def Sourced (k : Kernel) : Prop :=
  k.Every (Tokens.Known k.ceremonies k.exchangedNumbers)

theorem sourced_step (l : Label) (hledger : k.Ledger) (h : k.Sourced) :
    (k.step lib l).Sourced := by
  have hstep : (k.step lib l).Every (Tokens.Known k.ceremonies k.exchangedNumbers) := by
    refine Every.step h l ?_ ?_
    · rintro i answer now found n c issued refresh rfl htask
      obtain ⟨hc, hn⟩ := hledger.exchanging n c (List.mem_of_getElem? htask)
      exact ⟨hn, hn, hn, c, hc, rfl, rfl⟩
    · rintro i answer now found sent request issued held rfl htask - hheld
      obtain ⟨-, hrefresh, hrest⟩ := h.held held hheld
      have hsent := (h.sent sent request (List.mem_of_getElem? htask)).2.1
      refine ⟨hsent, ?_, hrest⟩
      show (issued.refreshToken.elim held.refresh _).consent ∈ k.exchangedNumbers
      cases issued.refreshToken with
      | none => exact hrefresh
      | some rotated => exact hsent
  have hmore : ∃ more, (k.step lib l).ceremonies = k.ceremonies ++ more ∧
      ∀ n ∈ k.exchangedNumbers, n ∈ (k.step lib l).exchangedNumbers := by
    obtain ⟨c, heq⟩ | ⟨n, c, -, heq⟩ | hidle := step_ledger lib k l
    · rw [heq]
      exact ⟨[c], rfl, fun _ => id⟩
    · rw [heq]
      refine ⟨[], (List.append_nil _).symm, fun m hm => ?_⟩
      simp only [exchangedNumbers, List.map_append]
      exact List.mem_append_left _ hm
    · refine ⟨[], by rw [hidle.ceremonies, List.append_nil], fun m hm => ?_⟩
      rwa [exchangedNumbers, hidle.exchanges]
  obtain ⟨more, hceremonies, hnumbers⟩ := hmore
  rw [Sourced, hceremonies]
  exact hstep.mono fun t ht => ht.mono hnumbers

/-- What is exchanged after a state: the ceremony that was waited for then, or a later one. -/
structure Since (k k' : Kernel) : Prop where
  grows : k.ceremonies.length ≤ k'.ceremonies.length
  pending : ∀ n c, k'.drive.pending = some (n, c) →
    k.drive.pending = some (n, c) ∨ k.ceremonies.length ≤ n
  exchanges : ∀ e ∈ k'.exchanges, e ∈ k.exchanges ∨ (∃ c, k.drive.pending = some (e.1, c)) ∨
    k.ceremonies.length ≤ e.1

theorem since_step {k' : Kernel} (l : Label) (h : k.Since k') : k.Since (k'.step lib l) := by
  obtain ⟨c, heq⟩ | ⟨n, c, hpending, heq⟩ | hidle := step_ledger lib k' l
  · rw [heq]
    refine ⟨Nat.le_trans h.grows (by simp), ?_, h.exchanges⟩
    rintro n c' ⟨⟩
    exact .inr h.grows
  · rw [heq]
    refine ⟨h.grows, by simp, fun e he => ?_⟩
    obtain he | he := List.mem_append.1 he
    · exact h.exchanges e he
    · rw [List.mem_singleton.1 he]
      exact .inr ((h.pending n c hpending).imp_left fun hpend => ⟨c, hpend⟩)
  · refine ⟨hidle.ceremonies ▸ h.grows, fun n c hpend => ?_, hidle.exchanges ▸ h.exchanges⟩
    obtain hsame | hnone := hidle.pending
    · exact h.pending n c (hsame ▸ hpend)
    · rw [hnone] at hpend
      cases hpend

/-- The ceremony that is waited for is replaced, given up or lost. -/
def Forgets (k : Kernel) : Label → Prop
  | .start clientId _ _ _ => k.isOpen ∧ ¬ blank clientId
  | .disconnect => k.isOpen
  | .erase | .restart => True
  | _ => False

/-- It is waited for no more, and nothing is exchanged for it. -/
theorem pending_of_forgets (lib : Library) {l : Label} (hl : k.Forgets l) :
    (∀ n c, (k.step lib l).drive.pending = some (n, c) → n = k.ceremonies.length) ∧
      (k.step lib l).exchanges = k.exchanges := by
  cases l with
  | start clientId clientSecret verifier state =>
    have hgood : ¬ (¬ k.isOpen ∨ blank clientId) := by simpa [Forgets] using hl
    simp only [step, if_neg hgood]
    refine ⟨?_, trivial⟩
    rintro n c ⟨⟩
    rfl
  | disconnect =>
    have hopen : k.isOpen := hl
    simp [step, hopen]
  | erase => simp [step]
  | restart =>
    have hnone : (Drive.restore k.saved).pending = none := by cases k.saved <;> rfl
    simp [step, hnone]
  | _ => exact absurd hl id

/-- A ceremony that is forgotten is never exchanged. -/
theorem not_exchanged_of_forgets (hk : k.Ledger) {n : ℕ} {c : Ceremony}
    (hpending : k.drive.pending = some (n, c)) {l : Label} (hl : k.Forgets l) (ms : List Label) :
    n ∉ (run (step lib) (k.step lib l) ms).exchangedNumbers := by
  obtain ⟨-, hlength, hbefore⟩ := hk.pending n c hpending
  obtain ⟨hother, hexchanges⟩ := pending_of_forgets lib hl
  have hgrows : k.ceremonies.length ≤ (k.step lib l).ceremonies.length := by
    obtain ⟨c, heq⟩ | ⟨n, c, -, heq⟩ | hidle := step_ledger lib k l
    · simp [heq]
    · simp [heq]
    · exact hidle.ceremonies ▸ Nat.le_refl _
  have hsince : (k.step lib l).Since (run (step lib) (k.step lib l) ms) :=
    run_preserves (fun k' l h => since_step l h)
      ⟨Nat.le_refl _, fun _ _ => .inl, fun _ => .inl⟩ ms
  intro hmem
  obtain ⟨e, he, rfl⟩ := List.mem_map.1 hmem
  obtain hold | ⟨c', hpend⟩ | hnew := hsince.exchanges e he
  · rw [hexchanges] at hold
    exact Nat.lt_irrefl _ (hbefore e.1 (List.mem_map_of_mem hold))
  · have heq := hother e.1 c' hpend
    omega
  · omega

end Kernel

/-- In every run: a verifier is sent once at most, with the code that came back with the state of
its ceremony; a ceremony that was replaced, disconnected from or lost is never exchanged; and
tokens held, saved or sent come of such exchanges, with the client pair of their ceremony. -/
theorem verifiers_once (lib : Library) (ls ms : List Label) :
    let k := run (Kernel.step lib) ({} : Kernel) ls
    k.exchangedNumbers.Nodup ∧
      (∀ e ∈ k.exchanges, ∃ c, k.ceremonies[e.1]? = some c ∧ e.2.1 = c.verifier ∧ e.2.2 = c.state) ∧
      (∀ e ∈ (run (Kernel.step lib) ({} : Kernel) (ls ++ ms)).exchanges,
        e ∈ k.exchanges ∨ (∃ c, k.drive.pending = some (e.1, c)) ∨ k.ceremonies.length ≤ e.1) ∧
      (∀ n c l, k.drive.pending = some (n, c) → k.Forgets l →
        n ∉ (run (Kernel.step lib) (k.step lib l) ms).exchangedNumbers) ∧
      k.Every (Tokens.Known k.ceremonies k.exchangedNumbers) := by
  intro k
  have hstep (k : Kernel) (l : Label) (h : k.Ledger ∧ k.Sourced) :
      (k.step lib l).Ledger ∧ (k.step lib l).Sourced :=
    ⟨Kernel.ledger_step l h.1, Kernel.sourced_step l h.1 h.2⟩
  have hstart : ({} : Kernel).Ledger ∧ ({} : Kernel).Sourced :=
    ⟨⟨by simp, by simp, List.Pairwise.nil, by simp⟩, Kernel.every_start⟩
  have hk : k.Ledger ∧ k.Sourced := run_preserves hstep hstart ls
  have hsince : k.Since (run (Kernel.step lib) ({} : Kernel) (ls ++ ms)) := by
    rw [run_append]
    exact run_preserves (fun k' l h => Kernel.since_step l h)
      ⟨Nat.le_refl _, fun _ _ => .inl, fun _ => .inl⟩ ms
  exact ⟨hk.1.sorted.imp Nat.ne_of_lt, hk.1.exchanges, hsince.exchanges,
    fun n c l hpending hl => Kernel.not_exchanged_of_forgets hk.1 hpending hl ms, hk.2⟩

end Polyvisor.Consent
