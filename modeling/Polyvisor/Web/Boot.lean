import Polyvisor.Web.Worker

/-!
# Boot and its failure

The device of a worker is that of the first hello. Its kernel is booted once, under the lock; only
where that boot was called and failed may a tab have the device removed, and no tab is left without
word of what became of it.

## Main results

* `booted_or_erased`: the kernel is booted at most once, with what the first hello said and under
  the lock, and nothing is removed but that device, after its boot has failed.
* `tabs_told`: every tab that said hello has been told what became of the boot, and only that; what
  it asks to have erased is answered.
-/

namespace Polyvisor.SharedWorker

open Transition

variable {E : Type}

/-- What the boot of the device has come to. -/
structure Core where
  hello : Option Hello
  deviceLock : Bool
  ready : Ready
  kernelBootStarted : Bool
  bootState : BootState
  bootFailure : Option String
  failedDeviceErase : Erase
  boots : List Hello
  removed : List String

def Worker.core (w : Worker E) : Core :=
  { hello := w.hello, deviceLock := w.deviceLock, ready := w.ready,
    kernelBootStarted := w.kernelBootStarted, bootState := w.bootState,
    bootFailure := w.bootFailure, failedDeviceErase := w.failedDeviceErase, boots := w.boots,
    removed := w.removed }

/-- Where `ready` stands, and what the worker has by then. -/
inductive Core.Stage (c : Core) : Prop where
  | helloed (ready : c.ready = .helloed) (hello : c.hello = none)
      (started : c.kernelBootStarted = false) (state : c.bootState = .pending)
      (failure : c.bootFailure = none)
  | locking (ready : c.ready = .locking) (hello : c.hello.isSome)
      (started : c.kernelBootStarted = false) (state : c.bootState = .pending)
      (failure : c.bootFailure = none)
  | loading (ready : c.ready = .loading) (hello : c.hello.isSome) (lock : c.deviceLock)
      (started : c.kernelBootStarted = false) (state : c.bootState = .pending)
      (failure : c.bootFailure = none)
  | booting (ready : c.ready = .booting) (hello : c.hello.isSome) (lock : c.deviceLock)
      (started : c.kernelBootStarted) (state : c.bootState = .pending)
      (failure : c.bootFailure = none)
  | live (ready : c.ready = .resolved) (hello : c.hello.isSome) (lock : c.deviceLock)
      (started : c.kernelBootStarted) (state : c.bootState = .live)
      (failure : c.bootFailure = none)
  /-- There is no kernel to have failed. -/
  | unstarted (ready : c.ready = .rejected) (hello : c.hello.isSome)
      (started : c.kernelBootStarted = false) (state : c.bootState = .pending)
      (failure : c.bootFailure.isSome)
  | failed (ready : c.ready = .rejected) (hello : c.hello.isSome) (lock : c.deviceLock)
      (started : c.kernelBootStarted) (state : c.bootState = .failed ∨ c.bootState = .erased)
      (failure : c.bootFailure.isSome)

/-- What is true of the boot in every state. -/
structure Core.Lawful (c : Core) : Prop where
  stage : c.Stage
  boots : c.boots = if c.kernelBootStarted then c.hello.toList else []
  erasing : c.failedDeviceErase = .removing ∨ c.failedDeviceErase = .deleting →
    c.bootState = .failed
  erased : c.failedDeviceErase = .done ↔ c.bootState = .erased
  removed : ∀ device ∈ c.removed, (∃ hello, c.hello = some hello ∧ hello.device = device) ∧
    (c.bootState = .failed ∨ c.bootState = .erased)

/-- What a tab may be told of the boot. -/
def Post.Allowed (c : Core) (isOpen : Bool) : Post → Prop
  | .booted => c.bootState = .live
  | .fatal message canErase =>
    c.bootFailure = some message ∧ canErase = c.kernelBootStarted ∨
      -- a tab that named another device, whose port is closed by now
      isOpen = false ∧ canErase = false ∧
        ∃ hello theirs, c.hello = some hello ∧ hello.device ≠ theirs ∧
        message = Worker.mismatch hello.device theirs
  | .failedDeviceErased => c.bootState = .erased
  | .eraseResult _ error => error = none → c.bootState = .erased
  | _ => True

/-- The request to erase the device that is answered. -/
def Post.result : Post → Option ℤ
  | .eraseResult request _ => some request
  | _ => none

/-- The requests to erase the device that the tab has an answer to. -/
def Tab.results (tab : Tab E) : List ℤ :=
  tab.posted.filterMap Post.result

/-- A tab was told nothing but what is so, and was told what became of the boot if it said hello. -/
structure Tab.Told (c : Core) (tab : Tab E) : Prop where
  open_of_connected : tab.connected → tab.isOpen
  connected : tab.helloed → tab.connected
  /-- Nothing else was said. -/
  allowed : ∀ m ∈ tab.posted, m.Allowed c tab.isOpen
  booted : c.bootState = .live → tab.isOpen → .booted ∈ tab.posted
  /-- It may ask for the erase iff the kernel's boot was called. -/
  failed : tab.helloed → ∀ message ∈ c.bootFailure,
    .fatal message c.kernelBootStarted ∈ tab.posted ∨ .failedDeviceErased ∈ tab.posted
  erased : tab.helloed → c.bootState = .erased → .failedDeviceErased ∈ tab.posted

namespace Worker

/-- The requests of a tab that wait for the erase. -/
def pending (w : Worker E) (t : ℕ) : List ℤ :=
  (w.eraseRequests.filter (·.1 = t)).map Prod.snd

/-- What a tab asks for with an event, once it has said hello. -/
def asks (w : Worker E) (t : ℕ) : Event E → List ℤ
  | .message t' (.eraseFailedDevice (some request)) =>
    if t' = t ∧ w.hears t ∧ w.isHelloed t then [request] else []
  | _ => []

/-- The requests to erase the device that a tab makes in the course of a run. -/
def asked (t : ℕ) : Worker E → List (Event E) → List ℤ
  | _, [] => []
  | w, ev :: ls => w.asks t ev ++ asked t (w.step ev) ls

/-- Everything that is said of the boot is so. -/
structure Sound (w : Worker E) : Prop where
  core : w.core.Lawful
  tabs : ∀ tab ∈ w.tabs, tab.Told w.core
  /-- A request is answered with the erase it waits for. -/
  requests : w.failedDeviceErase = .idle ∨ w.failedDeviceErase = .done → w.eraseRequests = []
  asking : ∀ request ∈ w.eraseRequests, request.1 < w.tabs.length

/-- Every request that a tab made is answered or waits, in its order, while its port is open. -/
structure Answered (w : Worker E) (t : ℕ) (asked : List ℤ) : Prop where
  known : ∀ tab, w.tabs[t]? = some tab → tab.isOpen → tab.results ++ w.pending t = asked
  unknown : w.tabs.length ≤ t → asked = []

end Worker

/-! ## What tabs are told -/

theorem Tab.mem_post {tab : Tab E} {m m' : Post} :
    m' ∈ (tab.post m).posted ↔ m' ∈ tab.posted ∨ tab.isOpen ∧ m' = m := by
  unfold Tab.post
  split_ifs with h <;> simp [h]

@[simp]
theorem Tab.post_isOpen (tab : Tab E) (m : Post) : (tab.post m).isOpen = tab.isOpen := by
  unfold Tab.post
  split_ifs <;> rfl

@[simp]
theorem Tab.post_connected (tab : Tab E) (m : Post) : (tab.post m).connected = tab.connected := by
  unfold Tab.post
  split_ifs <;> rfl

@[simp]
theorem Tab.post_helloed (tab : Tab E) (m : Post) : (tab.post m).helloed = tab.helloed := by
  unfold Tab.post
  split_ifs <;> rfl

theorem Tab.Told.post {c : Core} {tab : Tab E} (h : tab.Told c) {m : Post}
    (hm : m.Allowed c tab.isOpen) : (tab.post m).Told c where
  open_of_connected := by simpa using h.open_of_connected
  connected := by simpa using h.connected
  allowed m' hm' := by
    rw [Tab.post_isOpen]
    obtain hm' | ⟨-, rfl⟩ := Tab.mem_post.1 hm'
    · exact h.allowed m' hm'
    · exact hm
  booted hlive hopen := Tab.mem_post.2 (.inl (h.booted hlive (by simpa using hopen)))
  failed hhelloed message hmessage :=
    (h.failed (by simpa using hhelloed) message hmessage).imp
      (fun hposted => Tab.mem_post.2 (.inl hposted)) (fun hposted => Tab.mem_post.2 (.inl hposted))
  erased hhelloed herased := Tab.mem_post.2 (.inl (h.erased (by simpa using hhelloed) herased))

theorem Tab.Told.backlog {c : Core} {tab : Tab E} (h : tab.Told c) (backlog : Backlog E) :
    Tab.Told c { tab with backlog } :=
  { h with }

theorem Tab.Told.leave {c : Core} {tab : Tab E} (h : tab.Told c) : tab.leave.Told c :=
  { h with
    open_of_connected := by simp [Tab.leave]
    connected := by simp [Tab.leave]
    failed := by simp [Tab.leave]
    erased := by simp [Tab.leave] }

theorem Tab.results_post {tab : Tab E} (hopen : tab.isOpen) (m : Post) :
    (tab.post m).results = tab.results ++ m.result.toList := by
  unfold Tab.post Tab.results
  rw [if_pos hopen, List.filterMap_append]
  cases h : m.result <;> simp [h]

/-- It was open if it is, and has no answer more. -/
def Tab.Mute (tab tab' : Tab E) : Prop :=
  tab'.isOpen → tab.isOpen ∧ tab'.results = tab.results

theorem Tab.Mute.refl (tab : Tab E) : tab.Mute tab :=
  fun hopen => ⟨hopen, rfl⟩

theorem Tab.Mute.trans {tab tab' tab'' : Tab E} (h : tab.Mute tab') (h' : tab'.Mute tab'') :
    tab.Mute tab'' := by
  intro hopen
  obtain ⟨hopen', hresults'⟩ := h' hopen
  obtain ⟨hopen, hresults⟩ := h hopen'
  exact ⟨hopen, hresults'.trans hresults⟩

theorem Tab.mute_post (tab : Tab E) {m : Post} (hm : m.result = none) : tab.Mute (tab.post m) := by
  intro hopen
  have hopen : tab.isOpen := by simpa using hopen
  exact ⟨hopen, by simp [Tab.results_post hopen, hm]⟩

theorem Tab.Mute.ite {tab tab' : Tab E} (h : tab.Mute tab') (c : Prop) [Decidable c] :
    tab.Mute (if c then tab' else tab) := by
  split_ifs
  · exact h
  · exact .refl tab

namespace Worker

/-! ## What leaves the boot alone -/

@[simp]
theorem core_update (w : Worker E) (t : ℕ) (f : Tab E → Tab E) : (w.update t f).core = w.core := rfl

@[simp]
theorem core_each (w : Worker E) (f : Tab E → Tab E) : (w.each f).core = w.core := rfl

@[simp]
theorem core_post (w : Worker E) (t : ℕ) (m : Post) : (w.post t m).core = w.core := rfl

/-- No request to erase the device was made or answered. -/
structure Mute (w w' : Worker E) : Prop where
  requests : w'.eraseRequests = w.eraseRequests
  length : w'.tabs.length = w.tabs.length
  tabs : ∀ (t : ℕ) (tab' : Tab E), w'.tabs[t]? = some tab' →
    ∃ tab : Tab E, w.tabs[t]? = some tab ∧ tab.Mute tab'

theorem Mute.trans {w w' w'' : Worker E} (h : w.Mute w') (h' : w'.Mute w'') : w.Mute w'' where
  requests := h'.requests.trans h.requests
  length := h'.length.trans h.length
  tabs t tab'' htab'' := by
    obtain ⟨tab', htab', hmute'⟩ := h'.tabs t tab'' htab''
    obtain ⟨tab, htab, hmute⟩ := h.tabs t tab' htab'
    exact ⟨tab, htab, hmute.trans hmute'⟩

/-- Nothing but fields that no answer is in has changed. -/
theorem Mute.of_eq {w w' : Worker E}
    (h : (w'.eraseRequests, w'.tabs) = (w.eraseRequests, w.tabs)) : w.Mute w' := by
  obtain ⟨hrequests, htabs⟩ := Prod.mk.inj h
  exact ⟨hrequests, by rw [htabs], fun t tab' htab' => ⟨tab', htabs ▸ htab', .refl tab'⟩⟩

theorem mute_update (w : Worker E) (t : ℕ) {f : Tab E → Tab E}
    (hf : ∀ tab : Tab E, w.tabs[t]? = some tab → tab.Mute (f tab)) : w.Mute (w.update t f) where
  requests := rfl
  length := by simp [update]
  tabs t' tab' htab' := by
    simp only [update, List.getElem?_modify] at htab'
    obtain ⟨tab, htab, rfl⟩ := Option.map_eq_some_iff.1 htab'
    refine ⟨tab, htab, ?_⟩
    split_ifs with heq
    · exact hf tab (heq ▸ htab)
    · exact .refl tab

theorem mute_post (w : Worker E) (t : ℕ) {m : Post} (hm : m.result = none) : w.Mute (w.post t m) :=
  w.mute_update t fun tab _ => tab.mute_post hm

theorem mute_each (w : Worker E) {f : Tab E → Tab E} (hf : ∀ tab : Tab E, tab.Mute (f tab)) :
    w.Mute (w.each f) where
  requests := rfl
  length := by simp [each]
  tabs t tab' htab' := by
    simp only [each, List.getElem?_map] at htab'
    obtain ⟨tab, htab, rfl⟩ := Option.map_eq_some_iff.1 htab'
    exact ⟨tab, htab, hf tab⟩

/-- The boot has got no further, no erase either, and no tab was told anything wrong. -/
structure Quiet (w w' : Worker E) : Prop where
  core : w'.core = w.core
  mute : w.Mute w'
  told : (∀ tab ∈ w.tabs, tab.Told w.core) → ∀ tab ∈ w'.tabs, tab.Told w.core

theorem Quiet.trans {w w' w'' : Worker E} (h : w.Quiet w') (h' : w'.Quiet w'') : w.Quiet w'' where
  core := h'.core.trans h.core
  mute := h.mute.trans h'.mute
  told htold := by
    have htold' := h'.told
    rw [h.core] at htold'
    exact htold' (h.told htold)

theorem Sound.quiet {w w' : Worker E} (h : w.Sound) (hq : w.Quiet w') : w'.Sound where
  core := hq.core ▸ h.core
  tabs := hq.core ▸ hq.told h.tabs
  requests := by
    have herase : w'.failedDeviceErase = w.failedDeviceErase :=
      congrArg Core.failedDeviceErase hq.core
    rw [herase, hq.mute.requests]
    exact h.requests
  asking := by
    rw [hq.mute.requests, hq.mute.length]
    exact h.asking

/-- Nothing but fields that say nothing of the boot has changed. -/
theorem Quiet.of_eq {w w' : Worker E}
    (h : (w'.core, w'.eraseRequests, w'.tabs) = (w.core, w.eraseRequests, w.tabs)) :
    w.Quiet w' := by
  simp only [Prod.mk.injEq] at h
  obtain ⟨hcore, hrequests, htabs⟩ := h
  exact ⟨hcore, .of_eq (by rw [hrequests, htabs]), fun htold => htabs ▸ htold⟩

theorem told_update {w : Worker E} {c : Core} {t : ℕ} {f : Tab E → Tab E}
    (hf : ∀ tab, w.tabs[t]? = some tab → tab.Told c → (f tab).Told c)
    (h : ∀ tab ∈ w.tabs, tab.Told c) : ∀ tab ∈ (w.update t f).tabs, tab.Told c := by
  intro tab' hmem
  obtain ⟨n, hn⟩ := List.getElem?_of_mem hmem
  simp only [update, List.getElem?_modify] at hn
  obtain ⟨tab, htab, rfl⟩ := Option.map_eq_some_iff.1 hn
  have htold := h tab (List.mem_of_getElem? htab)
  split_ifs with heq
  · exact hf tab (heq ▸ htab) htold
  · exact htold

theorem quiet_update (w : Worker E) (t : ℕ) {f : Tab E → Tab E}
    (hmute : ∀ tab : Tab E, w.tabs[t]? = some tab → tab.Mute (f tab))
    (htold : ∀ tab, w.tabs[t]? = some tab → tab.Told w.core → (f tab).Told w.core) :
    w.Quiet (w.update t f) :=
  ⟨rfl, w.mute_update t hmute, told_update htold⟩

theorem quiet_post (w : Worker E) (t : ℕ) {m : Post} (hm : ∀ isOpen, m.Allowed w.core isOpen)
    (hresult : m.result = none) : w.Quiet (w.post t m) :=
  w.quiet_update t (fun tab _ => tab.mute_post hresult) fun _ _ h => h.post (hm _)

theorem quiet_foldl {β : Type} {f : Worker E → β → Worker E} (l : List β)
    (hf : ∀ (w : Worker E), ∀ b ∈ l, w.Quiet (f w b)) (w : Worker E) : w.Quiet (l.foldl f w) := by
  induction l generalizing w with
  | nil => exact .of_eq rfl
  | cons b l ih =>
    refine (hf w b List.mem_cons_self).trans (ih (fun w b hb => hf w b ?_) _)
    exact List.mem_cons_of_mem _ hb

theorem quiet_depart (w : Worker E) (t : ℕ) : w.Quiet (w.depart t) := by
  have hleave : w.Quiet (w.update t Tab.leave) :=
    w.quiet_update t (fun tab _ hopen => ⟨hopen, rfl⟩) fun _ _ h => h.leave
  refine hleave.trans (quiet_foldl _ (fun w waiter _ => ?_) _)
  exact (w.quiet_post t (m := .kdfCancel _) (fun _ => trivial) rfl).trans (.of_eq (by rfl))

theorem quiet_derive (w : Worker E) (operation : ℕ) (passphrase : String) (salt : Bytes) :
    w.Quiet (w.derive operation passphrase salt) := by
  unfold derive
  split_ifs
  · exact .of_eq rfl
  · split
    · exact .of_eq rfl
    · split_ifs
      · exact .of_eq rfl
      · exact Quiet.trans (.of_eq (by rfl)) (quiet_post _ _ (fun _ => trivial) rfl)

theorem quiet_timeout (w : Worker E) (n : ℕ) : w.Quiet (w.timeout n) := by
  unfold timeout
  split
  · exact .of_eq rfl
  · split_ifs
    · exact Quiet.trans (.of_eq (by rfl)) (quiet_post _ _ (fun _ => trivial) rfl)
    · exact .of_eq rfl

theorem quiet_kdfResponse (w : Worker E) (t id : ℕ) (key : Option Bytes)
    (error : Option String) : w.Quiet (w.kdfResponse t id key error) := by
  unfold kdfResponse
  split
  · exact .of_eq rfl
  · split
    · exact .of_eq rfl
    · split_ifs <;> exact .of_eq rfl

theorem quiet_backup (w : Worker E) (t : ℕ) : w.Quiet (w.backup t) := by
  unfold backup
  split_ifs <;> exact .of_eq rfl

theorem quiet_framePort (w : Worker E) (t session : ℕ) : w.Quiet (w.framePort t session) := by
  unfold framePort
  split
  · exact w.quiet_post t (fun _ => trivial) rfl
  · exact w.quiet_post t (fun _ => trivial) rfl
  · exact .of_eq rfl

end Worker

/-! ## Hello -/

/-- No boot has failed before anyone is told why. -/
theorem Core.Stage.not_erased {c : Core} (h : c.Stage) (hnone : c.bootFailure = none) :
    c.bootState ≠ .erased := by
  cases h <;> simp_all

/-- The device may be erased iff it is the kernel's boot that failed. -/
theorem Core.Stage.started {c : Core} (h : c.Stage) (hsome : c.bootFailure.isSome)
    (herased : c.bootState ≠ .erased) : c.kernelBootStarted = decide (c.bootState = .failed) := by
  cases h <;> simp_all

/-- What a worker has whose `ready` waits for the lock, the runtime or the kernel. -/
theorem Core.Stage.of_waiting {c : Core} (h : c.Stage)
    (hready : c.ready = .locking ∨ c.ready = .loading ∨ c.ready = .booting) :
    c.hello.isSome ∧ (c.kernelBootStarted → c.deviceLock) ∧ c.bootState = .pending ∧
      c.bootFailure = none := by
  cases h <;> simp_all

theorem Core.Stage.resolved_iff {c : Core} (h : c.Stage) :
    c.ready = .resolved ↔ c.bootState = .live := by
  cases h <;> simp_all
  rename_i hstate _
  rcases hstate with hstate | hstate <;> simp [hstate]

theorem Core.Stage.of_locking {c : Core} (h : c.Stage) (hready : c.ready = .locking) :
    c.kernelBootStarted = false := by
  cases h <;> simp_all

theorem Core.Stage.of_loading {c : Core} (h : c.Stage) (hready : c.ready = .loading) :
    c.deviceLock ∧ c.kernelBootStarted = false := by
  cases h <;> simp_all

theorem Core.Stage.of_booting {c : Core} (h : c.Stage) (hready : c.ready = .booting) :
    c.deviceLock ∧ c.kernelBootStarted := by
  cases h <;> simp_all

/-- The device of a failed boot may be erased. -/
theorem Core.Stage.erase {c c' : Core} (h : c.Stage) (hstate : c.bootState = .failed)
    (hready : c'.ready = c.ready) (hhello : c'.hello = c.hello)
    (hlock : c'.deviceLock = c.deviceLock) (hstarted : c'.kernelBootStarted = c.kernelBootStarted)
    (hfailure : c'.bootFailure = c.bootFailure)
    (hstate' : c'.bootState = .failed ∨ c'.bootState = .erased) : c'.Stage := by
  obtain ⟨hready', hhello', hlock', hstarted', hfailure'⟩ : c.ready = .rejected ∧ c.hello.isSome ∧
      c.deviceLock ∧ c.kernelBootStarted ∧ c.bootFailure.isSome := by
    cases h <;> simp_all
  exact .failed (hready ▸ hready') (hhello ▸ hhello') (hlock ▸ hlock') (hstarted ▸ hstarted')
    hstate'
    (hfailure ▸ hfailure')

/-- Before anything has failed, nothing is erased. -/
theorem Core.Lawful.of_pending {c : Core} (h : c.Lawful) (hstate : c.bootState = .pending) :
    c.failedDeviceErase = .idle ∧ c.removed = [] := by
  constructor
  · have herasing := h.erasing
    have herased := h.erased
    cases herase : c.failedDeviceErase <;> simp_all
  · refine List.eq_nil_iff_forall_not_mem.2 fun device hdevice => ?_
    simpa [hstate] using (h.removed device hdevice).2

/-- An erase begins, goes on or fails. -/
theorem Core.Lawful.erase {c : Core} (h : c.Lawful) (hstate : c.bootState = .failed) {e : Erase}
    (he : e ≠ .done) : Core.Lawful { c with failedDeviceErase := e } :=
  { h with
    stage := h.stage.erase hstate rfl rfl rfl rfl rfl (.inl hstate)
    erasing := fun _ => hstate
    erased := iff_of_false he (by simp [hstate]) }

theorem Core.Lawful.remove {c : Core} (h : c.Lawful) (hstate : c.bootState = .failed)
    {hello : Hello} (hhello : c.hello = some hello) :
    Core.Lawful { c with
      failedDeviceErase := .removing, removed := c.removed ++ [hello.device] } :=
  { h.erase hstate (e := .removing) (by simp) with
    stage := h.stage.erase hstate rfl rfl rfl rfl rfl (.inl hstate)
    removed := by
      intro device hdevice
      obtain hdevice | hdevice := List.mem_append.1 hdevice
      · exact h.removed device hdevice
      · exact ⟨⟨hello, hhello, (List.mem_singleton.1 hdevice).symm⟩, .inl hstate⟩ }

theorem Core.Lawful.gone {c : Core} (h : c.Lawful) (hstate : c.bootState = .failed) :
    Core.Lawful { c with failedDeviceErase := .done, bootState := .erased } where
  stage := h.stage.erase hstate rfl rfl rfl rfl rfl (.inr rfl)
  boots := h.boots
  erasing := by simp
  erased := iff_of_true rfl rfl
  removed device hdevice := ⟨(h.removed device hdevice).1, .inr rfl⟩

/-- What a tab that says hello late is told. -/
def Core.word (c : Core) (message : String) : Post :=
  if c.bootState = .erased then .failedDeviceErased else .fatal message (c.bootState = .failed)

theorem Core.Stage.allowed_word {c : Core} (h : c.Stage) {message : String}
    (hsome : c.bootFailure = some message) (isOpen : Bool) : (c.word message).Allowed c isOpen := by
  unfold Core.word
  split_ifs with herased
  · exact herased
  · exact .inl ⟨hsome, (h.started (by simp [hsome]) herased).symm⟩

theorem Core.result_word (c : Core) (message : String) : (c.word message).result = none := by
  unfold Core.word
  split_ifs <;> rfl

/-- The tab that says hello first. -/
theorem Tab.Told.greetFirst {c : Core} {tab : Tab E} (h : tab.Told c) (hnone : c.bootFailure = none)
    (hstate : c.bootState = .pending) :
    Tab.Told c { tab with helloed := tab.helloed || tab.connected } :=
  { h with
    connected := fun hhelloed => (Bool.or_eq_true_iff.1 hhelloed).elim h.connected id
    failed := by simp [hnone]
    erased := by simp [hstate] }

/-- A tab that says hello to its own device before anything went wrong. -/
theorem Tab.Told.greet {c : Core} {tab : Tab E} (h : tab.Told c) (hnone : c.bootFailure = none)
    (herased : c.bootState ≠ .erased) (hopen : tab.isOpen) :
    Tab.Told c { tab with helloed := true, connected := true } :=
  { h with
    open_of_connected := fun _ => hopen
    connected := fun _ => rfl
    failed := by simp [hnone]
    erased := fun _ he => absurd he herased }

/-- A tab that says hello later on is told of what went wrong. -/
theorem Tab.Told.greet_late {c : Core} {tab : Tab E} (h : tab.Told c) (hc : c.Stage)
    {message : String} (hsome : c.bootFailure = some message) (hopen : tab.isOpen) :
    Tab.Told c (Tab.post (c.word message) { tab with helloed := true, connected := true }) where
  open_of_connected := by simp [hopen]
  connected := by simp
  allowed m hm := by
    rw [Tab.post_isOpen]
    obtain hm | ⟨-, rfl⟩ := Tab.mem_post.1 hm
    · exact h.allowed m hm
    · exact hc.allowed_word hsome _
  booted hlive _ := Tab.mem_post.2 (.inl (h.booted hlive hopen))
  failed _ message' hmessage' := by
    obtain rfl : message = message' := by simpa [hsome] using hmessage'
    by_cases herased : c.bootState = .erased
    · exact .inr (Tab.mem_post.2 (.inr ⟨hopen, by simp [Core.word, herased]⟩))
    · refine .inl (Tab.mem_post.2 (.inr ⟨hopen, ?_⟩))
      simp [Core.word, herased, hc.started (by simp [hsome]) herased]
  erased _ herased := Tab.mem_post.2 (.inr ⟨hopen, by simp [Core.word, herased]⟩)

/-- All that the tab is told with its requests is that they are cancelled. -/
theorem Tab.cancelled (ids : List ℕ) (tab : Tab E) :
    (ids.foldl (fun tab id => tab.post (.kdfCancel id)) tab).connected = tab.connected ∧
      (ids.foldl (fun tab id => tab.post (.kdfCancel id)) tab).helloed = tab.helloed ∧
      ∀ m ∈ (ids.foldl (fun tab id => tab.post (.kdfCancel id)) tab).posted,
        m ∈ tab.posted ∨ ∃ id, m = .kdfCancel id := by
  induction ids generalizing tab with
  | nil => exact ⟨rfl, rfl, fun m hm => .inl hm⟩
  | cons id ids ih =>
    obtain ⟨hconnected, hhelloed, hposted⟩ := ih (tab.post (.kdfCancel id))
    refine ⟨hconnected.trans (by simp), hhelloed.trans (by simp), fun m hm => ?_⟩
    obtain hm | hid := hposted m hm
    · exact (Tab.mem_post.1 hm).imp_right fun hlast => ⟨id, hlast.2⟩
    · exact .inr hid

/-- Nothing that is said takes back what a tab with a closed port was told. -/
theorem Post.Allowed.close {c : Core} {isOpen : Bool} {m : Post} (h : m.Allowed c isOpen) :
    m.Allowed c false := by
  cases m with
  | fatal message canErase =>
    obtain hfailed | ⟨-, hother⟩ := h
    · exact .inl hfailed
    · exact .inr ⟨rfl, hother⟩
  | _ => exact h

/-- A tab that names another device is told so, and its port is closed. -/
theorem Tab.Told.refuse {c : Core} {tab : Tab E} (h : tab.Told c) {hello : Hello} {theirs : String}
    (hhello : c.hello = some hello) (hother : hello.device ≠ theirs) (ids : List ℕ) :
    Tab.Told c { ids.foldl (fun tab id => tab.post (.kdfCancel id))
      (tab.post (.fatal (Worker.mismatch hello.device theirs) false)).leave with
      isOpen := false } := by
  obtain ⟨hconnected, hhelloed, hposted⟩ := Tab.cancelled ids
    (tab.post (.fatal (Worker.mismatch hello.device theirs) false)).leave
  have hconnected := hconnected.trans (show _ = false from rfl)
  have hhelloed := hhelloed.trans (show _ = false from rfl)
  refine ⟨by simp [hconnected], by simp [hhelloed], fun m hm => ?_, by simp, by simp [hhelloed],
    by simp [hhelloed]⟩
  obtain hm | ⟨id, rfl⟩ := hposted m hm
  · obtain hm | ⟨-, rfl⟩ := Tab.mem_post.1 hm
    · exact (h.allowed m hm).close
    · exact .inr ⟨rfl, rfl, hello, theirs, hhello, hother, rfl⟩
  · trivial

namespace Worker

theorem tellFailure_of_none {w : Worker E} (h : w.bootFailure = none) (t : ℕ) :
    w.tellFailure t = w := by
  simp [tellFailure, h]

theorem tellFailure_of_some {w : Worker E} {message : String} (h : w.bootFailure = some message)
    (t : ℕ) : w.tellFailure t = w.post t (w.core.word message) := by
  simp [tellFailure, h, Core.word, core]

theorem isOpen_of_hears {w : Worker E} {t : ℕ} (h : w.hears t) {tab : Tab E}
    (htab : w.tabs[t]? = some tab) : tab.isOpen := by
  simpa [hears, htab] using h

theorem update_update (w : Worker E) (t : ℕ) (f g : Tab E → Tab E) :
    (w.update t f).update t g = w.update t (g ∘ f) := by
  simp [update, List.modify_modify_eq]

theorem quiet_greet {w : Worker E} (h : w.Sound) {t : ℕ} (hears : w.hears t) :
    w.Quiet
      ((w.update t fun tab => { tab with helloed := true, connected := true }).tellFailure t) := by
  cases hfailure : w.bootFailure with
  | none =>
    rw [tellFailure_of_none (by exact hfailure)]
    exact w.quiet_update t (fun tab _ hopen => ⟨hopen, rfl⟩) fun tab htab htold =>
      htold.greet hfailure (h.core.stage.not_erased hfailure) (isOpen_of_hears hears htab)
  | some message =>
    rw [tellFailure_of_some (by exact hfailure), post, update_update]
    refine w.quiet_update t (fun tab _ => ?_) fun tab htab htold =>
      htold.greet_late h.core.stage hfailure (isOpen_of_hears hears htab)
    exact Tab.mute_post { tab with helloed := true, connected := true } (w.core.result_word message)

/-- Only the tab that departs has to do with it. -/
theorem tabs_depart (w : Worker E) (t : ℕ) : ∃ ids : List ℕ, (w.depart t).tabs =
    w.tabs.modify t fun tab => ids.foldl (fun tab id => tab.post (.kdfCancel id)) tab.leave := by
  have hcancels (l : List (ℕ × KdfRequest)) (w : Worker E) :
      (l.foldl (fun w waiter => (w.post t (.kdfCancel waiter.2.id)).settle waiter.1 waiter.2
        (.error "the requesting tab departed")) w).tabs =
      w.tabs.modify t fun tab =>
        (l.map fun waiter => waiter.2.id).foldl (fun tab id => tab.post (.kdfCancel id)) tab := by
    induction l generalizing w with
    | nil => exact (List.modify_id t w.tabs).symm
    | cons waiter l ih =>
      rw [List.foldl_cons, ih]
      exact List.modify_modify_eq _ _ t w.tabs
  refine ⟨(w.waitingOn t).map fun waiter => waiter.2.id, ?_⟩
  rw [depart, hcancels]
  exact List.modify_modify_eq _ _ t w.tabs

/-- The port of a tab of another device is closed, and it has left. -/
theorem quiet_refuse (w : Worker E) (t : ℕ) {hello : Hello} {theirs : String}
    (hhello : w.hello = some hello) (hother : hello.device ≠ theirs) :
    w.Quiet (((w.post t (.fatal (mismatch hello.device theirs) false)).depart t).update t
      fun tab => { tab with isOpen := false }) where
  core := (quiet_depart _ t).core
  mute := ((w.mute_post t rfl).trans (quiet_depart _ t).mute).trans
    (mute_update _ t (by simp [Tab.Mute]))
  told htold := by
    obtain ⟨ids, htabs⟩ := tabs_depart (w.post t (.fatal (mismatch hello.device theirs) false)) t
    have hrefused := told_update (t := t) (fun tab _ h => Tab.Told.refuse h hhello hother ids) htold
    simp only [update] at hrefused ⊢
    rwa [htabs, post, update, List.modify_modify_eq, List.modify_modify_eq]

end Worker

/-! ## What changes the boot -/

/-- What was said stays right where no more is known than a hello. -/
theorem Post.Allowed.of_core {c c' : Core} {isOpen : Bool} {m : Post} (h : m.Allowed c isOpen)
    (hhello : c.hello = none ∨ c'.hello = c.hello) (hstate : c'.bootState = c.bootState)
    (hfailure : c'.bootFailure = c.bootFailure)
    (hstarted : c.bootFailure = none ∨ c'.kernelBootStarted = c.kernelBootStarted) :
    m.Allowed c' isOpen := by
  cases m with
  | booted => exact hstate.trans h
  | fatal message canErase =>
    obtain ⟨hmessage, hcan⟩ | ⟨hclosed, hcan, hello, theirs, hours, hother, rfl⟩ := h
    · obtain hnone | hstarted := hstarted
      · simp [hnone] at hmessage
      · exact .inl ⟨hfailure.trans hmessage, hcan.trans hstarted.symm⟩
    · obtain hnone | hhello := hhello
      · simp [hnone] at hours
      · exact .inr ⟨hclosed, hcan, hello, theirs, hhello.trans hours, hother, rfl⟩
  | failedDeviceErased => exact hstate.trans h
  | eraseResult request error => exact fun hnone => hstate.trans (h hnone)
  | _ => trivial

/-- What a tab was told stays right where the boot gets no further. -/
theorem Tab.Told.of_core {c c' : Core} {tab : Tab E} (h : tab.Told c)
    (hhello : c.hello = none ∨ c'.hello = c.hello)
    (hstate : c'.bootState = c.bootState) (hfailure : c'.bootFailure = c.bootFailure)
    (hstarted : c.bootFailure = none ∨ c'.kernelBootStarted = c.kernelBootStarted) :
    tab.Told c' where
  open_of_connected := h.open_of_connected
  connected := h.connected
  allowed m hm := (h.allowed m hm).of_core hhello hstate hfailure hstarted
  booted hlive := h.booted (hstate ▸ hlive)
  failed hhelloed message hmessage := by
    rw [hfailure] at hmessage
    obtain hnone | hstarted := hstarted
    · simp [hnone] at hmessage
    · rw [hstarted]
      exact h.failed hhelloed message hmessage
  erased hhelloed herased := h.erased hhelloed (hstate ▸ herased)

/-- Nothing is said before `ready` settles that would have to be taken back. -/
theorem Post.Allowed.of_pending {c c' : Core} {isOpen : Bool} {m : Post} (h : m.Allowed c isOpen)
    (hc : c.bootState = .pending) (hnone : c.bootFailure = none) (hhello : c'.hello = c.hello) :
    m.Allowed c' isOpen := by
  cases m with
  | fatal message canErase =>
    obtain ⟨hmessage, -⟩ | ⟨hclosed, hcan, hello, theirs, hours, hother, rfl⟩ := h
    · simp [hnone] at hmessage
    · exact .inr ⟨hclosed, hcan, hello, theirs, hhello.trans hours, hother, rfl⟩
  | eraseResult request error =>
    intro hgood
    simpa [hc] using h hgood
  | booted => simp [Post.Allowed, hc] at h
  | failedDeviceErased => simp [Post.Allowed, hc] at h
  | _ => trivial

/-- The kernel is up, and the tab is told. -/
theorem Tab.Told.live {c c' : Core} {tab : Tab E} (h : tab.Told c) (hc : c.bootState = .pending)
    (hnone : c.bootFailure = none) (hhello : c'.hello = c.hello)
    (hlive : c'.bootState = .live) (hfailure : c'.bootFailure = none) :
    (tab.post .booted).Told c' where
  open_of_connected := by simpa using h.open_of_connected
  connected := by simpa using h.connected
  allowed m hm := by
    rw [Tab.post_isOpen]
    obtain hm | ⟨-, rfl⟩ := Tab.mem_post.1 hm
    · exact (h.allowed m hm).of_pending hc hnone hhello
    · exact hlive
  booted _ hopen := Tab.mem_post.2 (.inr ⟨by simpa using hopen, rfl⟩)
  failed := by simp [hfailure]
  erased := by simp [hlive]

/-- There is no kernel, and a tab that is connected is told. -/
theorem Tab.Told.fail {c c' : Core} {tab : Tab E} (h : tab.Told c) (hc : c.bootState = .pending)
    (hnone : c.bootFailure = none) (hhello : c'.hello = c.hello) {message : String}
    (hfailure : c'.bootFailure = some message)
    (hstate : c'.bootState = if c'.kernelBootStarted then .failed else .pending) :
    Tab.Told c'
      (if tab.connected then tab.post (.fatal message (c'.bootState = .failed)) else tab) := by
  have hstarted : decide (c'.bootState = .failed) = c'.kernelBootStarted := by
    cases hs : c'.kernelBootStarted <;> simp [hstate, hs]
  have hnot : c'.bootState ≠ .live ∧ c'.bootState ≠ .erased := by
    rw [hstate]
    split_ifs <;> simp
  split_ifs with hconnected
  · refine ⟨by simpa using h.open_of_connected, by simpa using h.connected, fun m hm => ?_,
      fun hlive => absurd hlive hnot.1, fun hhelloed m hm => ?_, fun _ he => absurd he hnot.2⟩
    · rw [Tab.post_isOpen]
      obtain hm | ⟨-, rfl⟩ := Tab.mem_post.1 hm
      · exact (h.allowed m hm).of_pending hc hnone hhello
      · exact .inl ⟨hfailure, hstarted⟩
    · obtain rfl : message = m := by simpa [hfailure] using hm
      refine .inl (Tab.mem_post.2 (.inr ⟨h.open_of_connected hconnected, ?_⟩))
      rw [hstarted]
  · have hhelloed : tab.helloed = false := by simpa using fun hh => hconnected (h.connected hh)
    exact ⟨h.open_of_connected, h.connected, fun m hm =>
      (h.allowed m hm).of_pending hc hnone hhello,
      fun hlive => absurd hlive hnot.1, by simp [hhelloed], by simp [hhelloed]⟩

/-- The device is gone, and a tab that said hello is told. -/
theorem Tab.Told.erase {c c' : Core} {tab : Tab E} (h : tab.Told c) (hc : c.bootState = .failed)
    (hhello : c'.hello = c.hello) (hstate : c'.bootState = .erased)
    (hfailure : c'.bootFailure = c.bootFailure)
    (hstarted : c'.kernelBootStarted = c.kernelBootStarted) :
    Tab.Told c' (if tab.connected ∧ tab.helloed then tab.post .failedDeviceErased else tab) := by
  have hallowed : ∀ m ∈ tab.posted, m.Allowed c' tab.isOpen := by
    intro m hm
    have hm := h.allowed m hm
    cases m with
    | fatal message canErase =>
      obtain ⟨hmessage, hcan⟩ | ⟨hclosed, hcan, hello, theirs, hours, hother, rfl⟩ := hm
      · exact .inl ⟨hfailure.trans hmessage, hcan.trans hstarted.symm⟩
      · exact .inr ⟨hclosed, hcan, hello, theirs, hhello.trans hours, hother, rfl⟩
    | eraseResult request error => exact fun _ => hstate
    | failedDeviceErased => exact hstate
    | booted => simp [Post.Allowed, hc] at hm
    | _ => trivial
  have hfailed : tab.helloed → ∀ message ∈ c'.bootFailure,
      .fatal message c'.kernelBootStarted ∈ tab.posted ∨ .failedDeviceErased ∈ tab.posted := by
    rw [hfailure, hstarted]
    exact h.failed
  split_ifs with hconnected
  · have hopen := h.open_of_connected hconnected.1
    refine ⟨by simpa using h.open_of_connected, by simpa using h.connected, fun m hm => ?_,
      by simp [hstate], fun _ _ _ => .inr (Tab.mem_post.2 (.inr ⟨hopen, rfl⟩)),
      fun _ _ => Tab.mem_post.2 (.inr ⟨hopen, rfl⟩)⟩
    rw [Tab.post_isOpen]
    obtain hm | ⟨-, rfl⟩ := Tab.mem_post.1 hm
    · exact hallowed m hm
    · exact hstate
  · have hhelloed : tab.helloed = false := by
      by_contra hh
      rw [Bool.not_eq_false] at hh
      exact hconnected ⟨h.connected hh, hh⟩
    exact ⟨h.open_of_connected, h.connected, hallowed, by simp [hstate], hfailed,
      by simp [hhelloed]⟩

namespace Worker

/-- `ready` goes on, and nobody is told. -/
theorem Sound.of_core {w w' : Worker E} (h : w.Sound) (hcore : w'.core.Lawful)
    (htabs : w'.tabs = w.tabs) (hrequests : w'.eraseRequests = w.eraseRequests)
    (herase : w'.failedDeviceErase = w.failedDeviceErase)
    (hhello : w.hello = none ∨ w'.hello = w.hello) (hstate : w'.bootState = w.bootState)
    (hfailure : w'.bootFailure = w.bootFailure)
    (hstarted : w.bootFailure = none ∨ w'.kernelBootStarted = w.kernelBootStarted) : w'.Sound where
  core := hcore
  tabs := by
    rw [htabs]
    exact fun tab hmem => (h.tabs tab hmem).of_core hhello hstate hfailure hstarted
  requests := by
    rw [herase, hrequests]
    exact h.requests
  asking := by
    rw [hrequests, htabs]
    exact h.asking

/-- Before `ready` settles, the erase has not been asked for. -/
theorem lawful_of_pending {w w' : Worker E} (h : w.core.Lawful) (hstate : w.bootState = .pending)
    (hstage : w'.core.Stage) (hstate' : w'.bootState ≠ .erased)
    (hboots : w'.boots = if w'.kernelBootStarted then w'.hello.toList else [])
    (herase : w'.failedDeviceErase = w.failedDeviceErase) (hremoved : w'.removed = w.removed) :
    w'.core.Lawful := by
  obtain ⟨hidle, hnone⟩ := h.of_pending hstate
  have herase : w'.core.failedDeviceErase = .idle := herase.trans hidle
  have hremoved : w'.core.removed = [] := hremoved.trans hnone
  exact ⟨hstage, hboots, by simp [herase], iff_of_false (by simp [herase]) hstate',
    by simp [hremoved]⟩

theorem Sound.live {w : Worker E} (h : w.Sound) (hready : w.ready = .booting) : w.live.Sound := by
  obtain ⟨hhello, -, hstate, hfailure⟩ := h.core.stage.of_waiting (.inr (.inr hready))
  obtain ⟨hlock, hstarted⟩ := h.core.stage.of_booting hready
  have hlive : Sound (each { w with ready := .resolved, bootState := .live, pump := .woken }
      (Tab.post .booted)) := by
    refine ⟨?_, ?_, h.requests, by simpa [each] using h.asking⟩
    · exact lawful_of_pending h.core hstate (.live rfl hhello hlock hstarted rfl hfailure)
        (by simp [each]) h.core.boots rfl rfl
    · intro tab' hmem
      obtain ⟨tab, htab, rfl⟩ := List.mem_map.1 hmem
      exact (h.tabs tab htab).live hstate hfailure rfl rfl hfailure
  -- the ports that are handed out now say nothing of the boot
  refine hlive.quiet (.trans (.of_eq (by rfl)) (quiet_foldl _ (fun w frame _ => ?_) _))
  exact w.quiet_post _ (m := .framePort _) (fun _ => trivial) rfl

theorem Sound.fail {w : Worker E} (h : w.Sound) (message : String)
    (hready : w.ready = .locking ∨ w.ready = .loading ∨ w.ready = .booting) :
    (w.fail message).Sound := by
  obtain ⟨hhello, hlock, hstate, hnone⟩ := h.core.stage.of_waiting hready
  have hfailed (bootState : BootState)
      (hnow : bootState = if w.kernelBootStarted then .failed else .pending) :
      Sound (each { w with ready := .rejected, bootState, bootFailure := some message } fun tab =>
        if tab.connected then tab.post (.fatal message (bootState = .failed)) else tab) := by
    refine ⟨lawful_of_pending h.core hstate ?_ ?_ h.core.boots rfl rfl, ?_, h.requests,
      by simpa [each] using h.asking⟩
    -- only a boot that was called for can have failed on the device
    · obtain hstarted | hstarted := Bool.eq_false_or_eq_true w.kernelBootStarted
      · exact .failed rfl hhello (hlock hstarted) hstarted (.inl (hnow.trans (if_pos hstarted))) rfl
      · exact .unstarted rfl hhello hstarted (hnow.trans (if_neg (by simp [hstarted]))) rfl
    · show bootState ≠ .erased
      rw [hnow]
      split_ifs <;> simp
    · intro tab' hmem
      obtain ⟨tab, htab, rfl⟩ := List.mem_map.1 hmem
      exact Tab.Told.fail (h.tabs tab htab) hstate hnone (by rfl) rfl hnow
  have hnow : (if w.kernelBootStarted then .failed else w.bootState) =
      if w.kernelBootStarted then BootState.failed else .pending := by
    rw [show w.bootState = .pending from hstate]
  refine (hfailed _ hnow).quiet (.trans (.of_eq (by rfl)) (quiet_foldl _ (fun w frame _ => ?_) _))
  exact w.quiet_post _ (m := .framePortFailed _ _) (fun _ => trivial) rfl

theorem Sound.locked {w : Worker E} (h : w.Sound) (failure : Option String) :
    (w.locked failure).Sound := by
  unfold Worker.locked
  split
  next hready =>
    obtain ⟨hhello, -, hstate, hfailure⟩ := h.core.stage.of_waiting (.inl hready)
    -- the lock comes before the kernel is there
    have hstarted : w.kernelBootStarted = false := h.core.stage.of_locking hready
    refine h.of_core ?_ rfl rfl rfl (.inr rfl) rfl rfl (.inr rfl)
    exact lawful_of_pending h.core hstate (.loading rfl hhello rfl hstarted hstate hfailure)
      (by simp [show w.bootState = .pending from hstate]) h.core.boots rfl rfl
  next hready => exact h.fail _ (.inl hready)
  next => exact h

theorem Sound.loaded {w : Worker E} (h : w.Sound) (failure : Option String) :
    (w.loaded failure).Sound := by
  unfold Worker.loaded
  split
  next hready =>
    obtain ⟨hhello, -, hstate, hfailure⟩ := h.core.stage.of_waiting (.inr (.inl hready))
    obtain ⟨hlock, hstarted⟩ := h.core.stage.of_loading hready
    -- no boot was called before
    have hboots : w.boots = [] := h.core.boots.trans (if_neg (by simp [hstarted]))
    refine h.of_core ?_ rfl rfl rfl (.inr rfl) rfl rfl (.inl hfailure)
    exact lawful_of_pending h.core hstate (.booting rfl hhello hlock rfl hstate hfailure)
      (by simp [show w.bootState = .pending from hstate]) (by simp [hboots]) rfl rfl
  next hready => exact h.fail _ (.inr (.inl hready))
  next => exact h

theorem Sound.booted {w : Worker E} (h : w.Sound) (failure : Option String) :
    (w.booted failure).Sound := by
  unfold Worker.booted
  split
  next hready => exact h.live hready
  next hready => exact h.fail _ (.inr (.inr hready))
  next => exact h

/-- The first hello. -/
theorem Sound.greetFirst {w : Worker E} (h : w.Sound) (hnone : w.hello = none) (t : ℕ)
    (hello : Hello) :
    Sound (tellFailure (update { w with hello := some hello, ready := .locking } t fun tab =>
      { tab with helloed := tab.helloed || tab.connected }) t) := by
  have hstage := h.core.stage
  -- without a hello `ready` has not gone on
  obtain ⟨hstarted, hstate, hfailure⟩ : w.core.kernelBootStarted = false ∧
      w.core.bootState = .pending ∧ w.core.bootFailure = none := by
    have hnone : w.core.hello = none := hnone
    cases hstage <;> simp_all
  rw [tellFailure_of_none (by exact hfailure)]
  have hlocking : Sound { w with hello := some hello, ready := .locking } := by
    refine h.of_core ?_ rfl rfl rfl (.inl hnone) rfl rfl (.inr rfl)
    refine lawful_of_pending h.core hstate (.locking rfl rfl hstarted hstate hfailure)
      (by simp [show w.bootState = .pending from hstate]) ?_ rfl rfl
    have hnot : ¬ w.kernelBootStarted = true := by
      simp [show w.kernelBootStarted = false from hstarted]
    rw [if_neg hnot]
    exact h.core.boots.trans (if_neg hnot)
  exact hlocking.quiet (quiet_update _ t (fun tab _ hopen => ⟨hopen, rfl⟩) fun tab _ htold =>
    htold.greetFirst hfailure hstate)

theorem Sound.sayHello {w : Worker E} (h : w.Sound) {t : ℕ} (hears : w.hears t) (data : Hello) :
    (w.sayHello t data).Sound := by
  unfold Worker.sayHello
  split
  next hnone => exact h.greetFirst hnone t _
  next hello hhello =>
    split_ifs with hother
    · exact h.quiet (quiet_refuse w t hhello hother)
    · exact h.quiet (quiet_greet h hears)

/-! ## Erasing -/

theorem lt_of_isHelloed {w : Worker E} {t : ℕ} (h : w.isHelloed t) : t < w.tabs.length := by
  unfold isHelloed at h
  by_contra hle
  simp [List.getElem?_eq_none (Nat.not_lt.1 hle)] at h

theorem Sound.post {w : Worker E} (h : w.Sound) (t : ℕ) {m : Post}
    (hm : ∀ isOpen, m.Allowed w.core isOpen) : (w.post t m).Sound where
  core := h.core
  tabs := told_update (fun _ _ htold => htold.post (hm _)) h.tabs
  requests := h.requests
  asking := by simpa [Worker.post, update] using h.asking

/-- The requests are answered, and none is left. -/
theorem Sound.answerErase {w : Worker E} (hcore : w.core.Lawful)
    (htabs : ∀ tab ∈ w.tabs, tab.Told w.core) (error : Option String)
    (herror : error = none → w.bootState = .erased) : (w.answerErase error).Sound := by
  have hempty : Sound { w with eraseRequests := [] } := ⟨hcore, htabs, fun _ => rfl, by simp⟩
  -- what the answers say stays right while they are posted
  have hfold (l : List (ℕ × ℤ)) (w' : Worker E) (h' : w'.Sound) (hcore' : w'.core = w.core) :
      (l.foldl (fun w request => w.post request.1 (.eraseResult request.2 error)) w').Sound := by
    induction l generalizing w' with
    | nil => exact h'
    | cons request l ih =>
      refine ih _ (h'.post _ (m := .eraseResult request.2 error) ?_) hcore'
      rw [hcore']
      exact fun _ => herror
  exact hfold _ _ hempty rfl

theorem Sound.eraseFailed {w : Worker E} (h : w.Sound)
    (herase : w.failedDeviceErase = .removing ∨ w.failedDeviceErase = .deleting)
    (message : String) :
    (Worker.answerErase { w with failedDeviceErase := .idle } (some message)).Sound := by
  refine Sound.answerErase ?_ (fun tab hmem => ?_) _ (by simp)
  · exact h.core.erase (h.core.erasing herase) (by simp)
  · exact (h.tabs tab hmem).of_core (.inr rfl) rfl rfl (.inr rfl)

theorem Sound.erased {w : Worker E} (h : w.Sound) (failure : Option String) :
    (w.erased failure).Sound := by
  unfold Worker.erased
  split
  next herase =>
    exact ⟨h.core.erase (h.core.erasing (.inl herase)) (by simp),
      fun tab hmem => (h.tabs tab hmem).of_core (.inr rfl) rfl rfl (.inr rfl), by simp, h.asking⟩
  next herase =>
    have hstate := h.core.erasing (.inr herase)
    refine Sound.answerErase (h.core.gone hstate) (fun tab' hmem => ?_) none fun _ => rfl
    obtain ⟨tab, htab, rfl⟩ := List.mem_map.1 hmem
    exact (h.tabs tab htab).erase hstate rfl rfl rfl rfl
  next message herase => exact h.eraseFailed (.inl herase) message
  next message herase => exact h.eraseFailed (.inr herase) message
  next => exact h

/-- A tab that has said hello waits for the erase. -/
theorem asking_append {w : Worker E} (h : w.Sound) {t : ℕ} (hhelloed : w.isHelloed t)
    (request : ℤ) : ∀ asked ∈ w.eraseRequests ++ [(t, request)], asked.1 < w.tabs.length := by
  intro asked hasked
  obtain hasked | hasked := List.mem_append.1 hasked
  · exact h.asking asked hasked
  · rw [List.mem_singleton.1 hasked]
    exact lt_of_isHelloed hhelloed

theorem Sound.eraseFailedDevice {w : Worker E} (h : w.Sound) (t : ℕ) (request : Option ℤ) :
    (w.eraseFailedDevice t request).Sound := by
  have hrefused (error : String) (request : ℤ) :
      (w.post t (.eraseResult request (some error))).Sound :=
    h.post t (m := .eraseResult request (some error)) (by simp [Post.Allowed])
  unfold Worker.eraseFailedDevice
  split
  next => exact h
  next request =>
    split
    next => exact h
    next hhelloed =>
      have hhelloed : w.isHelloed t := by simpa using hhelloed
      split
      next _ herase => exact h.post t (m := .eraseResult _ _) fun _ _ => h.core.erased.1 herase
      next hello _ hhello =>
        split
        next hstate =>
          exact ⟨h.core.remove hstate hhello,
            fun tab hmem => (h.tabs tab hmem).of_core (.inr rfl) rfl rfl (.inr rfl), by simp,
            asking_append h hhelloed request⟩
        next => exact hrefused _ request
      next => exact hrefused _ request
      next hdone hsome hnone =>
        -- an erase is under way, and its end answers this request too
        refine ⟨h.core, h.tabs, fun herase => ?_, asking_append h hhelloed request⟩
        obtain herase | herase := herase
        · cases hhello : w.hello with
          | none => exact absurd hhello (hnone herase)
          | some hello => exact absurd hhello (hsome hello herase)
        · exact absurd herase hdone

/-! ## Runs -/

theorem Sound.connect {w : Worker E} (h : w.Sound) : w.connect.Sound := by
  have hlive : w.ready = .resolved ↔ w.bootState = .live := h.core.stage.resolved_iff
  refine ⟨h.core, fun tab hmem => ?_, h.requests, fun request hrequest => ?_⟩
  swap
  · have hlt := h.asking request hrequest
    simp only [Worker.connect, List.length_append, List.length_singleton]
    omega
  obtain hmem | hmem := List.mem_append.1 hmem
  · exact h.tabs tab hmem
  · rw [List.mem_singleton.1 hmem]
    split_ifs with hready
    · refine ⟨by simp, by simp, fun m hm => ?_, fun _ _ => ?_, by simp, by simp⟩
      · obtain hm | ⟨-, rfl⟩ := Tab.mem_post.1 hm
        · simp at hm
        · exact hlive.1 hready
      · exact Tab.mem_post.2 (.inr ⟨rfl, rfl⟩)
    · exact ⟨by simp, by simp, by simp, fun hstate => absurd (hlive.2 hstate) hready, by simp,
        by simp⟩

theorem Sound.message {w : Worker E} (h : w.Sound) {t : ℕ} (hears : w.hears t) (m : Message) :
    (w.message t m).Sound := by
  cases m with
  | hello data => exact h.sayHello hears data
  | depart => exact h.quiet (w.quiet_depart t)
  | kdfResponse id key error => exact h.quiet (w.quiet_kdfResponse t id key error)
  | eraseFailedDevice request => exact h.eraseFailedDevice t request
  | framePort session => exact h.quiet (w.quiet_framePort t session)

theorem quiet_push (w : Worker E) (ev : E) : w.Quiet (w.push ev) := by
  unfold push
  simp only []
  split_ifs <;> exact .of_eq rfl

theorem quiet_poll (w : Worker E) : w.Quiet w.poll := by
  unfold poll
  split
  · split <;> exact .of_eq rfl
  · exact .of_eq rfl

theorem quiet_stopped (w : Worker E) : w.Quiet w.stopped := by
  unfold stopped
  split <;> exact .of_eq rfl

theorem quiet_answered (w : Worker E) : w.Quiet w.answered := by
  unfold answered
  split
  next ev _ =>
    have hmute (tab : Tab E) : tab.Mute (tab.offer ev) := by
      unfold Tab.offer
      split_ifs
      · exact fun hopen => ⟨hopen, rfl⟩
      · exact .refl tab
    refine ⟨rfl, (Mute.of_eq (by rfl)).trans (mute_each _ hmute), fun h tab' hmem => ?_⟩
    obtain ⟨tab, htab, rfl⟩ := List.mem_map.1 hmem
    unfold Tab.offer
    split_ifs
    · exact (h tab htab).backlog _
    · exact h tab htab
  next => exact .of_eq rfl

theorem sound_step (w : Worker E) (ev : Event E) (h : w.Sound) : (w.step ev).Sound := by
  cases ev with
  | connect => exact h.connect
  | message t m =>
    simp only [step]
    split_ifs with hears
    · exact h.message hears m
    · exact h
  | locked failure => exact h.locked failure
  | loaded failure => exact h.loaded failure
  | booted failure => exact h.booted failure
  | erased failure => exact h.erased failure
  | push ev => exact h.quiet (w.quiet_push ev)
  | poll => exact h.quiet w.quiet_poll
  | answered => exact h.quiet w.quiet_answered
  | stopped => exact h.quiet w.quiet_stopped
  | next t =>
    simp only [step]
    split_ifs
    · exact h.quiet (w.quiet_update t (fun tab _ hopen => ⟨hopen, rfl⟩) fun tab _ htold =>
        htold.backlog _)
    · exact h
  | backup t =>
    simp only [step]
    split_ifs
    · exact h.quiet (w.quiet_backup t)
    · exact h
  | backedUp => exact h.quiet (.of_eq rfl)
  | derive operation passphrase salt => exact h.quiet (w.quiet_derive operation passphrase salt)
  | timeout n => exact h.quiet (w.quiet_timeout n)

theorem sound_start : Sound ({} : Worker E) :=
  { core := ⟨.helloed rfl rfl rfl rfl rfl, rfl, by simp [core], by simp [core], by simp [core]⟩
    tabs := by simp
    requests := fun _ => rfl
    asking := by simp }

/-! ## Answers to requests -/

theorem mute_tellFailure (w : Worker E) (t : ℕ) : w.Mute (w.tellFailure t) := by
  unfold tellFailure
  split
  · exact .of_eq rfl
  · refine w.mute_post t ?_
    split_ifs <;> rfl

theorem mute_fail (w : Worker E) (message : String) : w.Mute (w.fail message) := by
  unfold fail
  refine Mute.trans (.of_eq (by rfl)) ((mute_each _ fun tab => ?_).trans
    (Mute.trans (.of_eq (by rfl)) (quiet_foldl _ (fun w frame _ => ?_) _).mute))
  · exact (tab.mute_post rfl).ite _
  · exact w.quiet_post _ (m := .framePortFailed _ _) (fun _ => trivial) rfl

theorem mute_live (w : Worker E) : w.Mute w.live := by
  unfold live
  refine Mute.trans (.of_eq (by rfl)) ((mute_each _ fun tab => ?_).trans
    (Mute.trans (.of_eq (by rfl)) (quiet_foldl _ (fun w frame _ => ?_) _).mute))
  · exact tab.mute_post rfl
  · exact w.quiet_post _ (m := .framePort _) (fun _ => trivial) rfl

theorem mute_locked (w : Worker E) (failure : Option String) : w.Mute (w.locked failure) := by
  unfold locked
  split
  · exact .of_eq rfl
  · exact w.mute_fail _
  · exact .of_eq rfl

theorem mute_loaded (w : Worker E) (failure : Option String) : w.Mute (w.loaded failure) := by
  unfold loaded
  split
  · exact .of_eq rfl
  · exact w.mute_fail _
  · exact .of_eq rfl

theorem mute_booted (w : Worker E) (failure : Option String) : w.Mute (w.booted failure) := by
  unfold booted
  split
  · exact w.mute_live
  · exact w.mute_fail _
  · exact .of_eq rfl

theorem mute_sayHello (w : Worker E) (t : ℕ) (data : Hello) : w.Mute (w.sayHello t data) := by
  unfold sayHello
  split
  · refine Mute.trans ?_ (mute_tellFailure _ t)
    exact Mute.trans (.of_eq (by rfl)) (mute_update _ t fun tab _ hopen => ⟨hopen, rfl⟩)
  · split_ifs
    · exact ((w.mute_post t rfl).trans (quiet_depart _ t).mute).trans
        (mute_update _ t (by simp [Tab.Mute]))
    · refine Mute.trans ?_ (mute_tellFailure _ t)
      exact w.mute_update t fun tab _ hopen => ⟨hopen, rfl⟩

/-- What an open tab has answers to once some requests are answered. -/
theorem results_answers (l : List (ℕ × ℤ)) (error : Option String) (w : Worker E) {t : ℕ}
    {tab' : Tab E}
    (htab' : (l.foldl (fun w request => w.post request.1 (.eraseResult request.2 error)) w).tabs[t]?
      = some tab') (hopen' : tab'.isOpen) :
    ∃ tab : Tab E, w.tabs[t]? = some tab ∧ tab.isOpen ∧
      tab'.results = tab.results ++ (l.filter (·.1 = t)).map Prod.snd := by
  induction l generalizing w with
  | nil => exact ⟨tab', htab', hopen', by simp⟩
  | cons request l ih =>
    obtain ⟨tab₁, htab₁, hopen₁, hresults⟩ := ih _ htab'
    simp only [post, update, List.getElem?_modify] at htab₁
    obtain ⟨tab, htab, rfl⟩ := Option.map_eq_some_iff.1 htab₁
    refine ⟨tab, htab, ?_⟩
    rw [hresults, List.filter_cons]
    by_cases heq : request.1 = t
    · have hopen : tab.isOpen := by simpa [heq] using hopen₁
      simp [heq, Tab.results_post hopen, Post.result, hopen]
    · simpa [heq] using hopen₁

theorem length_answers (l : List (ℕ × ℤ)) (error : Option String) (w : Worker E) :
    (l.foldl (fun w request => w.post request.1 (.eraseResult request.2 error)) w).tabs.length =
      w.tabs.length := by
  induction l generalizing w with
  | nil => rfl
  | cons request l ih => exact (ih _).trans (List.length_modify _ _ _)

theorem eraseRequests_answers (l : List (ℕ × ℤ)) (error : Option String) (w : Worker E) :
    (l.foldl (fun w request => w.post request.1 (.eraseResult request.2 error)) w).eraseRequests =
      w.eraseRequests := by
  induction l generalizing w with
  | nil => rfl
  | cons request l ih => exact ih _

theorem Answered.mute {w w' : Worker E} {t : ℕ} {asked : List ℤ} (h : w.Answered t asked)
    (hm : w.Mute w') : w'.Answered t asked where
  known tab' htab' hopen' := by
    obtain ⟨tab, htab, hmute⟩ := hm.tabs t tab' htab'
    obtain ⟨hopen, hresults⟩ := hmute hopen'
    rw [hresults, pending, hm.requests]
    exact h.known tab htab hopen
  unknown hle := h.unknown (hm.length ▸ hle)

/-- What waits is answered when the erase settles. -/
theorem Answered.answerErase {w : Worker E} {t : ℕ} {asked : List ℤ} (h : w.Answered t asked)
    (error : Option String) : (w.answerErase error).Answered t asked where
  known tab' htab' hopen' := by
    obtain ⟨tab, htab, hopen, hresults⟩ := results_answers _ _ _ htab' hopen'
    have hnone : (w.answerErase error).pending t = [] := by
      unfold Worker.answerErase pending
      rw [eraseRequests_answers]
      rfl
    rw [hnone, List.append_nil, hresults]
    exact h.known tab htab hopen
  unknown hle := h.unknown (by simpa [Worker.answerErase, length_answers] using hle)

/-- A request is answered where none waits. -/
theorem Answered.result {w : Worker E} {t t' : ℕ} {asked : List ℤ} (h : w.Answered t asked)
    (hnone : w.eraseRequests = []) (hlt : t' < w.tabs.length) (request : ℤ)
    (error : Option String) :
    (w.post t' (.eraseResult request error)).Answered t
      (asked ++ if t' = t then [request] else []) where
  known tab' htab' hopen' := by
    obtain ⟨tab, htab, hopen, hresults⟩ := results_answers [(t', request)] error w htab' hopen'
    have hasked := h.known tab htab hopen
    have hpending : (w.post t' (.eraseResult request error)).pending t = [] := by
      simp [pending, post, update, hnone]
    rw [pending, hnone, List.filter_nil, List.map_nil, List.append_nil] at hasked
    rw [hpending, hresults, hasked, List.append_nil]
    split_ifs with heq <;> simp [heq]
  unknown hle := by
    have hle : w.tabs.length ≤ t := by simpa [post, update] using hle
    rw [h.unknown hle, if_neg (by omega), List.append_nil]

/-- A request waits for the erase behind the others. -/
theorem Answered.asks {w w' : Worker E} {t t' : ℕ} {asked : List ℤ} (h : w.Answered t asked)
    (htabs : w'.tabs = w.tabs) (request : ℤ)
    (hrequests : w'.eraseRequests = w.eraseRequests ++ [(t', request)])
    (hlt : t' < w.tabs.length) :
    w'.Answered t (asked ++ if t' = t then [request] else []) where
  known tab htab hopen := by
    rw [htabs] at htab
    rw [← h.known tab htab hopen, List.append_assoc, pending, pending, hrequests,
      List.filter_append,
      List.map_append]
    split_ifs with heq <;> simp [heq]
  unknown hle := by
    rw [htabs] at hle
    rw [h.unknown hle, if_neg (by omega), List.append_nil]

theorem Answered.eraseFailedDevice {w : Worker E} (hs : w.Sound) {t t' : ℕ} {asked : List ℤ}
    (h : w.Answered t asked) (hears : w.hears t') (request : Option ℤ) :
    (w.eraseFailedDevice t' request).Answered t
      (asked ++ w.asks t (.message t' (.eraseFailedDevice request))) := by
  cases request with
  | none => simpa [Worker.eraseFailedDevice, Worker.asks] using h
  | some request =>
    by_cases hhelloed : w.isHelloed t'
    swap
    · have hnone : w.asks t (.message t' (.eraseFailedDevice (some request))) = [] :=
        if_neg (by rintro ⟨rfl, -, hnow⟩; exact hhelloed hnow)
      rw [hnone, List.append_nil]
      simpa [Worker.eraseFailedDevice, hhelloed] using h
    have hlt := lt_of_isHelloed hhelloed
    have hasks : w.asks t (.message t' (.eraseFailedDevice (some request))) =
        if t' = t then [request] else [] := by
      unfold Worker.asks
      by_cases heq : t' = t
      · subst heq
        simp [hears, hhelloed]
      · simp [heq]
    rw [hasks]
    unfold Worker.eraseFailedDevice
    simp only [hhelloed, Bool.not_true, Bool.false_eq_true, if_false]
    split
    next _ herase => exact h.result (hs.requests (.inr herase)) hlt request _
    next _ herase _ =>
      split
      · exact h.asks (by rfl) request (by rfl) hlt
      · exact h.result (hs.requests (.inl herase)) hlt request _
    next herase _ => exact h.result (hs.requests (.inl herase)) hlt request _
    next => exact h.asks (by rfl) request (by rfl) hlt

theorem Answered.erased {w : Worker E} {t : ℕ} {asked : List ℤ} (h : w.Answered t asked)
    (failure : Option String) : (w.erased failure).Answered t asked := by
  unfold Worker.erased
  split
  next => exact h.mute (.of_eq rfl)
  next =>
    refine Answered.answerErase (h.mute ?_) none
    exact Mute.trans (.of_eq (by rfl)) (mute_each _ fun tab => (tab.mute_post rfl).ite _)
  next => exact Answered.answerErase (h.mute (.of_eq (by rfl))) _
  next => exact Answered.answerErase (h.mute (.of_eq (by rfl))) _
  next => exact h

/-- A tab that connects has asked for nothing. -/
theorem Answered.connect {w : Worker E} (hs : w.Sound) {t : ℕ} {asked : List ℤ}
    (h : w.Answered t asked) : w.connect.Answered t asked where
  known tab htab hopen := by
    obtain hlt | hle := Nat.lt_or_ge t w.tabs.length
    · rw [Worker.connect, List.getElem?_append_left hlt] at htab
      exact h.known tab htab hopen
    · have hnone : w.connect.pending t = [] := by
        simp only [pending, List.map_eq_nil_iff, List.filter_eq_nil_iff, decide_eq_true_eq]
        intro request hrequest heq
        have hlt := hs.asking request hrequest
        omega
      have hresults : tab.results = [] := by
        simp only [Worker.connect, List.getElem?_append_right hle] at htab
        obtain rfl := List.mem_singleton.1 (List.mem_of_getElem? htab)
        split_ifs <;> simp [Tab.results, Tab.post, Post.result]
      rw [hnone, hresults, h.unknown hle, List.append_nil]
  unknown hle := by
    simp only [Worker.connect, List.length_append, List.length_singleton] at hle
    exact h.unknown (by omega)

theorem answered_step {w : Worker E} (hs : w.Sound) {t : ℕ} {asked : List ℤ}
    (h : w.Answered t asked) (ev : Event E) : (w.step ev).Answered t (asked ++ w.asks t ev) := by
  -- only a request for the erase is asked for
  have hmute {w' : Worker E} (hm : w.Mute w') : w'.Answered t (asked ++ []) := by
    rw [List.append_nil]
    exact h.mute hm
  cases ev with
  | connect => exact (List.append_nil asked).symm ▸ h.connect hs
  | message t' m =>
    by_cases hears : w.hears t'
    swap
    · have hnone : w.asks t (.message t' m) = [] := by
        unfold asks
        split
        next heq =>
          obtain ⟨rfl, rfl⟩ := Event.message.inj heq
          exact if_neg (by rintro ⟨rfl, hnow, -⟩; exact hears hnow)
        next => rfl
      rw [hnone, step, if_neg hears]
      exact hmute (.of_eq rfl)
    rw [step, if_pos hears]
    cases m with
    | hello data => exact hmute (w.mute_sayHello t' data)
    | depart => exact hmute (w.quiet_depart t').mute
    | kdfResponse id key error => exact hmute (w.quiet_kdfResponse t' id key error).mute
    | eraseFailedDevice request => exact h.eraseFailedDevice hs hears request
    | framePort session => exact hmute (w.quiet_framePort t' session).mute
  | locked failure => exact hmute (w.mute_locked failure)
  | loaded failure => exact hmute (w.mute_loaded failure)
  | booted failure => exact hmute (w.mute_booted failure)
  | erased failure => exact (List.append_nil asked).symm ▸ h.erased failure
  | push ev => exact hmute (w.quiet_push ev).mute
  | poll => exact hmute w.quiet_poll.mute
  | answered => exact hmute w.quiet_answered.mute
  | stopped => exact hmute w.quiet_stopped.mute
  | next t' =>
    refine hmute ?_
    simp only [step]
    split_ifs
    · exact w.mute_update t' fun tab _ hopen => ⟨hopen, rfl⟩
    · exact .of_eq rfl
  | backup t' =>
    refine hmute ?_
    simp only [step]
    split_ifs
    · exact (w.quiet_backup t').mute
    · exact .of_eq rfl
  | backedUp => exact hmute (.of_eq rfl)
  | derive operation passphrase salt => exact hmute (w.quiet_derive operation passphrase salt).mute
  | timeout n => exact hmute (w.quiet_timeout n).mute

theorem answered_run {w : Worker E} (hs : w.Sound) {t : ℕ} {before : List ℤ}
    (h : w.Answered t before) (ls : List (Event E)) :
    (run step w ls).Answered t (before ++ asked t w ls) := by
  induction ls generalizing w before with
  | nil => exact (List.append_nil before).symm ▸ h
  | cons ev ls ih =>
    rw [run_cons, asked, ← List.append_assoc]
    exact ih (sound_step w ev hs) (answered_step hs h ev)

theorem answered_start (t : ℕ) : ({} : Worker E).Answered t [] :=
  ⟨by simp, fun _ => rfl⟩

/-! ## The first hello -/

/-- The hello that is heard with an event. -/
def heardHello (w : Worker E) : Event E → Option Hello
  | .message t (.hello data) =>
    if w.hears t then
      some { data with
        driveApi := optional data.driveApi, driveOauth := optional data.driveOauth }
    else none
  | _ => none

/-- The hello that is heard first in the course of a run. -/
def firstHello : Worker E → List (Event E) → Option Hello
  | _, [] => none
  | w, ev :: ls => (w.heardHello ev).or (firstHello (w.step ev) ls)

theorem Quiet.hello {w w' : Worker E} (h : w.Quiet w') : w'.hello = w.hello :=
  congrArg Core.hello h.core

theorem hello_fail (w : Worker E) (message : String) : (w.fail message).hello = w.hello := by
  unfold fail
  refine (quiet_foldl _ (fun w _ _ => ?_) _).hello
  exact w.quiet_post _ (m := .framePortFailed _ _) (fun _ => trivial) rfl

theorem hello_live (w : Worker E) : w.live.hello = w.hello := by
  unfold live
  refine (quiet_foldl _ (fun w _ _ => ?_) _).hello
  exact w.quiet_post _ (m := .framePort _) (fun _ => trivial) rfl

theorem hello_foldl_post {β : Type} (t : β → ℕ) (m : β → Post) (l : List β) (w : Worker E) :
    (l.foldl (fun w b => w.post (t b) (m b)) w).hello = w.hello := by
  induction l generalizing w with
  | nil => rfl
  | cons b l ih => exact ih _

theorem hello_answerErase (w : Worker E) (error : Option String) :
    (w.answerErase error).hello = w.hello :=
  hello_foldl_post _ _ _ _

theorem hello_erased (w : Worker E) (failure : Option String) :
    (w.erased failure).hello = w.hello := by
  unfold erased
  split
  · rfl
  · exact hello_answerErase _ _
  · exact hello_answerErase _ _
  · exact hello_answerErase _ _
  · rfl

theorem hello_eraseFailedDevice (w : Worker E) (t : ℕ) (request : Option ℤ) :
    (w.eraseFailedDevice t request).hello = w.hello := by
  unfold eraseFailedDevice
  split
  · rfl
  · split
    · rfl
    · split
      · rfl
      · split <;> rfl
      · rfl
      · rfl

theorem hello_tellFailure (w : Worker E) (t : ℕ) : (w.tellFailure t).hello = w.hello := by
  unfold tellFailure
  split <;> rfl

theorem hello_sayHello (w : Worker E) (t : ℕ) (data : Hello) :
    (w.sayHello t data).hello = w.hello.or (some { data with
      driveApi := optional data.driveApi, driveOauth := optional data.driveOauth }) := by
  unfold sayHello
  split
  next hnone => exact (hello_tellFailure _ t).trans (by simp [hnone, update])
  next hello hhello =>
    rw [hhello, Option.some_or]
    split_ifs
    · exact (quiet_depart _ t).hello.trans hhello
    · exact (hello_tellFailure _ t).trans hhello

/-- Only the first hello is kept. -/
theorem hello_step (w : Worker E) (ev : Event E) :
    (w.step ev).hello = w.hello.or (w.heardHello ev) := by
  -- whatever is no hello leaves it alone
  have hkept {w' : Worker E} (h : w'.hello = w.hello) : w'.hello = w.hello.or none :=
    h.trans (Option.or_none).symm
  cases ev with
  | connect => exact hkept rfl
  | message t m =>
    cases m with
    | hello data =>
      simp only [step, heardHello]
      split_ifs
      · exact w.hello_sayHello t data
      · exact hkept rfl
    | depart =>
      refine hkept ?_
      simp only [step]
      split_ifs
      · exact (w.quiet_depart t).hello
      · rfl
    | kdfResponse id key error =>
      refine hkept ?_
      simp only [step]
      split_ifs
      · exact (w.quiet_kdfResponse t id key error).hello
      · rfl
    | eraseFailedDevice request =>
      refine hkept ?_
      simp only [step]
      split_ifs
      · exact w.hello_eraseFailedDevice t request
      · rfl
    | framePort session =>
      refine hkept ?_
      simp only [step]
      split_ifs
      · exact (w.quiet_framePort t session).hello
      · rfl
  | locked failure =>
    refine hkept ?_
    simp only [step, locked]
    split
    · rfl
    · exact w.hello_fail _
    · rfl
  | loaded failure =>
    refine hkept ?_
    simp only [step, loaded]
    split
    · rfl
    · exact w.hello_fail _
    · rfl
  | booted failure =>
    refine hkept ?_
    simp only [step, booted]
    split
    · exact w.hello_live
    · exact w.hello_fail _
    · rfl
  | erased failure => exact hkept (w.hello_erased failure)
  | push ev => exact hkept (w.quiet_push ev).hello
  | poll => exact hkept w.quiet_poll.hello
  | answered => exact hkept w.quiet_answered.hello
  | stopped => exact hkept w.quiet_stopped.hello
  | next t =>
    refine hkept ?_
    simp only [step]
    split_ifs <;> rfl
  | backup t =>
    refine hkept ?_
    simp only [step]
    split_ifs
    · exact (w.quiet_backup t).hello
    · rfl
  | backedUp => exact hkept rfl
  | derive operation passphrase salt => exact hkept (w.quiet_derive operation passphrase salt).hello
  | timeout n => exact hkept (w.quiet_timeout n).hello

theorem hello_run (w : Worker E) (ls : List (Event E)) :
    (run step w ls).hello = w.hello.or (w.firstHello ls) := by
  induction ls generalizing w with
  | nil => exact (Option.or_none).symm
  | cons ev ls ih =>
    rw [run_cons, ih, hello_step, Option.or_assoc]
    rfl

theorem sound_run (ls : List (Event E)) : Sound (run step ({} : Worker E) ls) :=
  run_preserves sound_step sound_start ls

end Worker

/-- What the worker has done to its device. -/
structure Worker.OneDevice (w : Worker E) (hello : Hello) : Prop where
  /-- The kernel is booted once at most, and under the lock. -/
  boots : w.boots = [] ∨ w.boots = [hello] ∧ w.deviceLock
  /-- No other device is removed. -/
  removed : ∀ device ∈ w.removed, device = hello.device
  /-- Its own is only when the kernel's boot has failed. -/
  failed : w.removed ≠ [] → w.boots = [hello] ∧ w.ready = .rejected

/-- The device of a worker is the one that the first hello named, whatever happens later: its kernel
is booted once at most, with what that hello said and under its lock, and it alone is ever removed,
when its boot has been called and has failed. Before any hello, nothing is booted or removed. -/
theorem booted_or_erased (ls ms : List (Event E)) :
    (({} : Worker E).firstHello ls = none →
        (run Worker.step ({} : Worker E) ls).boots = [] ∧
          (run Worker.step ({} : Worker E) ls).removed = []) ∧
      ∀ hello, ({} : Worker E).firstHello ls = some hello →
        (run Worker.step ({} : Worker E) (ls ++ ms)).OneDevice hello := by
  constructor
  · intro hfirst
    have h := Worker.sound_run (E := E) ls
    have hnone : (run Worker.step ({} : Worker E) ls).hello = none :=
      (Worker.hello_run _ ls).trans hfirst
    generalize run Worker.step ({} : Worker E) ls = w at h hnone
    have hcore : w.core.hello = none := hnone
    refine ⟨?_, List.eq_nil_iff_forall_not_mem.2 fun device hdevice => ?_⟩
    · have hboots := h.core.boots
      rw [hcore] at hboots
      show w.core.boots = []
      simpa using hboots
    · obtain ⟨⟨hello, hsome, -⟩, -⟩ := h.core.removed device hdevice
      simp [hcore] at hsome
  · intro hello hfirst
    have hlater : (run Worker.step ({} : Worker E) (ls ++ ms)).hello = some hello := by
      have hnow : (run Worker.step ({} : Worker E) ls).hello = some hello :=
        (Worker.hello_run _ ls).trans hfirst
      rw [run_append, Worker.hello_run, hnow, Option.some_or]
    have h := Worker.sound_run (E := E) (ls ++ ms)
    generalize run Worker.step ({} : Worker E) (ls ++ ms) = w at h hlater
    have hcore : w.core.hello = some hello := hlater
    have hboots := h.core.boots
    have hstage := h.core.stage
    rw [hcore] at hboots
    refine ⟨?_, fun device hdevice => ?_, fun hremoved => ?_⟩
    · obtain hstarted | hstarted := Bool.eq_false_or_eq_true w.core.kernelBootStarted
      · refine .inr ⟨hboots.trans (if_pos hstarted), ?_⟩
        show w.core.deviceLock
        cases hstage <;> simp_all
      · exact .inl (hboots.trans (if_neg (by simp [hstarted])))
    · obtain ⟨⟨hello', hsome, rfl⟩, -⟩ := h.core.removed device hdevice
      rw [hcore] at hsome
      exact congrArg Hello.device (Option.some.inj hsome).symm
    · obtain ⟨device, hdevice⟩ := List.exists_mem_of_ne_nil _ hremoved
      obtain ⟨-, hfailed⟩ := h.core.removed device hdevice
      have hrejected : w.core.ready = .rejected ∧ w.core.kernelBootStarted := by
        cases hstage <;> simp_all
      exact ⟨hboots.trans (if_pos hrejected.2), hrejected.1⟩

/-- In every run, every tab was told only what is so, and every tab that said hello has been told
what became of the boot. Whatever an open tab asked to have erased is answered, in its order, but
for what waits for an erase under way. -/
theorem tabs_told (ls : List (Event E)) :
    (∀ tab ∈ (run Worker.step ({} : Worker E) ls).tabs,
      tab.Told (run Worker.step ({} : Worker E) ls).core) ∧
      (∀ t tab, (run Worker.step ({} : Worker E) ls).tabs[t]? = some tab → tab.isOpen →
        tab.results ++ (run Worker.step ({} : Worker E) ls).pending t =
          Worker.asked t ({} : Worker E) ls) ∧
      ((run Worker.step ({} : Worker E) ls).failedDeviceErase = .idle ∨
          (run Worker.step ({} : Worker E) ls).failedDeviceErase = .done →
        (run Worker.step ({} : Worker E) ls).eraseRequests = []) :=
  ⟨(Worker.sound_run ls).tabs,
    fun t => (Worker.answered_run Worker.sound_start (Worker.answered_start t) ls).known,
    (Worker.sound_run ls).requests⟩

end Polyvisor.SharedWorker
