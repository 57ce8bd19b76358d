import Polyvisor.Web.Worker

/-!
# The kernel's events, up to the tabs

What becomes of an event that the kernel pushes: it stays in the kernel's queue, is carried by the
pump, and goes to the backlog of every tab that is connected.

## Main results

* `events_delivered`: in every run, nothing is lost or doubled before the tabs, and whatever a tab
  was offered while it was connected it takes, has queued or has dropped, in their order, with none
  dropped but the oldest ones beyond 64 that it leaves lying.
-/

namespace Polyvisor.SharedWorker

open Transition

variable {E : Type}

/-- The event the pump has taken out of the queue. -/
def Pump.carried : Pump E → List E
  | .carrying ev => [ev]
  | _ => []

/-- A tab's backlog is lawful; it heard what was fanned out since it connected, in order, and all of
it if it never left. -/
structure Tab.Served (fanned : List E) (tab : Tab E) : Prop where
  lawful : tab.backlog.Lawful queueLimit
  joined : tab.joined ≤ fanned.length
  heard : tab.backlog.heard.Sublist (fanned.drop tab.joined)
  all : tab.left = false → tab.connected ∧ tab.backlog.heard = fanned.drop tab.joined

/-- Only a hello takes `ready` on. -/
def Worker.Greeted (w : Worker E) : Prop :=
  w.hello = none → w.ready = .helloed

/-- What the events of the kernel have come to. -/
structure Worker.Served (w : Worker E) : Prop where
  whole : w.fanned ++ w.pump.carried ++ w.queue = w.pushed
  /-- The pump sleeps over an empty queue only, and the kernel has its waker. -/
  parked : w.pump = .parked → w.queue = [] ∧ w.waker
  waker : w.waker → w.queue = [] ∧ (w.pump = .parked ∨ w.pump = .stopped)
  idle : w.ready ≠ .resolved → w.pump = .idle
  greeted : w.Greeted
  tabs : ∀ tab ∈ w.tabs, tab.Served w.fanned

/-! ## What leaves the events alone -/

/-- The tab heard, took and waits as before; it is still connected if it has never left. -/
def Tab.Same (tab tab' : Tab E) : Prop :=
  tab'.backlog = tab.backlog ∧ tab'.joined = tab.joined ∧
    (tab'.left = false → tab.left = false ∧ (tab.connected → tab'.connected))

theorem Tab.Same.refl (tab : Tab E) : tab.Same tab :=
  ⟨rfl, rfl, fun h => ⟨h, id⟩⟩

theorem Tab.Same.trans {tab tab' tab'' : Tab E} (h : tab.Same tab') (h' : tab'.Same tab'') :
    tab.Same tab'' :=
  ⟨h'.1.trans h.1, h'.2.1.trans h.2.1, fun hleft =>
    ⟨(h.2.2 (h'.2.2 hleft).1).1, (h'.2.2 hleft).2 ∘ (h.2.2 (h'.2.2 hleft).1).2⟩⟩

theorem Tab.same_post (m : Post) (tab : Tab E) : tab.Same (tab.post m) := by
  unfold Tab.post
  split_ifs
  · exact ⟨rfl, rfl, fun h => ⟨h, id⟩⟩
  · exact .refl tab

theorem Tab.same_leave (tab : Tab E) : tab.Same tab.leave :=
  ⟨rfl, rfl, fun h => by simp [Tab.leave] at h⟩

theorem Tab.Same.ite {tab tab' : Tab E} (h : tab.Same tab') (c : Prop) [Decidable c] :
    tab.Same (if c then tab' else tab) := by
  split_ifs
  · exact h
  · exact .refl tab

theorem Tab.Served.same {fanned : List E} {tab tab' : Tab E} (h : tab.Served fanned)
    (hsame : tab.Same tab') : tab'.Served fanned := by
  obtain ⟨hbacklog, hjoined, hleft⟩ := hsame
  refine ⟨hbacklog ▸ h.lawful, hjoined ▸ h.joined, ?_, fun hstay => ?_⟩
  · rw [hbacklog, hjoined]
    exact h.heard
  · obtain ⟨hbefore, hconnected⟩ := hleft hstay
    rw [hbacklog, hjoined]
    exact ⟨hconnected (h.all hbefore).1, (h.all hbefore).2⟩

namespace Worker

/-- What a step leaves of the events: everything but what it may post. -/
structure Beside (w w' : Worker E) : Prop where
  tabs : ∀ tab' ∈ w'.tabs, ∃ tab ∈ w.tabs, tab.Same tab'
  heard : w'.tabs.map (·.backlog.heard) = w.tabs.map (·.backlog.heard)
  pump : w'.pump = w.pump
  queue : w'.queue = w.queue
  waker : w'.waker = w.waker
  pushed : w'.pushed = w.pushed
  fanned : w'.fanned = w.fanned
  ready : w'.ready = .resolved ↔ w.ready = .resolved
  greeted : w.Greeted → w'.Greeted

theorem Beside.trans {w w' w'' : Worker E} (h : w.Beside w') (h' : w'.Beside w'') :
    w.Beside w'' where
  tabs tab'' hmem := by
    obtain ⟨tab', hmem', hsame'⟩ := h'.tabs tab'' hmem
    obtain ⟨tab, hmem, hsame⟩ := h.tabs tab' hmem'
    exact ⟨tab, hmem, hsame.trans hsame'⟩
  heard := h'.heard.trans h.heard
  pump := h'.pump.trans h.pump
  queue := h'.queue.trans h.queue
  waker := h'.waker.trans h.waker
  pushed := h'.pushed.trans h.pushed
  fanned := h'.fanned.trans h.fanned
  ready := h'.ready.trans h.ready
  greeted := h'.greeted ∘ h.greeted

theorem Served.beside {w w' : Worker E} (h : w.Served) (hb : w.Beside w') : w'.Served where
  whole := by rw [hb.fanned, hb.pump, hb.queue, hb.pushed, h.whole]
  parked hp := by
    rw [hb.queue, hb.waker]
    exact h.parked (hb.pump ▸ hp)
  waker hw := by
    rw [hb.queue, hb.pump]
    exact h.waker (hb.waker ▸ hw)
  idle hr := by
    rw [hb.pump]
    exact h.idle (hb.ready.not.1 hr)
  greeted := hb.greeted h.greeted
  tabs tab' hmem := by
    obtain ⟨tab, htab, hsame⟩ := hb.tabs tab' hmem
    rw [hb.fanned]
    exact (h.tabs tab htab).same hsame

/-- Nothing but fields that no event is in has changed. -/
theorem Beside.of_eq {w w' : Worker E}
    (h : (w'.tabs, w'.pump, w'.queue, w'.waker, w'.pushed, w'.fanned, w'.ready, w'.hello) =
      (w.tabs, w.pump, w.queue, w.waker, w.pushed, w.fanned, w.ready, w.hello)) :
    w.Beside w' := by
  simp only [Prod.mk.injEq] at h
  obtain ⟨htabs, hpump, hqueue, hwaker, hpushed, hfanned, hready, hhello⟩ := h
  exact ⟨fun tab hmem => ⟨tab, htabs ▸ hmem, .refl tab⟩, by rw [htabs], hpump, hqueue, hwaker,
    hpushed, hfanned, by rw [hready], fun h hnone => hready ▸ h (hhello ▸ hnone)⟩

theorem Beside.refl (w : Worker E) : w.Beside w :=
  .of_eq rfl

/-- What the tabs heard, when one of them has heard no more. -/
theorem heard_update (w : Worker E) (t : ℕ) {f : Tab E → Tab E}
    (hf : ∀ tab : Tab E, (f tab).backlog.heard = tab.backlog.heard) :
    (w.update t f).tabs.map (·.backlog.heard) = w.tabs.map (·.backlog.heard) := by
  refine List.ext_getElem? fun n => ?_
  simp only [update, List.getElem?_map, List.getElem?_modify, Option.map_eq_map, Option.map_map]
  congr 1
  funext tab
  simp only [Function.comp_apply]
  split_ifs
  · exact hf tab
  · rfl

theorem beside_update (w : Worker E) (t : ℕ) {f : Tab E → Tab E}
    (hf : ∀ tab : Tab E, tab.Same (f tab)) : w.Beside (w.update t f) :=
  { Beside.refl w with
    heard := w.heard_update t fun tab => by rw [(hf tab).1]
    tabs := by
      intro tab' hmem
      obtain ⟨n, hn⟩ := List.getElem?_of_mem hmem
      simp only [update, List.getElem?_modify] at hn
      obtain ⟨tab, htab, hf'⟩ := Option.map_eq_some_iff.1 hn
      refine ⟨tab, List.mem_of_getElem? htab, ?_⟩
      rw [← hf']
      split_ifs
      · exact hf tab
      · exact .refl tab }

theorem beside_each (w : Worker E) {f : Tab E → Tab E} (hf : ∀ tab : Tab E, tab.Same (f tab)) :
    w.Beside (w.each f) :=
  { Beside.refl w with
    heard := by
      rw [each, List.map_map]
      exact List.map_congr_left fun tab _ => congrArg Backlog.heard (hf tab).1
    tabs := by
      intro tab' hmem
      obtain ⟨tab, htab, hf'⟩ := List.mem_map.1 hmem
      exact ⟨tab, htab, hf' ▸ hf tab⟩ }

theorem beside_post (w : Worker E) (t : ℕ) (m : Post) : w.Beside (w.post t m) :=
  w.beside_update t (Tab.same_post m)

theorem beside_foldl {β : Type} {f : Worker E → β → Worker E}
    (hf : ∀ (w : Worker E) b, w.Beside (f w b))
    (w : Worker E) (l : List β) : w.Beside (l.foldl f w) := by
  induction l generalizing w with
  | nil => exact .refl w
  | cons b l ih => exact (hf w b).trans (ih (f w b))

theorem beside_settle (w : Worker E) (n : ℕ) (request : KdfRequest)
    (outcome : Except String Bytes) : w.Beside (w.settle n request outcome) :=
  .of_eq rfl

theorem beside_depart (w : Worker E) (t : ℕ) : w.Beside (w.depart t) :=
  (w.beside_update t Tab.same_leave).trans <|
    beside_foldl (fun w _ => (w.beside_post t _).trans (beside_settle _ _ _ _)) _ _

theorem beside_derive (w : Worker E) (operation : ℕ) (passphrase : String) (salt : Bytes) :
    w.Beside (w.derive operation passphrase salt) := by
  unfold derive
  split_ifs
  · exact .refl w
  · split
    · exact .refl w
    · split_ifs
      · exact .refl w
      · exact Beside.trans (.of_eq (by rfl)) (beside_post _ _ _)

theorem beside_timeout (w : Worker E) (n : ℕ) : w.Beside (w.timeout n) := by
  unfold timeout
  split
  · exact .refl w
  · split_ifs
    · exact (beside_settle _ _ _ _).trans (beside_post _ _ _)
    · exact .refl w

theorem beside_kdfResponse (w : Worker E) (t id : ℕ) (key : Option Bytes)
    (error : Option String) : w.Beside (w.kdfResponse t id key error) := by
  unfold kdfResponse
  split
  · exact .refl w
  · split
    · exact .refl w
    · split_ifs
      · exact .refl w
      · exact beside_settle _ _ _ _

theorem beside_backup (w : Worker E) (t : ℕ) : w.Beside (w.backup t) := by
  unfold backup
  split_ifs
  · exact .of_eq rfl
  · exact .refl w

theorem beside_fail (w : Worker E) (message : String) (h : w.ready ≠ .resolved)
    (h' : w.ready ≠ .helloed) : w.Beside (w.fail message) := by
  have hrejected : w.Beside { w with ready := .rejected } :=
    { Beside.refl w with
      ready := by simp [h]
      greeted := fun hw hnone => absurd (hw hnone) h' }
  refine hrejected.trans ?_
  refine Beside.trans (.trans (.of_eq (by rfl)) (beside_each _ fun tab => ?_))
    (.trans (.of_eq (by rfl)) (beside_foldl (fun w _ => w.beside_post _ _) _ _))
  exact (Tab.same_post _ tab).ite _

theorem beside_tellFailure (w : Worker E) (t : ℕ) : w.Beside (w.tellFailure t) := by
  unfold tellFailure
  split
  · exact .refl w
  · exact beside_post _ _ _

theorem beside_answerErase (w : Worker E) (error : Option String) :
    w.Beside (w.answerErase error) :=
  Beside.trans (.of_eq (by rfl)) (beside_foldl (fun w _ => w.beside_post _ _) _ _)

theorem beside_eraseFailedDevice (w : Worker E) (t : ℕ) (request : Option ℤ) :
    w.Beside (w.eraseFailedDevice t request) := by
  unfold eraseFailedDevice
  split
  · exact .refl w
  · split
    · exact .refl w
    · split
      · exact beside_post _ _ _
      · split
        · exact .of_eq rfl
        · exact beside_post _ _ _
      · exact beside_post _ _ _
      · exact .of_eq rfl

theorem beside_erased (w : Worker E) (failure : Option String) :
    w.Beside (w.erased failure) := by
  unfold erased
  split
  · exact .of_eq rfl
  · refine Beside.trans (.trans (.of_eq (by rfl)) (beside_each _ fun tab => ?_))
      (beside_answerErase _ _)
    exact (Tab.same_post _ tab).ite _
  · exact Beside.trans (.of_eq (by rfl)) (beside_answerErase _ _)
  · exact Beside.trans (.of_eq (by rfl)) (beside_answerErase _ _)
  · exact .refl w

theorem beside_framePort (w : Worker E) (t session : ℕ) : w.Beside (w.framePort t session) := by
  unfold framePort
  split
  · exact beside_post _ _ _
  · exact beside_post _ _ _
  · exact .of_eq rfl

theorem beside_sayHello (w : Worker E) (t : ℕ) (data : Hello) (h : w.Greeted) :
    w.Beside (w.sayHello t data) := by
  unfold sayHello
  split
  next hnone =>
    have hwaits : w.ready ≠ .resolved := by simp [h hnone]
    have hgreeted (hello : Hello) : w.Beside { w with hello := some hello, ready := .locking } :=
      { Beside.refl w with
        ready := by simp [hwaits]
        greeted := fun _ hsome => by simp at hsome }
    refine ((hgreeted _).trans (beside_update _ _ ?_)).trans (beside_tellFailure _ _)
    exact fun tab => ⟨rfl, rfl, fun h => ⟨h, id⟩⟩
  next hello _ =>
    split_ifs
    · refine Beside.trans ((beside_post _ _ _).trans (beside_depart _ _)) (beside_update _ _ ?_)
      exact fun tab => ⟨rfl, rfl, fun h => ⟨h, id⟩⟩
    · refine Beside.trans (beside_update _ _ fun tab => ?_) (beside_tellFailure _ _)
      exact ⟨rfl, rfl, fun h => ⟨h, fun _ => rfl⟩⟩

/-! ## What moves the events -/

theorem heard_live (w : Worker E) :
    w.live.tabs.map (·.backlog.heard) = w.tabs.map (·.backlog.heard) :=
  ((beside_foldl (fun w _ => w.beside_post _ _) _ _).heard).trans
    (beside_each _ (Tab.same_post .booted)).heard

theorem Served.live {w : Worker E} (h : w.Served) (hbooting : w.ready = .booting) :
    w.live.Served := by
  have hidle : w.pump = .idle := h.idle (by simp [hbooting])
  -- a pump that has not started has left no waker
  have hnot : w.waker = false := by
    by_contra hwaker
    have := (h.waker (by simpa using hwaker)).2
    simp [hidle] at this
  have hwoken : Served { w with ready := .resolved, bootState := .live, pump := .woken } :=
    { whole := by simpa [hidle, Pump.carried] using h.whole
      parked := by simp
      waker := by simp [hnot]
      idle := by simp
      greeted := fun hnone => by simp [h.greeted hnone] at hbooting
      tabs := h.tabs }
  refine hwoken.beside (.trans (beside_each _ (Tab.same_post .booted)) ?_)
  exact .trans (.of_eq (by rfl)) (beside_foldl (fun w _ => w.beside_post _ _) _ _)

theorem beside_locked (w : Worker E) (failure : Option String) : w.Beside (w.locked failure) := by
  unfold Worker.locked
  split
  next hready => exact { Beside.refl w with
    ready := by simp [hready]
    greeted := fun hw hnone => by simp [hw hnone] at hready }
  next hready => exact w.beside_fail _ (by simp [hready]) (by simp [hready])
  next => exact .refl w

theorem beside_loaded (w : Worker E) (failure : Option String) : w.Beside (w.loaded failure) := by
  unfold Worker.loaded
  split
  next hready => exact { Beside.refl w with
    ready := by simp [hready]
    greeted := fun hw hnone => by simp [hw hnone] at hready }
  next hready => exact w.beside_fail _ (by simp [hready]) (by simp [hready])
  next => exact .refl w

theorem Served.booted {w : Worker E} (h : w.Served) (failure : Option String) :
    (w.booted failure).Served := by
  unfold Worker.booted
  split
  next hready => exact h.live hready
  next hready => exact h.beside (w.beside_fail _ (by simp [hready]) (by simp [hready]))
  next => exact h

theorem Served.push {w : Worker E} (h : w.Served) (ev : E) : (w.push ev).Served := by
  have hwhole : w.fanned ++ w.pump.carried ++ (w.queue ++ [ev]) = w.pushed ++ [ev] := by
    rw [← h.whole, List.append_assoc _ w.queue]
  unfold Worker.push
  cases hwaker : w.waker with
  | true =>
    -- whoever sleeps is woken
    obtain ⟨hqueue, hparked | hstopped⟩ := h.waker hwaker
    · simp only [hparked, ↓reduceIte]
      -- the pump goes round again with the event in the queue
      refine ⟨?_, by simp, by simp, fun hr => ?_, h.greeted, h.tabs⟩
      · simpa [hparked, Pump.carried] using hwhole
      · simp [h.idle hr] at hparked
    · simp only [hstopped, ↓reduceIte]
      refine ⟨?_, by simp, by simp, fun hr => ?_, h.greeted, h.tabs⟩
      · simpa [hstopped, Pump.carried] using hwhole
      · simp [h.idle hr] at hstopped
  | false =>
    simp only [Bool.false_eq_true, ↓reduceIte]
    refine ⟨hwhole, fun hp => ?_, fun hw => ?_, h.idle, h.greeted, h.tabs⟩
    -- a parked pump would have left its waker
    · simp [(h.parked hp).2] at hwaker
    · simp at hw

theorem Served.poll {w : Worker E} (h : w.Served) : w.poll.Served := by
  unfold Worker.poll
  split
  next hwoken =>
    have hready : w.ready = .resolved := by
      by_contra hr
      simp [h.idle hr] at hwoken
    -- whoever sleeps sleeps over an empty queue
    have hwaker : w.queue ≠ [] → w.waker = false := by
      intro hqueue
      by_contra hw
      exact hqueue (h.waker (by simpa using hw)).1
    split
    next ev queue hqueue =>
      refine ⟨?_, by simp, fun hw => ?_, fun hr => absurd hready hr, h.greeted, h.tabs⟩
      · simpa [hwoken, hqueue, Pump.carried] using h.whole
      · simp [hwaker (by simp [hqueue])] at hw
    next hqueue =>
      refine ⟨?_, by simp [hqueue], by simp [hqueue], fun hr => absurd hready hr, h.greeted, h.tabs⟩
      simpa [hwoken, Pump.carried] using h.whole
  next => exact h

theorem Served.stopped {w : Worker E} (h : w.Served) : w.stopped.Served := by
  unfold Worker.stopped
  split
  next hpump =>
    refine ⟨by simpa [hpump, Pump.carried] using h.whole, by simp, fun hw => ?_, fun hr => ?_,
      h.greeted, h.tabs⟩
    -- the waker outlives the pump
    · exact ⟨(h.waker hw).1, .inr rfl⟩
    · simp [h.idle hr] at hpump
  next hpump =>
    refine ⟨by simpa [hpump, Pump.carried] using h.whole, by simp, fun hw => ?_, fun hr => ?_,
      h.greeted, h.tabs⟩
    · exact ⟨(h.waker hw).1, .inr rfl⟩
    · simp [h.idle hr] at hpump
  next => exact h

end Worker

/-- An event is fanned out. -/
theorem Tab.Served.offer {fanned : List E} {tab : Tab E} (h : tab.Served fanned) (ev : E) :
    (tab.offer ev).Served (fanned ++ [ev]) := by
  have hdrop : (fanned ++ [ev]).drop tab.joined = fanned.drop tab.joined ++ [ev] :=
    List.drop_append_of_le_length h.joined
  have hjoined : tab.joined ≤ (fanned ++ [ev]).length := by
    rw [List.length_append]
    exact Nat.le_add_right_of_le h.joined
  unfold Tab.offer
  -- a tab that left hears no more, and what it heard is still a part of what came
  split_ifs with hconnected
  · refine ⟨h.lawful.offer ev, hjoined, ?_, fun hleft => ⟨hconnected, ?_⟩⟩
    · rw [Backlog.heard_offer, hdrop]
      exact h.heard.append_right [ev]
    · rw [Backlog.heard_offer, hdrop, (h.all hleft).2]
  · refine ⟨h.lawful, hjoined, ?_, fun hleft => absurd (h.all hleft).1 hconnected⟩
    rw [hdrop]
    exact h.heard.trans (List.sublist_append_left _ _)

theorem Tab.Served.next {fanned : List E} {tab : Tab E} (h : tab.Served fanned) :
    Tab.Served fanned { tab with backlog := tab.backlog.next.1 } :=
  { lawful := h.lawful.next
    joined := h.joined
    heard := by simpa using h.heard
    all := by simpa using h.all }

namespace Worker

theorem Served.answered {w : Worker E} (h : w.Served) : w.answered.Served := by
  unfold Worker.answered
  split
  next ev hpump =>
    have hready : w.ready = .resolved := by
      by_contra hr
      simp [h.idle hr] at hpump
    refine ⟨?_, by simp [each], fun hw => ?_, fun hr => absurd hready hr, h.greeted, ?_⟩
    · simpa [hpump, Pump.carried, each] using h.whole
    · have := (h.waker hw).2
      simp [hpump] at this
    · intro tab' hmem
      obtain ⟨tab, htab, rfl⟩ := List.mem_map.1 hmem
      exact (h.tabs tab htab).offer ev
  next => exact h

theorem Served.update {w : Worker E} (h : w.Served) (t : ℕ) {f : Tab E → Tab E}
    (hf : ∀ tab : Tab E, tab.Served w.fanned → (f tab).Served w.fanned) : (w.update t f).Served :=
  { h with
    tabs := by
      intro tab' hmem
      obtain ⟨n, hn⟩ := List.getElem?_of_mem hmem
      simp only [Worker.update, List.getElem?_modify] at hn
      obtain ⟨tab, htab, rfl⟩ := Option.map_eq_some_iff.1 hn
      have hserved := h.tabs tab (List.mem_of_getElem? htab)
      split_ifs
      · exact hf tab hserved
      · exact hserved }

theorem Served.connect {w : Worker E} (h : w.Served) : w.connect.Served := by
  -- it joins behind all that was fanned out so far
  have hnew : Tab.Served w.fanned { joined := w.fanned.length } :=
    { lawful := Backlog.lawful_new
      joined := le_rfl
      heard := List.nil_sublist _
      all := fun _ => ⟨rfl, by simp⟩ }
  refine { h with tabs := fun tab hmem => ?_ }
  obtain hmem | hmem := List.mem_append.1 hmem
  · exact h.tabs tab hmem
  · rw [List.mem_singleton.1 hmem]
    exact hnew.same ((Tab.same_post _ _).ite _)

theorem Served.message {w : Worker E} (h : w.Served) (t : ℕ) (m : Message) :
    (w.message t m).Served := by
  cases m with
  | hello data => exact h.beside (w.beside_sayHello t data h.greeted)
  | depart => exact h.beside (w.beside_depart t)
  | kdfResponse id key error => exact h.beside (w.beside_kdfResponse t id key error)
  | eraseFailedDevice request => exact h.beside (w.beside_eraseFailedDevice t request)
  | framePort session => exact h.beside (w.beside_framePort t session)

theorem served_step (w : Worker E) (ev : Event E) (h : w.Served) : (w.step ev).Served := by
  cases ev with
  | connect => exact h.connect
  | message t m =>
    simp only [step]
    split_ifs
    · exact h.message t m
    · exact h
  | locked failure => exact h.beside (w.beside_locked failure)
  | loaded failure => exact h.beside (w.beside_loaded failure)
  | booted failure => exact h.booted failure
  | erased failure => exact h.beside (w.beside_erased failure)
  | push ev => exact h.push ev
  | poll => exact h.poll
  | answered => exact h.answered
  | stopped => exact h.stopped
  | next t =>
    simp only [step]
    split_ifs
    · exact h.update t fun tab htab => htab.next
    · exact h
  | backup t =>
    simp only [step]
    split_ifs
    · exact h.beside (w.beside_backup t)
    · exact h
  | backedUp => exact h.beside (.of_eq rfl)
  | derive operation passphrase salt => exact h.beside (w.beside_derive operation passphrase salt)
  | timeout n => exact h.beside (w.beside_timeout n)

theorem served_start : Served ({} : Worker E) :=
  { whole := rfl
    parked := by simp
    waker := by simp
    idle := fun _ => rfl
    greeted := fun _ => rfl
    tabs := by simp }

end Worker

/-! ## Delivery -/

namespace Worker

/-- What a tab heard. -/
def heardBy (w : Worker E) (t : ℕ) : List E :=
  ((w.tabs.map (·.backlog.heard))[t]?).getD []

/-- What a step offers a tab: what the pump carries, if it is answered and the tab connected. -/
def offers (w : Worker E) (t : ℕ) : Event E → List E
  | .answered => if (w.tabs[t]?.map Tab.connected).getD false then w.pump.carried else []
  | _ => []

/-- What the steps of a run offer a tab. -/
def offered (t : ℕ) : Worker E → List (Event E) → List E
  | _, [] => []
  | w, ev :: ls => w.offers t ev ++ offered t (w.step ev) ls

theorem heardBy_eq {w w' : Worker E}
    (h : w'.tabs.map (·.backlog.heard) = w.tabs.map (·.backlog.heard)) (t : ℕ) :
    w'.heardBy t = w.heardBy t := by
  rw [heardBy, heardBy, h]

theorem heardBy_connect (w : Worker E) (t : ℕ) : w.connect.heardBy t = w.heardBy t := by
  have hnew : (if w.ready = .resolved then Tab.post .booted { joined := w.fanned.length }
      else { joined := w.fanned.length } : Tab E).backlog.heard = [] := by
    rw [((Tab.same_post (E := E) .booted _).ite _).1]
  unfold connect heardBy
  dsimp only
  rw [List.map_append, List.map_singleton, hnew]
  rcases Nat.lt_or_ge t (w.tabs.map (·.backlog.heard)).length with hlt | hge
  · rw [List.getElem?_append_left hlt]
  · -- a new tab heard nothing
    rw [List.getElem?_append_right hge, List.getElem?_eq_none hge, List.getElem?_singleton]
    split_ifs
    all_goals rfl

theorem heardBy_answered (w : Worker E) (t : ℕ) :
    w.answered.heardBy t = w.heardBy t ++ w.offers t .answered := by
  unfold answered offers
  split
  next ev hpump =>
    rw [hpump, Pump.carried]
    unfold each heardBy
    dsimp only
    rw [List.map_map, List.getElem?_map, List.getElem?_map]
    rcases w.tabs[t]? with _ | tab
    · rfl
    · simp only [Option.map_some, Option.getD_some, Function.comp_apply, Tab.offer]
      split_ifs
      · exact Backlog.heard_offer ..
      · exact (List.append_nil _).symm
  next hpump =>
    have hnothing : w.pump.carried = [] := by
      unfold Pump.carried
      split
      next ev heq => exact absurd heq (hpump ev)
      next => rfl
    rw [hnothing, ite_self, List.append_nil]

/-- A tab hears in a step what the step offers it. -/
theorem heardBy_step {w : Worker E} (h : w.Served) (ev : Event E) (t : ℕ) :
    (w.step ev).heardBy t = w.heardBy t ++ w.offers t ev := by
  have hbeside {w' : Worker E} (hb : w.Beside w') : w'.heardBy t = w.heardBy t ++ [] := by
    rw [heardBy_eq hb.heard, List.append_nil]
  cases ev with
  | connect => exact (w.heardBy_connect t).trans (List.append_nil _).symm
  | message t' m =>
    simp only [step]
    split_ifs
    · cases m with
      | hello data => exact hbeside (w.beside_sayHello t' data h.greeted)
      | depart => exact hbeside (w.beside_depart t')
      | kdfResponse id key error => exact hbeside (w.beside_kdfResponse t' id key error)
      | eraseFailedDevice request => exact hbeside (w.beside_eraseFailedDevice t' request)
      | framePort session => exact hbeside (w.beside_framePort t' session)
    · exact hbeside (.refl w)
  | locked failure => exact hbeside (w.beside_locked failure)
  | loaded failure => exact hbeside (w.beside_loaded failure)
  | booted failure =>
    simp only [step, booted]
    split
    · rw [heardBy_eq w.heard_live]
      exact (List.append_nil _).symm
    next hready => exact hbeside (w.beside_fail _ (by simp [hready]) (by simp [hready]))
    · exact hbeside (.refl w)
  | erased failure => exact hbeside (w.beside_erased failure)
  | push ev =>
    refine (heardBy_eq ?_ t).trans (List.append_nil _).symm
    simp only [step, push]
    split_ifs
    all_goals rfl
  | poll =>
    refine (heardBy_eq ?_ t).trans (List.append_nil _).symm
    simp only [step, poll]
    split
    · split
      all_goals rfl
    · rfl
  | answered => exact w.heardBy_answered t
  | stopped =>
    refine (heardBy_eq ?_ t).trans (List.append_nil _).symm
    simp only [step, stopped]
    split
    all_goals rfl
  | next t' =>
    refine (heardBy_eq ?_ t).trans (List.append_nil _).symm
    simp only [step]
    split_ifs
    · exact w.heard_update t' fun tab => Backlog.heard_next _
    · rfl
  | backup t' =>
    simp only [step]
    split_ifs
    · exact hbeside (w.beside_backup t')
    · exact hbeside (.refl w)
  | backedUp => exact hbeside (.of_eq rfl)
  | derive operation passphrase salt => exact hbeside (w.beside_derive operation passphrase salt)
  | timeout n => exact hbeside (w.beside_timeout n)

/-- A tab hears in a run what the run offers it. -/
theorem heardBy_run {w : Worker E} (h : w.Served) (ls : List (Event E)) (t : ℕ) :
    (run step w ls).heardBy t = w.heardBy t ++ offered t w ls := by
  induction ls generalizing w with
  | nil => exact (List.append_nil _).symm
  | cons ev ls ih =>
    rw [run_cons, ih (served_step w ev h), heardBy_step h, offered, List.append_assoc]

end Worker

/-- What a tab gets of the events that it was offered while it was connected. -/
structure Tab.Delivered (fanned offered : List E) (tab : Tab E) : Prop where
  /-- Each of them has been taken, was dropped or is queued, in their order. -/
  whole : tab.backlog.gone.map Prod.fst ++ tab.backlog.queue = offered
  /-- It leaves 64 at most lying. -/
  bounded : tab.backlog.queue.length ≤ 64
  /-- It waits only if none is left. -/
  waits : tab.backlog.waiting → tab.backlog.queue = []
  /-- One is dropped only when 64 newer ones have come. -/
  oldest : ∀ n ev, tab.backlog.gone[n]? = some (ev, false) → n + 64 < offered.length
  /-- It is offered events that were fanned out after it connected, in their order. -/
  inOrder : offered.Sublist (fanned.drop tab.joined)
  /-- It is offered all of them, if it never left. -/
  complete : tab.left = false → offered = fanned.drop tab.joined

theorem Tab.Served.delivered {fanned : List E} {tab : Tab E} (h : tab.Served fanned) :
    tab.Delivered fanned tab.backlog.heard where
  whole := h.lawful.whole
  bounded := h.lawful.bounded
  waits := h.lawful.empty
  oldest := h.lawful.oldest
  inOrder := h.heard
  complete hleft := (h.all hleft).2

/-- A worker that has just started, after `ls`. -/
abbrev Worker.after (ls : List (Event E)) : Worker E :=
  run Worker.step {} ls

/-- In every run, what the kernel pushed was fanned out, is carried by the pump or is queued, in its
order; the pump sleeps over an empty queue only; and every tab is delivered what it was offered
while it was connected, in its order, all but the oldest ones beyond 64 that it leaves lying. If it
never left, that is all that was fanned out since it connected. -/
theorem events_delivered (ls : List (Event E)) :
    ((Worker.after ls).fanned ++ (Worker.after ls).pump.carried ++ (Worker.after ls).queue =
        (Worker.after ls).pushed) ∧
      ((Worker.after ls).pump = .parked → (Worker.after ls).queue = []) ∧
      ∀ (t : ℕ) (tab : Tab E), (Worker.after ls).tabs[t]? = some tab →
        tab.Delivered (Worker.after ls).fanned (Worker.offered t {} ls) := by
  have h : (Worker.after ls).Served := run_preserves Worker.served_step Worker.served_start ls
  refine ⟨h.whole, fun hp => (h.parked hp).1, fun t tab htab => ?_⟩
  have hheard : tab.backlog.heard = Worker.offered t {} ls := by
    have hrun := Worker.heardBy_run (E := E) Worker.served_start ls t
    rw [Worker.heardBy, List.getElem?_map, htab] at hrun
    exact hrun
  rw [← hheard]
  exact (h.tabs tab (List.mem_of_getElem? htab)).delivered

end Polyvisor.SharedWorker
