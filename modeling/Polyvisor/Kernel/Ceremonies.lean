import Polyvisor.Kernel.Pairing
import Polyvisor.Lib.Transition

/-!
# One ceremony and the next

The offer, the session and the phase are one slot each, and a ceremony that is over still has tasks
under way. An event of a ceremony touches a slot when it takes away or replaces what is there.

* `Isolated`: nothing is touched that belongs to a later ceremony, a ceremony that is refused a
  session touches no other one, and one that was cancelled binds no session.
* `ceremonies_isolated_iff`: it holds throughout a run iff no turn of it comes too late: none ends
  with a session in the slot or says a phase after another ceremony has begun, none clears a later
  offer, and none binds where there is a session or after a cancel.
* `offer_cleared_late`, `cancelled_bound`, `session_failed_late`: turns that do.
-/

namespace Polyvisor.Pairing

open Transition

/-- An event harms no other ceremony. -/
def Harmless (older : List Event) : Event → Prop
  | .touched ceremony target refused => target ≤ ceremony ∧ (refused → target = ceremony)
  | .bound ceremony => ∀ begun, .cancelled begun ∈ older → begun < ceremony
  | _ => True

/-- No event harms another ceremony. -/
def Isolated : List Event → Prop
  | [] => True
  | event :: older => Harmless older event ∧ Isolated older

theorem Isolated.of_append {events log : List Event} (h : Isolated (events ++ log)) :
    Isolated log := by
  induction events with
  | nil => exact h
  | cons event events ih => exact ih h.2

/-- The ceremony that a cancel or a second claim is about. -/
def Caller.actsFor : Caller → ℕ
  | .offer => 0
  | .claim _ => 0
  | .cancel begun => begun
  | .burn ceremony => ceremony

def Pc.actsFor : Pc → ℕ
  | .tearing caller _ _ => caller.actsFor
  | .burning ceremony _ => ceremony
  | _ => 0

namespace Kernel

/-! ## When a turn comes in time -/

/-- No ceremony has begun since. -/
def Latest (k : Kernel) (ceremony : ℕ) : Prop :=
  k.begun ≤ ceremony

/-- No later offer is there to be cleared. -/
def OfferInTime (k : Kernel) (ceremony : ℕ) : Prop :=
  ∀ offer ∈ k.offer, offer.ceremony ≤ ceremony

/-- A ceremony finds no session at its end, or no ceremony has begun since. -/
def EndInTime (k : Kernel) (ceremony : ℕ) : Prop :=
  k.session.isSome → k.Latest ceremony

/-- A ceremony that binds a session finds no other one, and was not cancelled. -/
structure BindInTime (k : Kernel) (ceremony : ℕ) : Prop where
  free : ∀ session ∈ k.session, session.ceremony = ceremony ∧ k.Latest ceremony
  kept : k.session = none → ∀ begun, .cancelled begun ∈ k.log → begun < ceremony

/-- A turn of a role. -/
def TurnInTime (k : Kernel) (t : Task) : Turn → Prop
  | .goOn _ _ => True
  | .say _ _ _ => k.Latest t.ceremony
  | .finish _ => (t.pc.isJoiner → k.OfferInTime t.ceremony) ∧ k.EndInTime t.ceremony

/-- The claim of an offer. -/
def ClaimInTime (k : Kernel) (token : Bytes) : Verdict → Prop
  | .claim ceremony => k.BindInTime ceremony ∧
    (k.session = none → token.length ≠ 16 → k.Latest ceremony)
  | _ => True

/-- What follows a tear-down. What the user asked for begins a ceremony of its own, a cancel
excepted. -/
def TornInTime (k : Kernel) : Caller → Prop
  | .offer | .claim _ => True
  | .cancel ceremony | .burn ceremony => k.OfferInTime ceremony ∧ k.Latest ceremony

/-- A task goes on in time. -/
def WakeInTime (blake3 : Bytes → Bytes) (k : Kernel) (t : Task) (answer : Answer) (seams : Seams) :
    Prop :=
  match t.pc, answer with
  | .tearing caller _ true, .ok => k.TornInTime caller
  | .burning ceremony true, .ok =>
    (∀ session ∈ k.session, session.ceremony ≤ ceremony) ∧
      (k.session = none → k.TornInTime (.burn ceremony))
  | .dialing, .dialed key =>
    if key = t.key then k.BindInTime t.ceremony else k.EndInTime t.ceremony
  | .dialing, .err _ => k.EndInTime t.ceremony
  | .reading, .frame frame => ∀ token commit, frame = some (.claim token commit) →
    k.ClaimInTime token (k.verdict token seams.now)
  | _, _ => ∀ turn ∈ t.turn blake3 k.me answer seams, k.TurnInTime t turn

/-- A step comes in time. -/
def InTime (blake3 : Bytes → Bytes) (k : Kernel) : Label → Prop
  | .wake id answer seams => ∀ t ∈ k.tasks[id]?, k.WakeInTime blake3 t answer seams
  | _ => True

/-! ## What the steps write down -/

section Log

variable {k : Kernel} {id ceremony : ℕ}

theorem isolated_touch {target : ℕ} :
    Isolated (k.note [.touched ceremony target false]).log ↔
      target ≤ ceremony ∧ Isolated k.log := by
  simp [note, Isolated, Harmless]

theorem isolated_setPhase (phase : Phase) :
    Isolated (k.setPhase ceremony phase).log ↔ k.speaker ≤ ceremony ∧ Isolated k.log := by
  simp [setPhase, note, Isolated, Harmless]

theorem isolated_clearOffer :
    Isolated (k.clearOffer ceremony).log ↔ k.OfferInTime ceremony ∧ Isolated k.log := by
  unfold clearOffer OfferInTime
  split
  · next hoffer => simp [hoffer]
  · next offer hoffer => simp [hoffer, note, Isolated, Harmless]

theorem isolated_finish (hsession : ∀ session ∈ k.session, session.cancelled = false)
    (refused : Bool) (outcome : Except String Unit) :
    Isolated (k.finish ceremony refused outcome).log ↔
      (∀ session ∈ k.session, session.ceremony ≤ ceremony ∧
        (refused → session.ceremony = ceremony) ∧ k.speaker ≤ ceremony) ∧ Isolated k.log := by
  unfold finish
  split
  · next hnone => simp [hnone]
  · next session hsome =>
    have hcancelled := hsession session hsome
    simp only [hcancelled, Bool.false_eq_true, if_false, isolated_setPhase, hsome]
    simp only [sever, note, Isolated, Harmless, List.singleton_append, Option.mem_some_iff,
      forall_eq']
    tauto

end Log

end Kernel

/-! ## Who is later than whom -/

/-- A task acts for ceremonies that have begun. -/
def Task.Bounded (begun : ℕ) (t : Task) : Prop :=
  t.ceremony ≤ begun ∧ t.pc.actsFor ≤ begun

namespace Kernel

/-- What every step keeps. As long as nothing was harmed the phase is the latest ceremony's. -/
structure Sound (k : Kernel) : Prop where
  offer : ∀ offer ∈ k.offer, offer.ceremony ≤ k.begun
  session : ∀ session ∈ k.session, session.ceremony ≤ k.begun ∧ session.cancelled = false
  tasks : ∀ t ∈ k.tasks, t.Bounded k.begun
  offering : ∀ code, k.phase = .offering code → ∀ offer ∈ k.offer, offer.ceremony = k.speaker
  speaker : Isolated k.log → k.speaker = k.begun

section Sound

variable {k : Kernel} {id ceremony : ℕ} {t : Task} {pc : Pc}

theorem Sound.mem (h : Sound k) (hid : k.tasks[id]? = some t) : t.Bounded k.begun :=
  h.tasks t (List.mem_of_getElem? hid)

theorem Sound.withTasks (h : Sound k) {tasks : List Task}
    (htasks : ∀ t ∈ tasks, t.Bounded k.begun) : Sound { k with tasks := tasks } :=
  ⟨h.offer, h.session, htasks, h.offering, h.speaker⟩

theorem Sound.modify (h : Sound k) (id : ℕ) (f : Task → Task)
    (hf : ∀ t, t.Bounded k.begun → (f t).Bounded k.begun) :
    Sound { k with tasks := k.tasks.modify id f } := by
  refine h.withTasks fun t ht => ?_
  obtain ⟨i, hi⟩ := List.getElem?_of_mem ht
  rw [List.getElem?_modify] at hi
  obtain ⟨t₀, ht₀, rfl⟩ := Option.map_eq_some_iff.1 hi
  have hbounded := h.tasks t₀ (List.mem_of_getElem? ht₀)
  split
  · exact hf t₀ hbounded
  · exact hbounded

theorem Sound.goto (h : Sound k) (id : ℕ) (hpc : pc.actsFor ≤ k.begun) : Sound (k.goto id pc) :=
  h.modify id _ fun _ ht => ⟨ht.1, hpc⟩

theorem Sound.sever (h : Sound k) (task : ℕ) : Sound (k.sever task) :=
  h.modify task _ fun _ ht => ht

theorem Sound.spawn (h : Sound k) (t : Task) (ht : t.Bounded k.begun) :
    Sound { k with tasks := k.tasks ++ [t] } := by
  refine h.withTasks fun x hx => ?_
  obtain hx | hx := List.mem_append.1 hx
  · exact h.tasks x hx
  · rwa [List.mem_singleton.1 hx]

theorem Sound.note (h : Sound k) (events : List Event) : Sound (k.note events) :=
  ⟨h.offer, h.session, h.tasks, h.offering, fun hisolated => h.speaker hisolated.of_append⟩

theorem Sound.setPhase (h : Sound k) (hceremony : ceremony ≤ k.begun) {phase : Phase}
    (hphase : ∀ code, phase = .offering code → ∀ offer ∈ k.offer, offer.ceremony = ceremony) :
    Sound (k.setPhase ceremony phase) where
  offer := h.offer
  session := h.session
  tasks := h.tasks
  offering := hphase
  speaker hisolated := by
    obtain ⟨hle, hold⟩ := (isolated_setPhase phase).1 hisolated
    rw [h.speaker hold] at hle
    exact Nat.le_antisymm hceremony hle

theorem Sound.takeSession (h : Sound k) : Sound { k with session := none } :=
  ⟨h.offer, nofun, h.tasks, h.offering, h.speaker⟩

theorem Sound.clearOffer (h : Sound k) (ceremony : ℕ) : Sound (k.clearOffer ceremony) where
  offer := by simp
  session := by simpa using h.session
  tasks := by simpa using h.tasks
  offering := by simp
  speaker hisolated := by
    rw [clearOffer_speaker, clearOffer_begun]
    exact h.speaker (isolated_clearOffer.1 hisolated).2

theorem Sound.bindSession (h : Sound k) (id : ℕ) (hceremony : ceremony ≤ k.begun) :
    Sound (k.bindSession id ceremony) := by
  have h' : Sound { k with session := some ⟨true, false, id, ceremony⟩ } := by
    refine ⟨h.offer, fun session hs => ?_, h.tasks, h.offering, h.speaker⟩
    obtain rfl := Option.some.inj hs
    exact ⟨hceremony, rfl⟩
  exact h'.note _

theorem Sound.finish (h : Sound k) (hceremony : ceremony ≤ k.begun) (refused : Bool)
    (outcome : Except String Unit) : Sound (k.finish ceremony refused outcome) := by
  unfold Kernel.finish
  split
  · exact h
  · next session _ =>
    have htaken := (h.takeSession.note [.touched ceremony session.ceremony refused]).sever
      session.task
    dsimp only
    split
    · exact htaken
    · refine htaken.setPhase hceremony fun code hcode => ?_
      cases outcome <;> cases hcode

theorem Sound.close (h : Sound k) (ht : t.Bounded k.begun) (id : ℕ) (joiner refused : Bool)
    (outcome : Except String Unit) : Sound (k.close id t joiner refused outcome) := by
  have hdone : Sound (k.goto id .done) := h.goto id (Nat.zero_le _)
  unfold Kernel.close
  dsimp only
  split
  · refine (hdone.clearOffer t.ceremony).finish ?_ refused outcome
    rw [clearOffer_begun]
    exact ht.1
  · exact hdone.finish ht.1 refused outcome

/-- A ceremony begins and says its phase. -/
theorem Sound.begin (h : Sound k) {offer : Option Offer} {tasks : List Task} {phase : Phase}
    (hoffer : ∀ o ∈ offer, o.ceremony = k.begun + 1)
    (htasks : ∀ t ∈ tasks, t.Bounded (k.begun + 1)) :
    Sound ({ k with begun := k.begun + 1, offer := offer, tasks := tasks }.setPhase (k.begun + 1)
      phase) where
  offer o ho := Nat.le_of_eq (hoffer o ho)
  session session hs := (h.session session hs).imp_left Nat.le_succ_of_le
  tasks := htasks
  offering _ _ := hoffer
  speaker _ := rfl

theorem Sound.afterTear (h : Sound k) (id : ℕ) (seams : Seams) {caller : Caller}
    (hcaller : caller.actsFor ≤ k.begun) :
    Sound (k.afterTear id seams caller) := by
  have hdone : Sound (k.goto id .done) := h.goto id (Nat.zero_le _)
  cases caller with
  | offer =>
    have hcleared : Sound ((k.clearOffer (k.begun + 1)).goto id .done) :=
      (h.clearOffer (k.begun + 1)).goto id (Nat.zero_le _)
    refine hcleared.begin (fun o ho => ?_) fun t ht => ?_
    · rw [← Option.some.inj ho]
    · exact (hcleared.tasks t ht).imp Nat.le_succ_of_le Nat.le_succ_of_le
  | claim code =>
    have hcleared : Sound ((k.clearOffer (k.begun + 1)).goto id .done) :=
      (h.clearOffer (k.begun + 1)).goto id (Nat.zero_le _)
    have hnone : ((k.clearOffer (k.begun + 1)).goto id .done).offer = none := clearOffer_offer
    rw [Kernel.afterTear]
    generalize (k.clearOffer (k.begun + 1)).goto id .done = k' at hcleared hnone
    refine (hcleared.note [.named (k'.begun + 1) code]).begin (fun o ho => ?_) fun t ht => ?_
    · rw [show (k'.note _).offer = none from hnone] at ho
      cases ho
    · obtain ht | ht := List.mem_append.1 ht
      · exact (hcleared.tasks t ht).imp Nat.le_succ_of_le Nat.le_succ_of_le
      · rw [List.mem_singleton.1 ht]
        exact ⟨Nat.le_refl _, Nat.zero_le _⟩
  | cancel begun =>
    exact (hdone.clearOffer begun).setPhase (by rw [clearOffer_begun]; exact hcaller) nofun
  | burn ceremony =>
    exact (hdone.clearOffer ceremony).setPhase (by rw [clearOffer_begun]; exact hcaller) nofun

theorem Sound.tearDown (h : Sound k) (id : ℕ) (seams : Seams) {caller : Caller}
    (hcaller : caller.actsFor ≤ k.begun) :
    Sound (k.tearDown id caller seams) := by
  unfold Kernel.tearDown
  split
  · exact h.afterTear id seams hcaller
  · next session _ =>
    exact (h.takeSession.note [.touched _ session.ceremony false]).goto id hcaller

theorem Sound.call (h : Sound k) (seams : Seams) {caller : Caller}
    (hcaller : caller.actsFor ≤ k.begun) : Sound (k.call caller seams) :=
  (h.spawn { pc := .done } ⟨Nat.zero_le _, Nat.zero_le _⟩).tearDown _ seams hcaller

theorem Sound.runClaimed (h : Sound k) (ht : t.Bounded k.begun) (id : ℕ) :
    Sound (k.runClaimed id t) := by
  unfold Kernel.runClaimed
  split
  · exact h.close ht id true true _
  · have hbound := (h.bindSession id ht.1).note [.joined id t.ceremony]
    dsimp only
    split
    · exact hbound.close ht id true false _
    · exact hbound.goto id (Nat.zero_le _)

theorem Sound.claimOffer (h : Sound k) (id : ℕ) (ht : t.Bounded k.begun) :
    Sound (k.claimOffer id t) := by
  refine ⟨fun o ho => ?_, h.session, fun x hx => ?_, fun code hcode o ho => ?_,
    (h.note _).speaker⟩
  · obtain ⟨o', ho', rfl⟩ := Option.map_eq_some_iff.1 ho
    exact h.offer o' ho'
  · obtain hx | rfl := List.mem_or_eq_of_mem_set hx
    exacts [h.tasks x hx, ht]
  · obtain ⟨o', ho', rfl⟩ := Option.map_eq_some_iff.1 ho
    exact h.offering code hcode o' ho'

theorem Sound.runJoiner (h : Sound k) (ht : t.Bounded k.begun) (id : ℕ) (frame : Option Frame)
    (seams : Seams) : Sound (k.runJoiner id t frame seams) := by
  unfold Kernel.runJoiner
  split
  · next token commit =>
    split
    · exact h.goto id (Nat.zero_le _)
    · exact h.goto id (Nat.zero_le _)
    · next ceremony hverdict =>
      obtain ⟨offer, hoffer, rfl⟩ := verdict_eq_burn hverdict
      exact h.goto id (h.offer offer hoffer)
    · next ceremony hverdict =>
      obtain ⟨offer, hoffer, rfl, -⟩ := verdict_eq_claim hverdict
      have hbounded : Task.Bounded k.begun { t with ceremony := offer.ceremony, token, commit } :=
        ⟨h.offer offer hoffer, ht.2⟩
      exact (h.claimOffer id hbounded).runClaimed hbounded id
  · exact h.goto id (Nat.zero_le _)

theorem Sound.runAdder (h : Sound k) (ht : t.Bounded k.begun) (id : ℕ) (seams : Seams) :
    Sound (k.runAdder id t seams) := by
  unfold Kernel.runAdder
  split
  · exact h.close ht id false true _
  · exact (h.bindSession id ht.1).goto id (Nat.zero_le _)

end Sound

end Kernel

/-- A turn of a role says no offer, and touches nothing by itself. -/
def Turn.Plain : Turn → Prop
  | .goOn events pc => (∀ event ∈ events, ∀ older, Harmless older event) ∧ pc.actsFor = 0
  | .say events phase pc => (∀ event ∈ events, ∀ older, Harmless older event) ∧ pc.actsFor = 0 ∧
    ∀ code, phase ≠ .offering code
  | .finish _ => True

section Turns

variable {t : Task} {blake3 : Bytes → Bytes}

theorem Task.plain_refuseFrame (frame : Option Frame) : (Task.refuseFrame frame).Plain := by
  unfold Task.refuseFrame
  split <;> trivial

theorem Task.plain_readAccept (nonceA : Bytes) (frame : Option Frame) :
    (t.readAccept nonceA frame).Plain := by
  unfold Task.readAccept
  split
  · split
    · trivial
    · split
      · trivial
      · exact ⟨nofun, rfl⟩
  · trivial
  · exact plain_refuseFrame frame

theorem Task.plain_confirmBoth (here there : Bool) (petname : String) (card : Bytes) (wake : Wake) :
    (t.confirmBoth here there petname card wake).Plain := by
  unfold Task.confirmBoth
  split
  · split
    · exact ⟨nofun, rfl⟩
    · exact ⟨nofun, rfl, nofun⟩
  · refine ⟨by simp [Harmless], ?_⟩
    split <;> rfl
  · exact plain_refuseFrame _

theorem Task.plain_readReveal (me nonceJ : Bytes) (frame : Option Frame) :
    (t.readReveal blake3 me nonceJ frame).Plain := by
  unfold Task.readReveal
  split
  · split
    · trivial
    · split
      · trivial
      · exact ⟨by simp [Harmless], rfl, nofun⟩
  · exact plain_refuseFrame frame

theorem Task.plain_readEnroll (seams : Seams) (frame : Option Frame) :
    (Task.readEnroll seams frame).Plain := by
  unfold Task.readEnroll
  split
  · split
    · trivial
    · split
      · trivial
      · exact ⟨nofun, rfl⟩
  · exact plain_refuseFrame frame

theorem Task.plain_turn {me : Bytes} {answer : Answer} {seams : Seams} {turn : Turn}
    (hturn : t.turn blake3 me answer seams = some turn) : turn.Plain := by
  have hfail : ∀ why, (Turn.finish (.error why)).Plain := fun _ => trivial
  unfold Task.turn at hturn
  split at hturn
  · exact of_onCall hturn ⟨nofun, rfl⟩ hfail
  · exact of_onFrame hturn (plain_readAccept _)
  · exact of_onCall hturn ⟨by simp [Harmless], rfl, nofun⟩ hfail
  · exact of_onFrame hturn fun frame => plain_confirmBoth _ _ _ _ _
  · exact of_onWake hturn (fun _ => plain_confirmBoth _ _ _ _ _) fun frame =>
      plain_confirmBoth _ _ _ _ _
  · exact of_onCall hturn ⟨by simp [Harmless], rfl⟩ hfail
  · exact of_onCall hturn ⟨by simp [Harmless], rfl⟩ hfail
  · exact of_onCall hturn ⟨nofun, rfl⟩ hfail
  · exact of_onCall hturn ⟨nofun, rfl⟩ hfail
  · exact of_onCall hturn ⟨nofun, rfl⟩ hfail
  · exact of_onFrame hturn fun _ => ⟨nofun, rfl⟩
  · exact of_onCall hturn trivial hfail
  · exact of_onCall hturn ⟨nofun, rfl⟩ hfail
  · exact of_onCall hturn ⟨nofun, rfl⟩ hfail
  · exact of_onFrame hturn (plain_readReveal _ _)
  · exact of_onWake hturn (fun _ => ⟨nofun, rfl⟩) plain_refuseFrame
  · exact of_onCall hturn ⟨nofun, rfl, nofun⟩ hfail
  · exact of_onFrame hturn (plain_readEnroll seams)
  · exact of_onCall hturn ⟨by simp [Harmless], rfl⟩ hfail
  · exact of_onCall hturn ⟨nofun, rfl⟩ hfail
  · split at hturn
    · exact Option.some.inj hturn ▸ trivial
    · exact Option.some.inj hturn ▸ trivial
    · cases hturn
  · cases hturn

end Turns

namespace Kernel

section Sound

variable {k : Kernel} {id : ℕ} {t : Task}

theorem Sound.perform (h : Sound k) (ht : t.Bounded k.begun) (id : ℕ) {turn : Turn}
    (hturn : turn.Plain) : Sound (k.perform id t turn) := by
  cases turn with
  | goOn events pc => exact (h.note events).goto id (hturn.2 ▸ Nat.zero_le _)
  | say events phase pc =>
    obtain ⟨-, hpc, hphase⟩ := hturn
    have hsaid := (h.note events).setPhase ht.1 fun code hcode => absurd hcode (hphase code)
    exact hsaid.goto id (hpc ▸ Nat.zero_le _)
  | finish outcome => exact h.close ht id t.pc.isJoiner false outcome

theorem Sound.respond (h : Sound k) (ht : t.Bounded k.begun) (id : ℕ) {turn : Option Turn}
    (hturn : ∀ turn' ∈ turn, turn'.Plain) : Sound (k.respond id t turn) := by
  cases turn with
  | none => exact h
  | some turn => exact h.perform ht id (hturn turn rfl)

theorem Sound.wake {blake3 : Bytes → Bytes} (h : Sound k) (id : ℕ) (answer : Answer)
    (seams : Seams) : Sound (k.wake id blake3 answer seams) := by
  unfold Kernel.wake
  split
  · exact h
  · next t hid =>
    have ht := h.mem hid
    have hacts := ht.2
    split
    · next hpc => exact h.goto id (by rw [hpc] at hacts; exact hacts)
    · next hpc => exact h.goto id (by rw [hpc] at hacts; exact hacts)
    · next hpc => exact (h.sever _).afterTear id seams (by rw [hpc] at hacts; exact hacts)
    · next hpc => exact h.goto id (by rw [hpc] at hacts; exact hacts)
    · next hpc => exact h.goto id (by rw [hpc] at hacts; exact hacts)
    · next hpc => exact h.tearDown id seams (by rw [hpc] at hacts; exact hacts)
    · split
      · exact (h.note _).runAdder ht id seams
      · exact h.close ht id false false _
    · exact h.close ht id false false _
    · exact h.runJoiner ht id _ seams
    · exact h.respond ht id fun turn hturn => Task.plain_turn hturn

theorem Sound.confirm (h : Sound k) : Sound k.confirm := by
  unfold Kernel.confirm
  split
  · next session _ hsession =>
    split
    · have hfired := h.modify session.task (fun t => { t with fired := true }) fun _ ht => ht
      have hsent : Sound { k with
          session := some { session with confirm := false }
          tasks := k.tasks.modify session.task fun t => { t with fired := true } } := by
        refine ⟨hfired.offer, fun s hs => ?_, hfired.tasks, hfired.offering, hfired.speaker⟩
        obtain rfl := Option.some.inj hs
        exact h.session session hsession
      exact hsent.note _
    · exact h
  · exact h

theorem Sound.status (h : Sound k) (now : ℕ) : Sound (k.status now) := by
  unfold Kernel.status
  split
  · next offer _ hoffer =>
    split
    · exact h.setPhase (h.offer offer hoffer) nofun
    · exact h
  · exact h

theorem sound_step (blake3 : Bytes → Bytes) (k : Kernel) (l : Label) (h : Sound k) :
    Sound (k.step blake3 l) := by
  cases l with
  | offer seams => exact h.call seams (Nat.zero_le _)
  | claim code seams =>
    rw [step]
    split
    · exact h
    · exact h.call seams (Nat.zero_le _)
  | confirm => exact h.confirm
  | cancel => exact (h.note [.cancelled k.begun]).call {} (Nat.le_refl _)
  | status now => exact h.status now
  | inbound key =>
    rw [step]
    split
    · exact h.spawn _ ⟨Nat.zero_le _, Nat.zero_le _⟩
    · exact h
  | wake id answer seams => exact h.wake id answer seams

end Sound

/-! ## Late turns are what harms -/

section Isolation

variable {k : Kernel} {id ceremony : ℕ} {t : Task}

theorem isolated_append {events log : List Event}
    (hevents : ∀ event ∈ events, ∀ older, Harmless older event) :
    Isolated (events ++ log) ↔ Isolated log := by
  induction events with
  | nil => rfl
  | cons event events ih =>
    have hrest := ih fun event' hmem => hevents event' (List.mem_cons_of_mem _ hmem)
    rw [List.cons_append, Isolated, hrest, and_iff_right (hevents event List.mem_cons_self _)]

/-- The slots that the end of a ceremony touches. -/
theorem isolated_close (hsession : ∀ session ∈ k.session, session.cancelled = false)
    (joiner refused : Bool) (outcome : Except String Unit) :
    Isolated (k.close id t joiner refused outcome).log ↔
      ((joiner → k.OfferInTime t.ceremony) ∧
        ∀ session ∈ k.session, session.ceremony ≤ t.ceremony ∧
          (refused → session.ceremony = t.ceremony) ∧ k.speaker ≤ t.ceremony) ∧
        Isolated k.log := by
  cases joiner with
  | true =>
    show Isolated (((k.goto id .done).clearOffer t.ceremony).finish t.ceremony refused
      outcome).log ↔ _
    rw [isolated_finish (by rw [clearOffer_session]; exact hsession), isolated_clearOffer,
      clearOffer_session, clearOffer_speaker]
    constructor
    · exact fun ⟨hends, hoffer, hisolated⟩ => ⟨⟨fun _ => hoffer, hends⟩, hisolated⟩
    · exact fun ⟨⟨hoffer, hends⟩, hisolated⟩ => ⟨hends, hoffer rfl, hisolated⟩
  | false =>
    show Isolated ((k.goto id .done).finish t.ceremony refused outcome).log ↔ _
    rw [isolated_finish (k := k.goto id .done) hsession]
    constructor
    · exact fun ⟨hends, hisolated⟩ => ⟨⟨nofun, hends⟩, hisolated⟩
    · exact fun ⟨⟨_, hends⟩, hisolated⟩ => ⟨hends, hisolated⟩

theorem Sound.isolated_close (h : Sound k) (hisolated : Isolated k.log) (joiner refused : Bool)
    (outcome : Except String Unit) :
    Isolated (k.close id t joiner refused outcome).log ↔
      (joiner → k.OfferInTime t.ceremony) ∧
        ∀ session ∈ k.session, session.ceremony ≤ t.ceremony ∧
          (refused → session.ceremony = t.ceremony) ∧ k.Latest t.ceremony := by
  rw [Kernel.isolated_close fun s hs => (h.session s hs).2, and_iff_left hisolated,
    h.speaker hisolated]
  rfl

/-- A ceremony that ends in the ordinary way. -/
theorem Sound.endInTime_iff (h : Sound k) :
    (∀ session ∈ k.session, session.ceremony ≤ ceremony ∧
      (Bool.false = true → session.ceremony = ceremony) ∧ k.Latest ceremony) ↔
        k.EndInTime ceremony := by
  unfold EndInTime
  constructor
  · intro hends hsome
    obtain ⟨session, hs⟩ := Option.isSome_iff_exists.1 hsome
    exact (hends session hs).2.2
  · intro hends session hs
    have hlatest := hends (by rw [hs]; rfl)
    exact ⟨Nat.le_trans (h.session session hs).1 hlatest, nofun, hlatest⟩

theorem Sound.isolated_afterTear (h : Sound k) (hisolated : Isolated k.log) (seams : Seams)
    (caller : Caller) : Isolated (k.afterTear id seams caller).log ↔ k.TornInTime caller := by
  have hspeaker := h.speaker hisolated
  cases caller with
  | offer =>
    refine iff_of_true ((isolated_setPhase _).2 ⟨?_, isolated_clearOffer.2 ⟨?_, hisolated⟩⟩) trivial
    · show (k.clearOffer (k.begun + 1)).speaker ≤ (k.clearOffer (k.begun + 1)).begun + 1
      rw [clearOffer_speaker, clearOffer_begun, hspeaker]
      exact Nat.le_succ _
    · exact fun offer ho => Nat.le_succ_of_le (h.offer offer ho)
  | claim code =>
    refine iff_of_true ((isolated_setPhase _).2
      ⟨?_, trivial, isolated_clearOffer.2 ⟨?_, hisolated⟩⟩) trivial
    · show (k.clearOffer (k.begun + 1)).speaker ≤ (k.clearOffer (k.begun + 1)).begun + 1
      rw [clearOffer_speaker, clearOffer_begun, hspeaker]
      exact Nat.le_succ _
    · exact fun offer ho => Nat.le_succ_of_le (h.offer offer ho)
  | cancel begun =>
    refine (isolated_setPhase _).trans ?_
    rw [isolated_clearOffer, clearOffer_speaker]
    show k.speaker ≤ begun ∧ k.OfferInTime begun ∧ Isolated k.log ↔ _
    rw [hspeaker, TornInTime, Latest]
    tauto
  | burn ceremony =>
    refine (isolated_setPhase _).trans ?_
    rw [isolated_clearOffer, clearOffer_speaker]
    show k.speaker ≤ ceremony ∧ k.OfferInTime ceremony ∧ Isolated k.log ↔ _
    rw [hspeaker, TornInTime, Latest]
    tauto

theorem Sound.isolated_tearDown (h : Sound k) (hisolated : Isolated k.log) (seams : Seams)
    (caller : Caller) :
    Isolated (k.tearDown id caller seams).log ↔
      (∀ session ∈ k.session, session.ceremony ≤ k.onBehalf caller) ∧
        (k.session = none → k.TornInTime caller) := by
  unfold Kernel.tearDown
  split
  · next hnone => simp [hnone, h.isolated_afterTear hisolated]
  · next session hsome =>
    have htouch : Isolated (k.note [.touched (k.onBehalf caller) session.ceremony false]).log ↔
        session.ceremony ≤ k.onBehalf caller := isolated_touch.trans (and_iff_left hisolated)
    refine Iff.trans htouch ?_
    simp [hsome]

/-- What the user asks for comes in time. -/
theorem Sound.isolated_call (h : Sound k) (hisolated : Isolated k.log) (seams : Seams)
    {caller : Caller} (hbehalf : k.onBehalf caller = k.begun)
    (htorn : k.TornInTime caller) : Isolated (k.call caller seams).log := by
  have hspawned : Sound { k with tasks := k.tasks ++ [{ pc := .done }] } :=
    h.spawn _ ⟨Nat.zero_le _, Nat.zero_le _⟩
  refine (hspawned.isolated_tearDown hisolated seams caller).2 ⟨fun session hs => ?_, fun _ => ?_⟩
  · exact Nat.le_trans (h.session session hs).1 (Nat.le_of_eq hbehalf.symm)
  · cases caller <;> exact htorn

theorem isolated_bindSession (hisolated : Isolated k.log) :
    Isolated (k.bindSession id ceremony).log ↔
      ∀ begun, .cancelled begun ∈ k.log → begun < ceremony :=
  and_iff_left hisolated

theorem Sound.isolated_runAdder (h : Sound k) (hisolated : Isolated k.log) (seams : Seams) :
    Isolated (k.runAdder id t seams).log ↔ k.BindInTime t.ceremony := by
  unfold Kernel.runAdder
  split
  · next session hsome =>
    rw [h.isolated_close hisolated]
    constructor
    · rintro ⟨-, hends⟩
      refine ⟨fun s hs => ?_, fun hnone => nomatch hnone.symm.trans hsome⟩
      exact ⟨(hends s hs).2.1 rfl, (hends s hs).2.2⟩
    · rintro ⟨hfree, -⟩
      refine ⟨nofun, fun s hs => ?_⟩
      obtain ⟨hown, hlatest⟩ := hfree s hs
      exact ⟨Nat.le_of_eq hown, fun _ => hown, hlatest⟩
  · next hnone =>
    refine (isolated_bindSession hisolated).trans ⟨fun hkept => ⟨?_, fun _ => hkept⟩, ?_⟩
    · simp [hnone]
    · exact fun hbind => hbind.kept hnone

/-- A claim that was read binds a session, and may end at once. -/
theorem Sound.isolated_runClaimed (h : Sound k) (hisolated : Isolated k.log)
    (hoffer : ∀ offer ∈ k.offer, offer.ceremony = t.ceremony) (ht : t.Bounded k.begun) :
    Isolated (k.runClaimed id t).log ↔ k.BindInTime t.ceremony ∧
      (k.session = none → t.token.length ≠ 16 → k.Latest t.ceremony) := by
  have hclears : k.OfferInTime t.ceremony := fun offer ho => Nat.le_of_eq (hoffer offer ho)
  unfold Kernel.runClaimed
  split
  · next session hsome =>
    rw [h.isolated_close hisolated]
    constructor
    · rintro ⟨-, hends⟩
      refine ⟨⟨fun s hs => ?_, fun hnone => nomatch hnone.symm.trans hsome⟩,
        fun hnone => nomatch hnone.symm.trans hsome⟩
      exact ⟨(hends s hs).2.1 rfl, (hends s hs).2.2⟩
    · rintro ⟨⟨hfree, -⟩, -⟩
      refine ⟨fun _ => hclears, fun s hs => ?_⟩
      obtain ⟨hown, hlatest⟩ := hfree s hs
      exact ⟨Nat.le_of_eq hown, fun _ => hown, hlatest⟩
  · next hnone =>
    have hbound := (h.bindSession id ht.1).note [.joined id t.ceremony]
    have hkept : Isolated ((k.bindSession id t.ceremony).note [.joined id t.ceremony]).log ↔
        ∀ begun, .cancelled begun ∈ k.log → begun < t.ceremony :=
      (and_iff_right trivial).trans (isolated_bindSession hisolated)
    have hfree : ∀ session ∈ k.session, session.ceremony = t.ceremony ∧ k.Latest t.ceremony := by
      simp [hnone]
    dsimp only
    split
    · next hlength =>
      constructor
      · intro hclosed
        have hopen := fun s hs => (hbound.session s hs).2
        have hjoined := ((Kernel.isolated_close hopen _ _ _).1 hclosed).2
        have hends := ((hbound.isolated_close hjoined true false _).1 hclosed).2
        exact ⟨⟨hfree, fun _ => hkept.1 hjoined⟩, fun _ _ => (hends _ rfl).2.2⟩
      · rintro ⟨hbind, hlatest⟩
        rw [hbound.isolated_close (hkept.2 (hbind.kept hnone))]
        refine ⟨fun _ => hclears, fun s hs => ?_⟩
        obtain rfl := Option.some.inj hs
        exact ⟨Nat.le_refl _, nofun, hlatest hnone hlength⟩
    · next hlength =>
      refine hkept.trans ⟨fun hkept => ⟨⟨hfree, fun _ => hkept⟩, fun _ hne => ?_⟩, ?_⟩
      · exact absurd hne hlength
      · exact fun ⟨hbind, _⟩ => hbind.kept hnone

/-- The first frame of a connection is a claim of the offer that stands, or it changes nothing that
is shared. -/
theorem Sound.isolated_runJoiner (h : Sound k) (hisolated : Isolated k.log)
    (ht : t.Bounded k.begun) (frame : Option Frame) (seams : Seams) :
    Isolated (k.runJoiner id t frame seams).log ↔
      ∀ token commit, frame = some (.claim token commit) →
        k.ClaimInTime token (k.verdict token seams.now) := by
  unfold Kernel.runJoiner
  split
  · next token commit =>
    have hclaims : (∀ token' commit',
        some (Frame.claim token commit) = some (.claim token' commit') →
          k.ClaimInTime token' (k.verdict token' seams.now)) ↔
          k.ClaimInTime token (k.verdict token seams.now) := by
      refine ⟨fun hall => hall token commit rfl, fun hclaim token' commit' heq => ?_⟩
      obtain ⟨rfl, rfl⟩ := Frame.claim.inj (Option.some.inj heq)
      exact hclaim
    rw [hclaims]
    split
    · next hverdict => exact iff_of_true hisolated (by rw [hverdict]; trivial)
    · next hverdict => exact iff_of_true hisolated (by rw [hverdict]; trivial)
    · next hverdict => exact iff_of_true hisolated (by rw [hverdict]; trivial)
    · next ceremony hverdict =>
      obtain ⟨offer, hoffer, rfl, -⟩ := verdict_eq_claim hverdict
      have hbounded : Task.Bounded k.begun { t with ceremony := offer.ceremony, token, commit } :=
        ⟨h.offer offer hoffer, ht.2⟩
      rw [(h.claimOffer id hbounded).isolated_runClaimed ⟨trivial, hisolated⟩ ?_ hbounded, hverdict]
      · -- neither the session nor what was cancelled changes as the offer is claimed
        have hbind : (k.claimOffer id { t with
            ceremony := offer.ceremony, token, commit }).BindInTime offer.ceremony ↔
              k.BindInTime offer.ceremony := by
          refine ⟨fun hb => ⟨hb.free, fun hnone begun hmem => ?_⟩,
            fun hb => ⟨hb.free, fun hnone begun hmem => ?_⟩⟩
          · exact hb.kept hnone begun (List.mem_cons_of_mem _ hmem)
          · exact hb.kept hnone begun ((List.mem_cons.1 hmem).resolve_left nofun)
        exact and_congr_left fun _ => hbind
      · intro o ho
        obtain ⟨o', ho', rfl⟩ := Option.map_eq_some_iff.1 ho
        rw [Option.some.inj (ho'.symm.trans hoffer)]
  · next hframe =>
    refine iff_of_true hisolated fun token commit heq => ?_
    exact absurd heq (hframe token commit)

theorem Sound.isolated_perform (h : Sound k) (hisolated : Isolated k.log) {turn : Turn}
    (hturn : turn.Plain) : Isolated (k.perform id t turn).log ↔ k.TurnInTime t turn := by
  cases turn with
  | goOn events pc => exact iff_of_true ((isolated_append hturn.1).2 hisolated) trivial
  | say events phase pc =>
    refine (isolated_setPhase phase).trans ?_
    show k.speaker ≤ t.ceremony ∧ Isolated (events ++ k.log) ↔ k.Latest t.ceremony
    rw [isolated_append hturn.1, and_iff_left hisolated, h.speaker hisolated]
    rfl
  | finish outcome =>
    refine (h.isolated_close hisolated t.pc.isJoiner false outcome).trans ?_
    rw [h.endInTime_iff]
    rfl

theorem Sound.isolated_respond (h : Sound k) (hisolated : Isolated k.log) {turn : Option Turn}
    (hturn : ∀ turn' ∈ turn, turn'.Plain) :
    Isolated (k.respond id t turn).log ↔ ∀ turn' ∈ turn, k.TurnInTime t turn' := by
  cases turn with
  | none => simpa [Kernel.respond] using hisolated
  | some turn => simpa [Kernel.respond] using h.isolated_perform hisolated (hturn turn rfl)

/-- An await that answers harms no other ceremony iff it answers in time. -/
theorem Sound.isolated_wake {blake3 : Bytes → Bytes} (h : Sound k) (hisolated : Isolated k.log)
    (id : ℕ) (answer : Answer) (seams : Seams) :
    Isolated (k.wake id blake3 answer seams).log ↔
      ∀ t ∈ k.tasks[id]?, k.WakeInTime blake3 t answer seams := by
  unfold Kernel.wake
  split
  · next hid => exact iff_of_true hisolated (by simp [hid])
  · next t hid =>
    have ht := h.mem hid
    simp only [hid, Option.mem_some_iff, forall_eq']
    unfold WakeInTime
    split
    · next hpc => exact iff_of_true hisolated (by simp [hpc, Task.turn])
    · next hpc => exact iff_of_true hisolated (by simp [hpc, Task.turn])
    · next hpc =>
      simp only [hpc]
      exact (h.sever _).isolated_afterTear hisolated seams _
    · next hpc => exact iff_of_true hisolated (by simp [hpc, Task.turn])
    · next hpc => exact iff_of_true hisolated (by simp [hpc, Task.turn])
    · next hpc =>
      simp only [hpc]
      exact h.isolated_tearDown hisolated seams _
    · next key hpc =>
      simp only [hpc]
      split
      · have hdialed : Isolated (k.note [.dialed t.ceremony key]).log := ⟨trivial, hisolated⟩
        refine ((h.note _).isolated_runAdder hdialed seams).trans ?_
        refine ⟨fun hb => ⟨hb.free, fun hnone begun hmem => ?_⟩,
          fun hb => ⟨hb.free, fun hnone begun hmem => ?_⟩⟩
        · exact hb.kept hnone begun (List.mem_cons_of_mem _ hmem)
        · exact hb.kept hnone begun ((List.mem_cons.1 hmem).resolve_left nofun)
      · rw [h.isolated_close hisolated, h.endInTime_iff]
        simp
    · next hpc =>
      simp only [hpc]
      rw [h.isolated_close hisolated, h.endInTime_iff]
      simp
    · next hpc =>
      simp only [hpc]
      exact h.isolated_runJoiner hisolated ht _ seams
    · next hne₁ hne₂ hne₃ hne₄ hne₅ hne₆ hne₇ hne₈ hne₉ =>
      rw [h.isolated_respond hisolated fun turn hturn => Task.plain_turn hturn]
      split
      · next hpc => exact absurd rfl (hne₃ _ _ hpc)
      · next hpc => exact absurd rfl (hne₆ _ hpc)
      · next hpc => exact absurd rfl (hne₇ _ hpc)
      · next hpc => exact absurd rfl (hne₈ _ hpc)
      · next hpc => exact absurd rfl (hne₉ _ hpc)
      · rfl

end Isolation

variable {k : Kernel}

theorem Sound.isolated_status (h : Sound k) (hisolated : Isolated k.log) (now : ℕ) :
    Isolated (k.status now).log := by
  unfold Kernel.status
  split
  · next code offer hphase hoffer =>
    split
    · -- the code that is shown is the one that lapses
      have hown := h.offering code hphase offer hoffer
      exact (isolated_setPhase _).2 ⟨Nat.le_of_eq hown.symm, hisolated⟩
    · exact hisolated
  · exact hisolated

/-- A step harms another ceremony iff it comes too late. -/
theorem isolated_step (blake3 : Bytes → Bytes) (k : Kernel) (l : Label) (h : Sound k)
    (hisolated : Isolated k.log) : Isolated (k.step blake3 l).log ↔ k.InTime blake3 l := by
  cases l with
  | offer seams => exact iff_of_true (h.isolated_call hisolated seams rfl trivial) trivial
  | claim code seams =>
    refine iff_of_true ?_ trivial
    rw [step]
    split
    · exact hisolated
    · exact h.isolated_call hisolated seams rfl trivial
  | confirm =>
    refine iff_of_true ?_ trivial
    rw [step, confirm]
    split
    · split
      · exact ⟨trivial, hisolated⟩
      · exact hisolated
    · exact hisolated
  | cancel =>
    have hnoted : Isolated (k.note [.cancelled k.begun]).log := ⟨trivial, hisolated⟩
    refine iff_of_true ((h.note _).isolated_call hnoted {} rfl ⟨?_, ?_⟩) trivial
    · exact h.offer
    · exact Nat.le_refl k.begun
  | status now => exact iff_of_true (h.isolated_status hisolated now) trivial
  | inbound key =>
    refine iff_of_true ?_ trivial
    rw [step]
    split <;> exact hisolated
  | wake id answer seams => exact h.isolated_wake hisolated id answer seams

theorem sound_start (me : Bytes) : Sound { me } where
  offer := nofun
  session := nofun
  tasks := nofun
  offering := nofun
  speaker _ := rfl

/-- Throughout a run no ceremony harms another one, iff no turn of the run comes too late. -/
theorem ceremonies_isolated_iff (blake3 : Bytes → Bytes) (me : Bytes) (ls : List Label) :
    Throughout (step blake3) (fun k => Isolated k.log) { me } ls ↔
      Meets (step blake3) (InTime blake3) { me } ls :=
  throughout_iff_meets (sound_step blake3) (isolated_step blake3) ls (sound_start me) trivial

/-- An offer is claimed, and while the joiner reads its card the user asks for a new code. The
ceremony of the old code ends afterwards, and takes the new offer with it. -/
def lateEnd : List Label :=
  [.offer { random := List.replicate 16 8 }, .inbound (List.replicate 32 1),
    .wake 1 (.frame (some (.claim (List.replicate 16 8) []))) {},
    .offer { random := List.replicate 16 9 }, .wake 2 .ok {},
    .wake 2 .ok { random := List.replicate 16 9 }, .wake 1 (.err "the stream ended") {}]

theorem offer_cleared_late : ¬∃ blake3 : Bytes → Bytes,
    Isolated (run (step blake3) { me := List.replicate 32 0 } lateEnd).log := by
  rintro ⟨blake3, h⟩
  simp [lateEnd, run, step, call, tearDown, afterTear, wake, goto, runJoiner, verdict, claimOffer,
    runClaimed, close, finish, sever, onBehalf, note, setPhase, clearOffer, bindSession, perform,
    respond, Task.turn, Task.onCall, List.modify, Pc.isJoiner, offerTtlMs, Isolated,
    Harmless] at h

/-- A claim is dialed, and cancelled. The dial succeeds, and the ceremony goes on. -/
theorem cancelled_bound : ¬∃ blake3 : Bytes → Bytes,
    Isolated (run (step blake3) { me := List.replicate 32 0 }
      [.claim ⟨List.replicate 32 1, List.replicate 16 9⟩ {}, .cancel,
        .wake 1 (.dialed (List.replicate 32 1)) {}]).log := by
  rintro ⟨blake3, h⟩
  simp [run, step, call, tearDown, afterTear, wake, goto, runAdder, note, setPhase, clearOffer,
    bindSession, List.modify, Isolated, Harmless] at h

/-- Two claims are dialed. The dial of the first succeeds after that of the second, finds a session,
and fails the second claim for it. -/
theorem session_failed_late : ¬∃ blake3 : Bytes → Bytes,
    Isolated (run (step blake3) { me := List.replicate 32 0 }
      [.claim ⟨List.replicate 32 1, List.replicate 16 9⟩ {},
        .claim ⟨List.replicate 32 2, List.replicate 16 8⟩ {},
        .wake 3 (.dialed (List.replicate 32 2)) {},
        .wake 1 (.dialed (List.replicate 32 1)) {}]).log := by
  rintro ⟨blake3, h⟩
  simp [run, step, call, tearDown, afterTear, wake, goto, runAdder, close, finish, sever, note,
    setPhase, clearOffer, bindSession, List.modify, Isolated, Harmless] at h

end Kernel

end Polyvisor.Pairing
