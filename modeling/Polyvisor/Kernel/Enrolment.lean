import Polyvisor.Kernel.Pairing
import Polyvisor.Lib.Transition

/-!
# Who is enrolled

What a device does when it pairs, against any peer and in any order of what its user does.

The user confirms the digits that the phase shows, and the confirmation goes to the session that is
in its slot. Nothing ties the two together: while a session is torn down its digits are still shown,
and another one may be bound.

## Main results

* `enrolment_authorised`: where every confirmation meets the session whose digits are shown, a
  device enrols only the key that its user named and the transport authenticated, after both sides
  confirmed; it adopts an identity only after the commitment opened and its user confirmed; and a
  code makes at most one connection a session.
* `enrolled_unconfirmed`: where one meets another session.
-/

namespace Polyvisor.Pairing

open Transition

variable (blake3 : Bytes → Bytes)

/-- The adder's user and the peer have both confirmed the session that showed digits, and its key is
the one the code named and the transport authenticated. -/
structure Granted (log : List Event) (ceremony : ℕ) (key : Bytes) : Prop where
  named : ∃ token, .named ceremony ⟨key, token⟩ ∈ log
  dialed : .dialed ceremony key ∈ log
  shown : ∃ digits, .shown ceremony digits ∈ log
  confirmed : .confirmed ceremony ∈ log
  joined : .received ceremony .confirmJoin ∈ log

/-- The adder revealed the nonce it had committed to, and the session showed digits. -/
structure Opened (log : List Event) (ceremony : ℕ) : Prop where
  commitment : ∃ token commit nonce, .received ceremony (.claim token commit) ∈ log ∧
    .received ceremony (.reveal nonce) ∈ log ∧ blake3 nonce = commit
  shown : ∃ digits, .shown ceremony digits ∈ log

/-- What has happened was authorised. -/
structure Authorised (log : List Event) : Prop where
  added : ∀ ceremony key petname, .added ceremony key petname ∈ log → Granted log ceremony key
  enrolled : ∀ ceremony card key, .enrolled ceremony card key ∈ log → Granted log ceremony key
  adopted : ∀ ceremony, .adopted ceremony ∈ log →
    Opened blake3 log ceremony ∧ .confirmed ceremony ∈ log
  single : ∀ i j ceremony, .joined i ceremony ∈ log → .joined j ceremony ∈ log → i = j

namespace Kernel

/-- A confirmation that is taken is for the session whose digits are shown. -/
def ConfirmsShown (k : Kernel) : Label → Prop
  | .confirm => ∀ digits, k.phase = .awaitingConfirm digits →
    ∀ session ∈ k.session, session.confirm → session.ceremony = k.speaker
  | _ => True

end Kernel

/-! ## What the tasks have behind them -/

section Log

variable {blake3} {log : List Event} {ceremony : ℕ} {key : Bytes}

theorem Granted.append (h : Granted log ceremony key) (events : List Event) :
    Granted (events ++ log) ceremony key where
  named := h.named.imp fun _ hmem => List.mem_append_right _ hmem
  dialed := List.mem_append_right _ h.dialed
  shown := h.shown.imp fun _ hmem => List.mem_append_right _ hmem
  confirmed := List.mem_append_right _ h.confirmed
  joined := List.mem_append_right _ h.joined

theorem Opened.append (h : Opened blake3 log ceremony) (events : List Event) :
    Opened blake3 (events ++ log) ceremony where
  commitment := by
    obtain ⟨token, commit, nonce, hclaim, hreveal, hhash⟩ := h.commitment
    exact ⟨token, commit, nonce, List.mem_append_right _ hclaim, List.mem_append_right _ hreveal,
      hhash⟩
  shown := h.shown.imp fun _ hmem => List.mem_append_right _ hmem

end Log

/-- What has happened by the time a task is in an await. -/
def Stage (log : List Event) (t : Task) : Pc → Prop
  | .reading => t.fired = false
  | .dialing => .named t.ceremony ⟨t.key, t.token⟩ ∈ log
  | .claiming _ | .awaitingAccept _ | .revealing _ _ _ _ =>
    .named t.ceremony ⟨t.key, t.token⟩ ∈ log ∧ .dialed t.ceremony t.key ∈ log
  | .confirming here there _ _ =>
    .named t.ceremony ⟨t.key, t.token⟩ ∈ log ∧ .dialed t.ceremony t.key ∈ log ∧
      (∃ digits, .shown t.ceremony digits ∈ log) ∧ (here → t.fired) ∧
        (there → .received t.ceremony .confirmJoin ∈ log)
  | .preparing _ _ | .adding _ => Granted log t.ceremony t.key
  | .carding | .accepting _ | .awaitingReveal _ =>
    .received t.ceremony (.claim t.token t.commit) ∈ log
  | .comparing => Opened blake3 log t.ceremony
  | .confirmingJoin | .awaitingEnroll | .locking =>
    Opened blake3 log t.ceremony ∧ .confirmed t.ceremony ∈ log
  | _ => True

/-- What has to have happened before an event. -/
def Justified (log : List Event) : Event → Prop
  | .added ceremony key _ | .enrolled ceremony _ key => Granted log ceremony key
  | .adopted ceremony => Opened blake3 log ceremony ∧ .confirmed ceremony ∈ log
  | .joined _ _ => False
  | _ => True

section Stages

variable {blake3} {log : List Event} {t : Task} {pc : Pc}

theorem Stage.append (h : Stage blake3 log t pc) (events : List Event) :
    Stage blake3 (events ++ log) t pc := by
  have hmem : ∀ {event}, event ∈ log → event ∈ events ++ log := List.mem_append_right _
  cases pc with
  | reading => exact h
  | dialing => exact hmem h
  | claiming nonceA => exact ⟨hmem h.1, hmem h.2⟩
  | awaitingAccept nonceA => exact ⟨hmem h.1, hmem h.2⟩
  | revealing nonceA nonceJ petname card => exact ⟨hmem h.1, hmem h.2⟩
  | confirming here there petname card =>
    obtain ⟨hnamed, hdialed, hshown, hhere, hthere⟩ := h
    exact ⟨hmem hnamed, hmem hdialed, hshown.imp fun _ => hmem, hhere, hmem ∘ hthere⟩
  | preparing petname card => exact Granted.append h events
  | adding card => exact Granted.append h events
  | carding => exact hmem h
  | accepting nonceJ => exact hmem h
  | awaitingReveal nonceJ => exact hmem h
  | comparing => exact Opened.append h events
  | confirmingJoin => exact ⟨h.1.append events, hmem h.2⟩
  | awaitingEnroll => exact ⟨h.1.append events, hmem h.2⟩
  | locking => exact ⟨h.1.append events, hmem h.2⟩
  | _ => trivial

theorem Stage.fire (h : Stage blake3 log t pc)
    (hpc : pc ≠ .reading) : Stage blake3 log { t with fired := true } pc := by
  cases pc with
  | reading => exact absurd rfl hpc
  | confirming here there petname card => exact ⟨h.1, h.2.1, h.2.2.1, fun _ => rfl, h.2.2.2.2⟩
  | _ => exact h

theorem Authorised.append (h : Authorised blake3 log) {events : List Event}
    (hjustified : ∀ event ∈ events, Justified blake3 log event) :
    Authorised blake3 (events ++ log) where
  added ceremony key petname hmem := by
    obtain hmem | hmem := List.mem_append.1 hmem
    · exact Granted.append (hjustified _ hmem) events
    · exact (h.added ceremony key petname hmem).append events
  enrolled ceremony card key hmem := by
    obtain hmem | hmem := List.mem_append.1 hmem
    · exact Granted.append (hjustified _ hmem) events
    · exact (h.enrolled ceremony card key hmem).append events
  adopted ceremony hmem := by
    obtain hmem | hmem := List.mem_append.1 hmem
    · obtain ⟨hopened, hconfirmed⟩ := hjustified _ hmem
      exact ⟨Opened.append hopened events, List.mem_append_right _ hconfirmed⟩
    · obtain ⟨hopened, hconfirmed⟩ := h.adopted ceremony hmem
      exact ⟨hopened.append events, List.mem_append_right _ hconfirmed⟩
  single i j ceremony hi hj := by
    obtain hi | hi := List.mem_append.1 hi
    · exact (hjustified _ hi).elim
    · obtain hj | hj := List.mem_append.1 hj
      · exact (hjustified _ hj).elim
      · exact h.single i j ceremony hi hj

variable (blake3) in
/-- What a turn brings is justified. -/
def TurnOk (log : List Event) (t : Task) : Turn → Prop
  | .goOn events pc => (∀ event ∈ events, Justified blake3 log event) ∧
    Stage blake3 (events ++ log) t pc ∧ pc ≠ .reading
  | .say events _ pc => (∀ event ∈ events, Justified blake3 log event) ∧
    Stage blake3 (events ++ log) t pc ∧ pc ≠ .reading
  | .finish _ => True

theorem turnOk_refuseFrame (frame : Option Frame) :
    TurnOk blake3 log t (Task.refuseFrame frame) := by
  unfold Task.refuseFrame
  split <;> trivial

theorem turnOk_readAccept {nonceA : Bytes} (h : Stage blake3 log t (.awaitingAccept nonceA))
    (frame : Option Frame) : TurnOk blake3 log t (t.readAccept nonceA frame) := by
  unfold Task.readAccept
  split
  · split
    · trivial
    · split
      · trivial
      · exact ⟨nofun, h, nofun⟩
  · trivial
  · exact turnOk_refuseFrame frame

/-- One of the two confirmations, and the grant where it is the second one. -/
theorem turnOk_confirmBoth {here there : Bool} {petname petname' : String} {card card' : Bytes}
    (h : Stage blake3 log t (.confirming here there petname' card'))
    (hfired : t.fired → .confirmed t.ceremony ∈ log) (wake : Wake)
    (hwake : wake = .confirmed → t.fired) :
    TurnOk blake3 log t (t.confirmBoth here there petname card wake) := by
  obtain ⟨hnamed, hdialed, hshown, hhere, hthere⟩ := h
  unfold Task.confirmBoth
  split
  · have hfires := hwake rfl
    split
    · next hthere' =>
      exact ⟨nofun, ⟨⟨_, hnamed⟩, hdialed, hshown, hfired hfires, hthere hthere'⟩, nofun⟩
    · exact ⟨nofun, ⟨hnamed, hdialed, hshown, fun _ => hfires, nofun⟩, nofun⟩
  · -- the peer's confirmation is in the log from here on
    have hjoined : Event.received t.ceremony .confirmJoin ∈
        [Event.received t.ceremony .confirmJoin] ++ log := List.mem_cons_self
    have hold : ∀ {event}, event ∈ log →
        event ∈ [Event.received t.ceremony .confirmJoin] ++ log := List.mem_cons_of_mem _
    refine ⟨by simp [Justified], ?_, by split <;> nofun⟩
    split
    · next hhere' =>
      exact ⟨⟨_, hold hnamed⟩, hold hdialed, hshown.imp fun _ => hold,
        hold (hfired (hhere hhere')), hjoined⟩
    · exact ⟨hold hnamed, hold hdialed, hshown.imp fun _ => hold, nofun, fun _ => hjoined⟩
  · exact turnOk_refuseFrame _

/-- The joiner compares the nonce with the commitment of the claim it read. -/
theorem turnOk_readReveal {me nonceJ : Bytes} (h : Stage blake3 log t (.awaitingReveal nonceJ))
    (frame : Option Frame) : TurnOk blake3 log t (t.readReveal blake3 me nonceJ frame) := by
  unfold Task.readReveal
  split
  · split
    · trivial
    · split
      · trivial
      · next nonce _ hhash =>
        refine ⟨by simp [Justified], ⟨⟨t.token, t.commit, nonce, ?_, ?_, by simpa using hhash⟩, ?_⟩,
          nofun⟩
        · exact List.mem_append_right _ h
        · simp
        · exact ⟨sas blake3 t.token me t.key nonceJ nonce, by simp⟩
  · exact turnOk_refuseFrame frame

theorem turnOk_readEnroll {seams : Seams} (h : Stage blake3 log t .awaitingEnroll)
    (frame : Option Frame) : TurnOk blake3 log t (Task.readEnroll seams frame) := by
  unfold Task.readEnroll
  split
  · split
    · trivial
    · split
      · trivial
      · exact ⟨nofun, h, nofun⟩
  · exact turnOk_refuseFrame frame

theorem turnOk_turn {me : Bytes} {answer : Answer} {seams : Seams} {turn : Turn}
    (h : Stage blake3 log t t.pc) (hfired : t.fired → .confirmed t.ceremony ∈ log)
    (hturn : t.turn blake3 me answer seams = some turn) : TurnOk blake3 log t turn := by
  unfold Task.turn at hturn
  cases hpc : t.pc with
  | done => simp [hpc] at hturn
  | tearing caller task closing => simp [hpc] at hturn
  | dialing => simp [hpc] at hturn
  | reading => simp [hpc] at hturn
  | burning ceremony closing => simp [hpc] at hturn
  | claiming nonceA =>
    rw [hpc] at h hturn
    refine Task.of_onCall hturn ?_ fun _ => trivial
    exact ⟨nofun, h, nofun⟩
  | awaitingAccept nonceA =>
    rw [hpc] at h hturn
    exact Task.of_onFrame hturn (turnOk_readAccept h)
  | revealing nonceA nonceJ petname card =>
    rw [hpc] at h hturn
    refine Task.of_onCall hturn ?_ fun _ => trivial
    refine ⟨by simp [Justified], ⟨?_, ?_, ⟨_, List.mem_cons_self⟩, nofun, nofun⟩, nofun⟩
    · exact List.mem_cons_of_mem _ h.1
    · exact List.mem_cons_of_mem _ h.2
  | confirming here there petname card =>
    rw [hpc] at h hturn
    cases here with
    | true =>
      refine Task.of_onFrame hturn fun frame => ?_
      exact turnOk_confirmBoth h hfired (.frame frame) nofun
    | false =>
      refine Task.of_onWake hturn (fun hf => ?_) fun frame => ?_
      · exact turnOk_confirmBoth h hfired .confirmed fun _ => hf
      · exact turnOk_confirmBoth h hfired (.frame frame) nofun
  | preparing petname card =>
    rw [hpc] at h hturn
    refine Task.of_onCall hturn ?_ fun _ => trivial
    exact ⟨List.forall_mem_singleton.2 h, Granted.append h _, nofun⟩
  | adding card =>
    rw [hpc] at h hturn
    refine Task.of_onCall hturn ?_ fun _ => trivial
    exact ⟨List.forall_mem_singleton.2 h, trivial, nofun⟩
  | enrolling =>
    rw [hpc] at hturn
    refine Task.of_onCall hturn ?_ fun _ => trivial
    exact ⟨nofun, trivial, nofun⟩
  | saving =>
    rw [hpc] at hturn
    refine Task.of_onCall hturn ?_ fun _ => trivial
    exact ⟨nofun, trivial, nofun⟩
  | sendingEnroll =>
    rw [hpc] at hturn
    refine Task.of_onCall hturn ?_ fun _ => trivial
    exact ⟨nofun, trivial, nofun⟩
  | awaitingReceipt =>
    rw [hpc] at hturn
    refine Task.of_onFrame hturn fun _ => ?_
    exact ⟨nofun, trivial, nofun⟩
  | checkpointing =>
    rw [hpc] at hturn
    refine Task.of_onCall hturn ?_ fun _ => trivial
    exact trivial
  | carding =>
    rw [hpc] at h hturn
    refine Task.of_onCall hturn ?_ fun _ => trivial
    exact ⟨nofun, h, nofun⟩
  | accepting nonceJ =>
    rw [hpc] at h hturn
    refine Task.of_onCall hturn ?_ fun _ => trivial
    exact ⟨nofun, h, nofun⟩
  | awaitingReveal nonceJ =>
    rw [hpc] at h hturn
    exact Task.of_onFrame hturn (turnOk_readReveal h)
  | comparing =>
    rw [hpc] at h hturn
    refine Task.of_onWake hturn (fun hf => ?_) turnOk_refuseFrame
    exact ⟨nofun, ⟨h, hfired hf⟩, nofun⟩
  | confirmingJoin =>
    rw [hpc] at h hturn
    refine Task.of_onCall hturn ?_ fun _ => trivial
    exact ⟨nofun, h, nofun⟩
  | awaitingEnroll =>
    rw [hpc] at h hturn
    exact Task.of_onFrame hturn (turnOk_readEnroll h)
  | locking =>
    rw [hpc] at h hturn
    refine Task.of_onCall hturn ?_ fun _ => trivial
    exact ⟨List.forall_mem_singleton.2 h, trivial, nofun⟩
  | adopting =>
    rw [hpc] at hturn
    refine Task.of_onCall hturn ?_ fun _ => trivial
    exact ⟨nofun, trivial, nofun⟩
  | acking =>
    rw [hpc] at hturn
    cases answer with
    | ok => exact Option.some.inj hturn ▸ trivial
    | err why => exact Option.some.inj hturn ▸ trivial
    | dialed key => cases hturn
    | frame frame => cases hturn

end Stages

variable {blake3}

namespace Kernel

variable {k : Kernel} {id ceremony : ℕ} {t : Task} {pc : Pc}

variable (blake3) in
/-- What every step keeps that takes no confirmation for another session. -/
structure Inv (k : Kernel) : Prop where
  stage : ∀ t ∈ k.tasks, Stage blake3 k.log t t.pc
  fired : ∀ t ∈ k.tasks, t.fired → .confirmed t.ceremony ∈ k.log
  session : ∀ session ∈ k.session, ∃ t, k.tasks[session.task]? = some t ∧
    t.ceremony = session.ceremony ∧ t.pc ≠ .reading
  authorised : Authorised blake3 k.log
  /-- An offer that made a connection a session is claimed. -/
  spent : ∀ i ceremony, .joined i ceremony ∈ k.log →
    ceremony ≤ k.begun ∧ ∀ offer ∈ k.offer, offer.ceremony = ceremony → offer.claimed
  minted : ∀ offer ∈ k.offer, offer.ceremony ≤ k.begun

theorem Inv.mem (h : Inv blake3 k) (hid : k.tasks[id]? = some t) :
    Stage blake3 k.log t t.pc ∧ (t.fired → .confirmed t.ceremony ∈ k.log) :=
  ⟨h.stage t (List.mem_of_getElem? hid), h.fired t (List.mem_of_getElem? hid)⟩

theorem Inv.note (h : Inv blake3 k) {events : List Event}
    (hevents : ∀ event ∈ events, Justified blake3 k.log event) : Inv blake3 (k.note events) where
  stage t ht := (h.stage t ht).append events
  fired t ht hf := List.mem_append_right _ (h.fired t ht hf)
  session := h.session
  authorised := h.authorised.append hevents
  spent i ceremony hmem := by
    obtain hmem | hmem := List.mem_append.1 hmem
    · exact (hevents _ hmem).elim
    · exact h.spent i ceremony hmem
  minted := h.minted

theorem Inv.touch (h : Inv blake3 k) (ceremony target : ℕ) (refused : Bool) :
    Inv blake3 (k.note [.touched ceremony target refused]) :=
  h.note (by simp [Justified])

theorem Inv.setPhase (h : Inv blake3 k) (ceremony : ℕ) (phase : Phase) :
    Inv blake3 (k.setPhase ceremony phase) := by
  have h' : Inv blake3 { k with phase := phase, speaker := ceremony } :=
    ⟨h.stage, h.fired, h.session, h.authorised, h.spent, h.minted⟩
  exact h'.touch ceremony k.speaker false

theorem Inv.clearOffer (h : Inv blake3 k) (ceremony : ℕ) : Inv blake3 (k.clearOffer ceremony) := by
  unfold Kernel.clearOffer
  split
  · exact h
  · next offer _ =>
    have h' : Inv blake3 { k with offer := none } :=
      ⟨h.stage, h.fired, h.session, h.authorised, fun i c hmem => ⟨(h.spent i c hmem).1, nofun⟩,
        nofun⟩
    exact h'.touch ceremony offer.ceremony false

/-- A session that is taken out of its slot. -/
theorem Inv.takeSession (h : Inv blake3 k) : Inv blake3 { k with session := none } :=
  ⟨h.stage, h.fired, nofun, h.authorised, h.spent, h.minted⟩

/-- A task changes, and not its ceremony. -/
theorem Inv.modify (h : Inv blake3 k) (id : ℕ) (f : Task → Task)
    (hf : ∀ t, k.tasks[id]? = some t → Stage blake3 k.log (f t) (f t).pc ∧
      ((f t).fired → .confirmed t.ceremony ∈ k.log) ∧ (f t).ceremony = t.ceremony ∧
        (t.pc ≠ .reading → (f t).pc ≠ .reading)) :
    Inv blake3 { k with tasks := k.tasks.modify id f } := by
  -- every task is an old one, or the changed one
  have hold : ∀ t ∈ k.tasks.modify id f, t ∈ k.tasks ∨ ∃ t₀, k.tasks[id]? = some t₀ ∧ t = f t₀ := by
    intro t ht
    obtain ⟨i, hi⟩ := List.getElem?_of_mem ht
    rw [List.getElem?_modify] at hi
    split at hi
    · next heq =>
      subst heq
      obtain ⟨t₀, ht₀, rfl⟩ := Option.map_eq_some_iff.1 hi
      exact .inr ⟨t₀, ht₀, rfl⟩
    · exact .inl (List.mem_of_getElem? (by simpa using hi))
  refine ⟨fun t ht => ?_, fun t ht hfired => ?_, fun session hs => ?_, h.authorised, h.spent,
    h.minted⟩
  · obtain ht | ⟨t₀, ht₀, rfl⟩ := hold t ht
    exacts [h.stage t ht, (hf t₀ ht₀).1]
  · obtain ht | ⟨t₀, ht₀, rfl⟩ := hold t ht
    · exact h.fired t ht hfired
    · obtain ⟨-, hconfirmed, hceremony, -⟩ := hf t₀ ht₀
      exact hceremony ▸ hconfirmed hfired
  · obtain ⟨t, ht, hceremony, hpc⟩ := h.session session hs
    by_cases heq : id = session.task
    · obtain ⟨-, -, hsame, hreading⟩ := hf t (heq ▸ ht)
      exact ⟨f t, by simp [heq, ht], hsame.trans hceremony, hreading hpc⟩
    · exact ⟨t, by simp [heq, ht], hceremony, hpc⟩

theorem Inv.goto (h : Inv blake3 k) (hid : k.tasks[id]? = some t)
    (hstage : Stage blake3 k.log t pc) (hpc : pc ≠ .reading) : Inv blake3 (k.goto id pc) := by
  refine h.modify id _ fun t₀ ht₀ => ?_
  obtain rfl := Option.some.inj (hid.symm.trans ht₀)
  refine ⟨?_, (h.mem hid).2, rfl, fun _ => hpc⟩
  -- a stage says nothing of where the task was before
  cases pc <;> exact hstage

theorem Inv.sever (h : Inv blake3 k) (task : ℕ) : Inv blake3 (k.sever task) := by
  refine h.modify task _ fun t ht => ⟨?_, (h.mem ht).2, rfl, id⟩
  have hstage := (h.mem ht).1
  cases hpc : t.pc <;> rw [hpc] at hstage <;> exact hstage

/-- A task goes where nothing has to have happened. -/
theorem Inv.leave (h : Inv blake3 k) (id : ℕ) (hstage : ∀ log t, Stage blake3 log t pc)
    (hpc : pc ≠ .reading) : Inv blake3 (k.goto id pc) :=
  h.modify id _ fun _ ht => ⟨hstage _ _, (h.mem ht).2, rfl, fun _ => hpc⟩

theorem Inv.stop (h : Inv blake3 k) (id : ℕ) : Inv blake3 (k.goto id .done) :=
  h.leave id (fun _ _ => trivial) nofun

theorem Inv.finish (h : Inv blake3 k) (ceremony : ℕ) (refused : Bool)
    (outcome : Except String Unit) : Inv blake3 (k.finish ceremony refused outcome) := by
  unfold Kernel.finish
  split
  · exact h
  · next session _ =>
    have htaken := (h.takeSession.touch ceremony session.ceremony refused).sever session.task
    dsimp only
    split
    · exact htaken
    · exact htaken.setPhase ceremony _

theorem Inv.close (h : Inv blake3 (k.goto id .done)) (t : Task) (joiner refused : Bool)
    (outcome : Except String Unit) : Inv blake3 (k.close id t joiner refused outcome) := by
  unfold Kernel.close
  dsimp only
  split
  · exact (h.clearOffer t.ceremony).finish t.ceremony refused outcome
  · exact h.finish t.ceremony refused outcome

/-- A task is spawned. -/
theorem Inv.spawn (h : Inv blake3 k) (t : Task) (hstage : Stage blake3 k.log t t.pc)
    (hfired : t.fired = false) : Inv blake3 { k with tasks := k.tasks ++ [t] } where
  stage x hx := by
    obtain hx | hx := List.mem_append.1 hx
    · exact h.stage x hx
    · rwa [List.mem_singleton.1 hx]
  fired x hx hf := by
    obtain hx | hx := List.mem_append.1 hx
    · exact h.fired x hx hf
    · rw [List.mem_singleton.1 hx, hfired] at hf
      cases hf
  session session hs := by
    obtain ⟨x, hx, hrest⟩ := h.session session hs
    have hlt := (List.getElem?_eq_some_iff.1 hx).1
    exact ⟨x, by rw [List.getElem?_append_left hlt, hx], hrest⟩
  authorised := h.authorised
  spent := h.spent
  minted := h.minted

theorem Inv.bindSession (h : Inv blake3 k) (hid : k.tasks[id]? = some t)
    (hceremony : t.ceremony = ceremony) (hpc : t.pc ≠ .reading) :
    Inv blake3 (k.bindSession id ceremony) := by
  have h' : Inv blake3 { k with session := some ⟨true, false, id, ceremony⟩ } := by
    refine ⟨h.stage, h.fired, fun session hs => ?_, h.authorised, h.spent, h.minted⟩
    obtain rfl := Option.some.inj hs
    exact ⟨t, hid, hceremony, hpc⟩
  exact h'.note (by simp [Justified])

/-- A connection becomes a session, the first one of an offer that is claimed. -/
theorem Inv.join (h : Inv blake3 k) (id : ℕ) (hbegun : ceremony ≤ k.begun)
    (hclaimed : ∀ offer ∈ k.offer, offer.ceremony = ceremony → offer.claimed)
    (hfirst : ∀ i, .joined i ceremony ∉ k.log) : Inv blake3 (k.note [.joined id ceremony]) where
  stage t ht := (h.stage t ht).append _
  fired t ht hf := List.mem_append_right _ (h.fired t ht hf)
  session := h.session
  authorised := by
    have hother : ∀ {event}, event ∈ [Event.joined id ceremony] ++ k.log →
        (∀ i c, event ≠ .joined i c) → event ∈ k.log :=
      fun hmem hne => (List.mem_cons.1 hmem).resolve_left (hne id ceremony)
    refine ⟨fun c key petname hmem => ?_, fun c card key hmem => ?_, fun c hmem => ?_,
      fun i j c hi hj => ?_⟩
    · exact (h.authorised.added c key petname (hother hmem nofun)).append _
    · exact (h.authorised.enrolled c card key (hother hmem nofun)).append _
    · obtain ⟨hopened, hconfirmed⟩ := h.authorised.adopted c (hother hmem nofun)
      exact ⟨hopened.append _, List.mem_append_right _ hconfirmed⟩
    · obtain hnew | hold := List.mem_cons.1 hi
      · obtain ⟨rfl, rfl⟩ := Event.joined.inj hnew
        obtain hnew' | hold' := List.mem_cons.1 hj
        · exact (Event.joined.inj hnew').1.symm
        · exact absurd hold' (hfirst j)
      · obtain hnew' | hold' := List.mem_cons.1 hj
        · obtain ⟨rfl, rfl⟩ := Event.joined.inj hnew'
          exact absurd hold (hfirst i)
        · exact h.authorised.single i j c hold hold'
  spent i c hmem := by
    obtain hmem | hmem := List.mem_cons.1 hmem
    · obtain ⟨rfl, rfl⟩ := Event.joined.inj hmem
      exact ⟨hbegun, hclaimed⟩
    · exact h.spent i c hmem
  minted := h.minted

theorem Inv.begin (h : Inv blake3 k) : Inv blake3 { k with begun := k.begun + 1 } where
  stage := h.stage
  fired := h.fired
  session := h.session
  authorised := h.authorised
  spent i c hmem := (h.spent i c hmem).imp_left Nat.le_succ_of_le
  minted offer hoffer := Nat.le_succ_of_le (h.minted offer hoffer)

/-- An offer is minted, of a ceremony that has joined nothing yet. -/
theorem Inv.mint (h : Inv blake3 k) (token : Bytes) (expires : ℕ) :
    Inv blake3 { k with
      begun := k.begun + 1, offer := some ⟨token, expires, false, k.begun + 1⟩ } where
  stage := h.stage
  fired := h.fired
  session := h.session
  authorised := h.authorised
  spent i c hmem := by
    have hle := (h.spent i c hmem).1
    refine ⟨Nat.le_succ_of_le hle, fun offer hoffer heq => ?_⟩
    obtain rfl := Option.some.inj hoffer
    dsimp only at heq
    omega
  minted offer hoffer := by
    obtain rfl := Option.some.inj hoffer
    exact Nat.le_refl _

theorem Inv.afterTear (h : Inv blake3 k) (id : ℕ) (seams : Seams) (caller : Caller) :
    Inv blake3 (k.afterTear id seams caller) := by
  cases caller with
  | offer => exact (((h.clearOffer (k.begun + 1)).stop id).mint _ _).setPhase _ _
  | claim code =>
    have hcleared := (h.clearOffer (k.begun + 1)).stop id
    generalize hk' : (k.clearOffer (k.begun + 1)).goto id .done = k' at hcleared
    have hnamed : Inv blake3 (k'.note [.named (k'.begun + 1) code]) :=
      hcleared.note (by simp [Justified])
    rw [Kernel.afterTear, hk']
    exact (hnamed.begin.spawn _ List.mem_cons_self rfl).setPhase _ _
  | cancel begun => exact ((h.stop id).clearOffer begun).setPhase begun _
  | burn ceremony => exact ((h.stop id).clearOffer ceremony).setPhase ceremony _

theorem Inv.tearDown (h : Inv blake3 k) (id : ℕ) (caller : Caller) (seams : Seams) :
    Inv blake3 (k.tearDown id caller seams) := by
  unfold Kernel.tearDown
  split
  · exact h.afterTear id seams caller
  · exact (h.takeSession.touch _ _ false).leave id (fun _ _ => trivial) nofun

theorem Inv.call (h : Inv blake3 k) (caller : Caller) (seams : Seams) :
    Inv blake3 (k.call caller seams) :=
  (h.spawn { pc := .done } trivial rfl).tearDown _ caller seams

/-- A task has read the claim of an offer that no connection had claimed. -/
theorem Inv.runClaimed (h : Inv blake3 k) (hid : k.tasks[id]? = some t)
    (hclaim : .received t.ceremony (.claim t.token t.commit) ∈ k.log)
    (hbegun : t.ceremony ≤ k.begun)
    (hclaimed : ∀ offer ∈ k.offer, offer.ceremony = t.ceremony → offer.claimed)
    (hfirst : ∀ i, .joined i t.ceremony ∉ k.log) : Inv blake3 (k.runClaimed id t) := by
  -- the session is bound by a task that is on its way
  have hjoin : ∀ {pc}, pc ≠ .reading → Inv blake3 (k.goto id pc) →
      Inv blake3 (((k.bindSession id t.ceremony).note [.joined id t.ceremony]).goto id pc) := by
    intro pc hpc hgoto
    have hid' : (k.goto id pc).tasks[id]? = some { t with pc } := by simp [Kernel.goto, hid]
    have hbound : Inv blake3 ((k.goto id pc).bindSession id t.ceremony) :=
      hgoto.bindSession hid' rfl hpc
    refine hbound.join id hbegun hclaimed fun i hmem => ?_
    exact hfirst i ((List.mem_cons.1 hmem).resolve_left nofun)
  unfold Kernel.runClaimed
  split
  · exact Inv.close (h.stop id) t true true _
  · dsimp only
    split
    · exact Inv.close (hjoin nofun (h.stop id)) t true false _
    · exact hjoin nofun (h.goto hid hclaim nofun)

theorem Inv.runJoiner (h : Inv blake3 k) (hid : k.tasks[id]? = some t) (hpc : t.pc = .reading)
    (frame : Option Frame) (seams : Seams) : Inv blake3 (k.runJoiner id t frame seams) := by
  unfold Kernel.runJoiner
  split
  · next token commit =>
    split
    · exact h.stop id
    · exact h.stop id
    · exact h.leave id (fun _ _ => trivial) nofun
    · next ceremony hverdict =>
      obtain ⟨offer, hoffer, rfl, hunclaimed⟩ := verdict_eq_claim hverdict
      have hfresh : t.fired = false := by
        have hstage := (h.mem hid).1
        rwa [hpc] at hstage
      have hlt := (List.getElem?_eq_some_iff.1 hid).1
      have hnoted : Inv blake3 (k.note [.received offer.ceremony (.claim token commit)]) :=
        h.note (by simp [Justified])
      -- the offer is spent, and the task belongs to its ceremony from here on
      have hclaimed : Inv blake3
          (k.claimOffer id { t with ceremony := offer.ceremony, token, commit }) := by
        refine ⟨fun x hx => ?_, fun x hx hf => ?_, fun session hs => ?_, hnoted.authorised,
          fun i c hmem => ⟨(hnoted.spent i c hmem).1, fun o ho _ => ?_⟩, fun o ho => ?_⟩
        · obtain hx | rfl := List.mem_or_eq_of_mem_set hx
          · exact hnoted.stage x hx
          · rw [hpc]
            exact hfresh
        · obtain hx | rfl := List.mem_or_eq_of_mem_set hx
          · exact hnoted.fired x hx hf
          · exact absurd (hf.symm.trans hfresh) nofun
        · obtain ⟨x, hx, hceremony, hreading⟩ := h.session session hs
          refine ⟨x, ?_, hceremony, hreading⟩
          rw [claimOffer, List.getElem?_set_ne, hx]
          rintro rfl
          exact hreading (Option.some.inj (hid.symm.trans hx) ▸ hpc)
        · obtain ⟨_, -, rfl⟩ := Option.map_eq_some_iff.1 ho
          rfl
        · obtain ⟨o', ho', rfl⟩ := Option.map_eq_some_iff.1 ho
          exact h.minted o' ho'
      refine hclaimed.runClaimed (by simp [claimOffer, hlt]) List.mem_cons_self
        (h.minted offer hoffer) ?_ ?_
      · intro o ho _
        obtain ⟨_, -, rfl⟩ := Option.map_eq_some_iff.1 ho
        rfl
      · intro i hmem
        have hold := (List.mem_cons.1 hmem).resolve_left nofun
        have hspent := (h.spent i offer.ceremony hold).2 offer hoffer rfl
        exact absurd (hspent.symm.trans hunclaimed) nofun
  · exact h.stop id

theorem Inv.runAdder (h : Inv blake3 k) (hid : k.tasks[id]? = some t)
    (hnamed : .named t.ceremony ⟨t.key, t.token⟩ ∈ k.log)
    (hdialed : .dialed t.ceremony t.key ∈ k.log) (seams : Seams) :
    Inv blake3 (k.runAdder id t seams) := by
  unfold Kernel.runAdder
  split
  · exact Inv.close (h.stop id) t false true _
  · have hgoto : Inv blake3 (k.goto id (.claiming seams.random)) :=
      h.goto hid ⟨hnamed, hdialed⟩ nofun
    have hid' : (k.goto id (.claiming seams.random)).tasks[id]? =
        some { t with pc := .claiming seams.random } := by simp [Kernel.goto, hid]
    exact hgoto.bindSession hid' rfl nofun

theorem Inv.perform (h : Inv blake3 k) (hid : k.tasks[id]? = some t) {turn : Turn}
    (hturn : TurnOk blake3 k.log t turn) : Inv blake3 (k.perform id t turn) := by
  cases turn with
  | goOn events pc => exact (h.note hturn.1).goto hid hturn.2.1 hturn.2.2
  | say events phase pc =>
    obtain ⟨hevents, hstage, hpc⟩ := hturn
    exact ((h.note hevents).setPhase t.ceremony phase).goto hid (hstage.append _) hpc
  | finish outcome => exact Inv.close (h.stop id) t t.pc.isJoiner false outcome

theorem Inv.respond (h : Inv blake3 k) (hid : k.tasks[id]? = some t) {turn : Option Turn}
    (hturn : ∀ turn' ∈ turn, TurnOk blake3 k.log t turn') : Inv blake3 (k.respond id t turn) := by
  cases turn with
  | none => exact h
  | some turn => exact h.perform hid (hturn turn rfl)

theorem Inv.wake (h : Inv blake3 k) (id : ℕ) (answer : Answer) (seams : Seams) :
    Inv blake3 (k.wake id blake3 answer seams) := by
  unfold Kernel.wake
  split
  · exact h
  · next t hid =>
    have hstage := (h.mem hid).1
    split
    · exact h.leave id (fun _ _ => trivial) nofun
    · exact h.leave id (fun _ _ => trivial) nofun
    · exact (h.sever _).afterTear id seams _
    · exact h.leave id (fun _ _ => trivial) nofun
    · exact h.leave id (fun _ _ => trivial) nofun
    · exact h.tearDown id _ seams
    · next key hpc =>
      rw [hpc] at hstage
      split
      · next hkey =>
        subst hkey
        have hdialed : Inv blake3 (k.note [.dialed t.ceremony t.key]) :=
          h.note (by simp [Justified])
        exact hdialed.runAdder hid (List.mem_cons_of_mem _ hstage) List.mem_cons_self seams
      · exact Inv.close (h.stop id) t false false _
    · exact Inv.close (h.stop id) t false false _
    · next frame hpc => exact h.runJoiner hid hpc frame seams
    · exact h.respond hid fun turn hturn => turnOk_turn hstage (h.mem hid).2 hturn

/-- A confirmation reaches the session whose digits the user has seen. -/
theorem Inv.confirm (h : Inv blake3 k) (hshown : k.ConfirmsShown .confirm) :
    Inv blake3 k.confirm := by
  unfold Kernel.confirm
  split
  · next digits session hphase hsession =>
    split
    · next hconfirm =>
      have hspeaker := hshown digits hphase session hsession hconfirm
      have hnoted : Inv blake3 (k.note [.confirmed k.speaker]) := h.note (by simp [Justified])
      have hfired : Inv blake3 ({ k.note [.confirmed k.speaker] with
          tasks := k.tasks.modify session.task fun t => { t with fired := true } }) := by
        refine hnoted.modify session.task _ fun t ht => ?_
        obtain ⟨t', ht', hceremony, hpc⟩ := h.session session hsession
        obtain rfl := Option.some.inj (ht'.symm.trans ht)
        refine ⟨(hnoted.mem ht).1.fire hpc, fun _ => ?_, rfl, fun hpc => hpc⟩
        rw [hceremony, hspeaker]
        exact List.mem_cons_self
      refine ⟨hfired.stage, hfired.fired, fun s hs => ?_, hfired.authorised, hfired.spent,
        hfired.minted⟩
      obtain rfl := Option.some.inj hs
      exact hfired.session session hsession
    · exact h
  · exact h

theorem Inv.status (h : Inv blake3 k) (now : ℕ) : Inv blake3 (k.status now) := by
  unfold Kernel.status
  split
  · split
    · exact h.setPhase _ _
    · exact h
  · exact h

theorem inv_step (k : Kernel) (l : Label) (hshown : k.ConfirmsShown l) (h : Inv blake3 k) :
    Inv blake3 (k.step blake3 l) := by
  cases l with
  | offer seams => exact h.call .offer seams
  | claim code seams =>
    rw [step]
    split
    · exact h
    · exact h.call (.claim code) seams
  | confirm => exact h.confirm hshown
  | cancel =>
    have hnoted : Inv blake3 (k.note [.cancelled k.begun]) := h.note (by simp [Justified])
    exact hnoted.call (.cancel k.begun) {}
  | status now => exact h.status now
  | inbound key =>
    rw [step]
    split
    · exact h.spawn _ rfl rfl
    · exact h
  | wake task answer seams => exact h.wake task answer seams

theorem inv_start (me : Bytes) : Inv blake3 { me } where
  stage := nofun
  fired := nofun
  session := nofun
  authorised := ⟨nofun, nofun, nofun, nofun⟩
  spent := nofun
  minted := nofun

/-- In a run whose confirmations meet the session whose digits are shown, everything that was
enrolled or adopted was authorised, and a code made at most one connection a session. -/
theorem enrolment_authorised (blake3 : Bytes → Bytes) (me : Bytes) (ls : List Label)
    (hshown : Meets (step blake3) ConfirmsShown { me } ls) :
    Authorised blake3 (run (step blake3) { me } ls).log :=
  (run_preserves_of_meets inv_step hshown (inv_start me)).authorised

/-- A code is claimed, its device dialed, and both sides confirm. -/
def soundRun : List Label :=
  [.claim ⟨List.replicate 32 1, List.replicate 16 9⟩ {}, .wake 1 (.dialed (List.replicate 32 1)) {},
    .wake 1 .ok {},
    .wake 1 (.frame (some (.accept (List.replicate 32 0) (List.replicate 32 1) "" []))) {},
    .wake 1 .ok {}, .confirm, .wake 1 (.frame none) {},
    .wake 1 (.frame (some .confirmJoin)) {}, .wake 1 .ok {}]

theorem enrolment_authorised_soundRun : ¬∃ blake3 : Bytes → Bytes,
    ¬Granted (run (step blake3) { me := List.replicate 32 0 } soundRun).log 1
      (List.replicate 32 1) := by
  rintro ⟨blake3, hnot⟩
  have hshown : Meets (step blake3) ConfirmsShown { me := List.replicate 32 0 } soundRun := by
    simp [soundRun, Meets, ConfirmsShown, step, call, tearDown, afterTear, wake, goto, runAdder,
      note, setPhase, clearOffer, bindSession, perform, respond, Task.turn, Task.onCall,
      Task.onFrame, Task.readAccept, List.modify]
  refine hnot ((enrolment_authorised blake3 _ soundRun hshown).added 1 _ "" ?_)
  simp [soundRun, run, step, call, tearDown, afterTear, wake, goto, runAdder,
    note, setPhase, clearOffer, bindSession, confirm, perform, respond, Task.turn, Task.onCall,
    Task.onFrame, Task.onWake, Task.readAccept, Task.confirmBoth, List.modify]

/-- A claim whose dial takes long, and another one that comes as far as its digits. The user
cancels, and while the peer is told the first dial succeeds. The confirmation that follows, of the
digits of the second claim, goes to the session of the first. -/
def lateDial : List Label :=
  [.claim ⟨List.replicate 32 1, List.replicate 16 9⟩ {},
    .claim ⟨List.replicate 32 2, List.replicate 16 8⟩ {},
    .wake 3 (.dialed (List.replicate 32 2)) {}, .wake 3 .ok {},
    .wake 3 (.frame (some (.accept (List.replicate 32 0) (List.replicate 32 2) "" []))) {},
    .wake 3 .ok {}, .cancel, .wake 1 (.dialed (List.replicate 32 1)) {}, .confirm,
    .wake 1 .ok {},
    .wake 1 (.frame (some (.accept (List.replicate 32 0) (List.replicate 32 1) "" []))) {},
    .wake 1 .ok {}, .wake 1 (.frame none) {}, .wake 1 (.frame (some .confirmJoin)) {},
    .wake 1 .ok {}]

theorem enrolled_unconfirmed : ¬∃ blake3 : Bytes → Bytes,
    Authorised blake3 (run (step blake3) { me := List.replicate 32 0 } lateDial).log := by
  rintro ⟨blake3, h⟩
  have hadded : .added 1 (List.replicate 32 1) "" ∈
      (run (step blake3) { me := List.replicate 32 0 } lateDial).log := by
    simp [lateDial, run, step, call, tearDown, afterTear, wake, goto, runAdder,
      note, setPhase, clearOffer, bindSession, confirm, perform, respond, Task.turn, Task.onCall,
      Task.onFrame, Task.onWake, Task.readAccept, Task.confirmBoth, List.modify, onBehalf]
  have hconfirmed := (h.added 1 _ "" hadded).confirmed
  simp [lateDial, run, step, call, tearDown, afterTear, wake, goto, runAdder,
    note, setPhase, clearOffer, bindSession, confirm, perform, respond, Task.turn, Task.onCall,
    Task.onFrame, Task.onWake, Task.readAccept, Task.confirmBoth, List.modify, onBehalf]
    at hconfirmed

end Kernel

end Polyvisor.Pairing
