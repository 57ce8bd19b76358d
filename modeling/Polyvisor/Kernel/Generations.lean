import Polyvisor.Kernel.Meeting

/-!
# Generations of a meeting

What the tasks of one device share is the generation, the phase, the offer, the session and the
contacts. Tasks of generations that were replaced are still under way.

An answered await has one of a few effects (`Effect`), and what is kept is read off them.

## Main results

* `generations_safe`: in every run, a task whose generation was replaced changes nothing that is
  shared, and stays replaced; a phase that is done stays as long as its generation; a contact is
  recorded, and is on disk, only after both sides confirmed and the nonce matched its commitment;
  and a second claim of a link, from the key that authenticated it, ends the first one unless it is
  done, and is over itself.
* `generations_unsafe`: a contact may be on disk only when its generation was replaced. A second
  claim that names another key than its connection has changes nothing, and none does in the last
  generation there is.
-/

namespace Polyvisor.Meeting

open Transition
open Pairing (Code)

variable (blake3 : Bytes → Bytes)

/-! ## What both sides agreed to -/

/-- The peer introduced itself and committed to a nonce. -/
def Committed (log : List Event) (id : ℕ) (peer commit : Bytes) : Prop :=
  (∃ token key, .received id (.claim token key peer commit) ∈ log) ∨
    ∃ key, .received id (.accept key peer commit) ∈ log

/-- The nonce that the peer revealed is the one it had committed to. -/
def Opened (log : List Event) (id : ℕ) (peer : Bytes) : Prop :=
  ∃ nonce, Committed log id peer (blake3 nonce) ∧ .received id (.reveal nonce) ∈ log

/-- The peer's nonce matched its commitment, and both sides confirmed the same session. -/
structure Agreed (log : List Event) (id : ℕ) (peer : Bytes) : Prop where
  opened : Opened blake3 log id peer
  confirmed : .confirmed id ∈ log
  peerConfirmed : .received id .confirm ∈ log

/-- What has happened by the time a task is in an await. -/
def Stage (log : List Event) (id : ℕ) (t : Task) : Pc → Prop
  | .checking | .accepting | .awaitingReveal => Committed log id t.peer t.commit
  | .revealing => Committed log id t.peer t.commit ∧ (t.host → Opened blake3 log id t.peer)
  | .confirming confirmed peerConfirmed =>
    Opened blake3 log id t.peer ∧ (confirmed → .confirmed id ∈ log) ∧
      (peerConfirmed → .received id .confirm ∈ log)
  | .sendingConfirm peerConfirmed =>
    Opened blake3 log id t.peer ∧ .confirmed id ∈ log ∧
      (peerConfirmed → .received id .confirm ∈ log)
  | .recording | .storing _ | .checkpointing _ => Agreed blake3 log id t.peer
  | _ => True

/-- What has to have happened before an event. -/
def Justified (log : List Event) : Event → Prop
  | .checkpointed id _ peer => Agreed blake3 log id peer
  | _ => True

section Log

variable {blake3} {log : List Event} {id : ℕ} {t : Task} {peer commit : Bytes}

theorem Committed.mono {log' : List Event} (h : Committed log id peer commit) (hlog : log ⊆ log') :
    Committed log' id peer commit := by
  obtain ⟨token, key, hmem⟩ | ⟨key, hmem⟩ := h
  · exact .inl ⟨token, key, hlog hmem⟩
  · exact .inr ⟨key, hlog hmem⟩

theorem Committed.append (h : Committed log id peer commit) (events : List Event) :
    Committed (events ++ log) id peer commit :=
  h.mono (List.subset_append_right events log)

theorem Opened.append (h : Opened blake3 log id peer) (events : List Event) :
    Opened blake3 (events ++ log) id peer := by
  obtain ⟨nonce, hcommitted, hreveal⟩ := h
  exact ⟨nonce, hcommitted.append events, List.mem_append_right _ hreveal⟩

theorem Agreed.append (h : Agreed blake3 log id peer) (events : List Event) :
    Agreed blake3 (events ++ log) id peer where
  opened := h.opened.append events
  confirmed := List.mem_append_right _ h.confirmed
  peerConfirmed := List.mem_append_right _ h.peerConfirmed

theorem Stage.append {pc : Pc} (h : Stage blake3 log id t pc) (events : List Event) :
    Stage blake3 (events ++ log) id t pc := by
  have hmem : ∀ {event}, event ∈ log → event ∈ events ++ log := List.mem_append_right _
  cases pc with
  | checking => exact Committed.append h events
  | accepting => exact Committed.append h events
  | awaitingReveal => exact Committed.append h events
  | revealing => exact ⟨h.1.append events, fun hhost => (h.2 hhost).append events⟩
  | confirming confirmed peerConfirmed =>
    exact ⟨h.1.append events, hmem ∘ h.2.1, hmem ∘ h.2.2⟩
  | sendingConfirm peerConfirmed => exact ⟨h.1.append events, hmem h.2.1, hmem ∘ h.2.2⟩
  | recording => exact Agreed.append h events
  | storing contact => exact Agreed.append h events
  | checkpointing contact => exact Agreed.append h events
  | _ => trivial

end Log

/-! ## What an answered await does -/

def Pc.isSharing : Pc → Bool
  | .sharing _ => true
  | _ => false

/-- A task goes on. What it is and what it holds is kept, and what it comes to is justified. -/
structure Task.Next (log : List Event) (id : ℕ) (t : Task) (events : List Event) (t' : Task) :
    Prop where
  generation : t'.generation = t.generation
  host : t'.host = t.host
  fired : t'.fired = t.fired
  plain : t'.pc.isSharing = false
  started : t'.pc ≠ .reading
  token : t'.pc ≠ .done → t.pc.isSharing = false → t.pc ≠ .done ∧ t'.token = t.token
  stage : Stage blake3 log id t t.pc → (t.fired → .confirmed id ∈ log) →
    (∀ event ∈ events, Justified blake3 log event) ∧ Stage blake3 (events ++ log) id t' t'.pc

/-- What an answered await does. The first group are the turns of a role that has its generation,
the second what a task does whose generation is current, the third the first frame of a
connection. -/
inductive Effect (k : Kernel) (id : ℕ) (t : Task) : Kernel → Prop
  | skip : Effect k id t k
  | goOn {events : List Event} {t' : Task} (h : t.Next blake3 k.log id events t') :
    Effect k id t ((k.note events).update id t')
  | say {events : List Event} {t' : Task} (phase : Phase)
      (h : t.Next blake3 k.log id events t') :
    Effect k id t (((k.note events).setPhase t.generation phase).update id t')
  | close {events : List Event} {u : Task} (outcome : Except String String)
      (h : t.Next blake3 k.log id events { u with pc := .done }) :
    Effect k id t ((k.note events).close id u outcome)
  | dial {t' : Task} (expires : ℕ) (h : t.Next blake3 k.log id [] t') :
    Effect k id t ((k.update id t').armExpiry t.generation expires)
  | expire : Effect k id t ((k.expire t.generation).update id { t with pc := .done })
  | offer {offer : Offer} (phase : Phase) (expires : ℕ) (hpc : t.pc.isSharing)
      (hcurrent : k.generation = t.generation) (hclaimed : offer.claimed = false) :
    Effect k id t ((({ k with offer := some offer }.setPhase t.generation phase).update id
      { t with pc := .done }).armExpiry t.generation expires)
  | bind {t' : Task} (session : Session) (hcurrent : k.generation = t.generation)
      (h : t.Next blake3 k.log id [] t') :
    Effect k id t ({ k with session := some session }.update id t')
  | record {t' : Task} (hpc : t.pc = .recording) (hcurrent : k.generation = t.generation)
      (h : t.Next blake3 k.log id [] t') :
    Effect k id t ({ k with contacts := k.contacts ++ [t.peer] }.update id t')
  | burn (phase : Phase) (hpc : t.pc = .reading) :
    Effect k id t ({ k with generation := k.generation + 1, offer := none, phase, session := none
      }.update id { t with pc := .done })
  | claim {offer : Offer} {u : Task} {frame : Frame} (hpc : t.pc = .reading)
      (hoffer : k.offer = some offer) (hclaimed : offer.claimed = false)
      (hgeneration : u.generation = k.generation) (hhost : u.host) (htoken : u.token = offer.token)
      (hfired : u.fired = t.fired)
      (hcommitted : Committed [.received id frame] id u.peer u.commit) :
    Effect k id t (({ k with offer := some { offer with claimed := true } }.note
      [.received id frame]).update id { u with pc := .checking })
  | malformed {offer : Offer} {u : Task} {frame : Frame} (why : String) (hpc : t.pc = .reading)
      (hoffer : k.offer = some offer) (hclaimed : offer.claimed = false)
      (hgeneration : u.generation = k.generation) (hhost : u.host) (hfired : u.fired = t.fired) :
    Effect k id t (({ k with offer := some { offer with claimed := true } }.note
      [.received id frame]).close id u (.error why))

section Effects

variable {blake3} {k : Kernel} {id : ℕ} {t u : Task} {seams : Seams}

/-- A task goes on to its next await. -/
theorem Task.Next.goto {log : List Event} {pc : Pc} (hpc : t.pc ≠ .done)
    (hplain : pc.isSharing = false) (hstarted : pc ≠ .reading)
    (hstage : Stage blake3 log id t t.pc → (t.fired → .confirmed id ∈ log) →
      Stage blake3 log id t pc) : t.Next blake3 log id [] { t with pc := pc } where
  generation := rfl
  host := rfl
  fired := rfl
  plain := hplain
  started := hstarted
  token _ _ := ⟨hpc, rfl⟩
  stage h hfired := ⟨nofun, hstage h hfired⟩

/-- A task is over. -/
theorem Task.Next.over {log events : List Event} (hgeneration : u.generation = t.generation)
    (hhost : u.host = t.host) (hfired : u.fired = t.fired)
    (hevents : Stage blake3 log id t t.pc → ∀ event ∈ events, Justified blake3 log event) :
    t.Next blake3 log id events { u with pc := .done } where
  generation := hgeneration
  host := hhost
  fired := hfired
  plain := rfl
  started := nofun
  token h := absurd rfl h
  stage h _ := ⟨hevents h, trivial⟩

theorem Effect.stop (k : Kernel) (id : ℕ) (t : Task) (outcome : Except String String) :
    Effect blake3 k id t (k.close id t outcome) := by
  have hover : t.Next blake3 k.log id [] { t with pc := .done } := .over rfl rfl rfl fun _ => nofun
  exact close outcome hover

theorem Effect.go {pc : Pc} (hpc : t.pc ≠ .done) (hplain : pc.isSharing = false)
    (hstarted : pc ≠ .reading)
    (hstage : Stage blake3 k.log id t t.pc → (t.fired → .confirmed id ∈ k.log) →
      Stage blake3 k.log id t pc) : Effect blake3 k id t (k.update id { t with pc := pc }) := by
  have hgoto : t.Next blake3 k.log id [] { t with pc := pc } := .goto hpc hplain hstarted hstage
  exact goOn hgoto

theorem Effect.ignore (k : Kernel) (id : ℕ) (t : Task) :
    Effect blake3 k id t (k.update id { t with pc := .done }) := by
  have hover : t.Next blake3 k.log id [] { t with pc := .done } := .over rfl rfl rfl fun _ => nofun
  exact goOn hover

theorem effect_refuseFrame (frame : Option Frame) :
    Effect blake3 k id t (k.refuseFrame id t frame) := by
  unfold Kernel.refuseFrame
  split <;> exact .stop k id t _

theorem effect_readAccept (hpc : t.pc = .awaitingAccept) (frame : Option Frame) :
    Effect blake3 k id t (k.readAccept id t frame) := by
  unfold Kernel.readAccept
  split
  · next key introduction commit =>
    split
    · exact .stop k id t _
    · split
      · exact .stop k id t _
      · refine .goOn ⟨rfl, rfl, rfl, rfl, nofun, fun _ _ => ⟨by simp [hpc], rfl⟩, fun _ _ => ?_⟩
        -- the commitment is the one that was just read
        exact ⟨by simp [Justified], .inr ⟨key, by simp⟩⟩
  · exact .stop k id t _
  · exact effect_refuseFrame _

/-- The head of the confirmation shows the digits, or there is a later meeting. -/
theorem effect_review {events : List Event} {peerNonce : Bytes} (hpc : t.pc ≠ .done)
    (hevents : ∀ event ∈ events, Justified blake3 k.log event)
    (hopened : Stage blake3 k.log id t t.pc → Opened blake3 (events ++ k.log) id t.peer) :
    Effect blake3 k id t ((k.note events).review id blake3 { t with peerNonce }) := by
  unfold Kernel.review
  split
  · exact .close _ (.over rfl rfl rfl fun _ => hevents)
  · refine .say _ ⟨rfl, rfl, rfl, rfl, (by simp), fun _ _ => ⟨hpc, rfl⟩, fun hstage _ => ?_⟩
    exact ⟨hevents, hopened hstage, (by simp), (by simp)⟩

/-- The reveal is checked against the commitment. -/
theorem effect_readReveal (hpc : t.pc = .awaitingReveal) (frame : Option Frame) :
    Effect blake3 k id t (k.readReveal id blake3 t frame) := by
  unfold Kernel.readReveal
  split
  · next nonce =>
    split
    · exact .stop k id t _
    · split
      · exact .stop k id t _
      · next hhash =>
        have hdone : t.pc ≠ .done := by simp [hpc]
        have hevents : ∀ event ∈ [Event.received id (.reveal nonce)],
            Justified blake3 k.log event := by simp [Justified]
        have hopened : Stage blake3 k.log id t t.pc →
            Opened blake3 ([.received id (.reveal nonce)] ++ k.log) id t.peer := by
          intro hstage
          rw [hpc] at hstage
          have hcommitted : Committed k.log id t.peer t.commit := hstage
          rw [← not_ne_iff.1 hhash] at hcommitted
          exact ⟨nonce, hcommitted.append _, List.mem_cons_self⟩
        dsimp only
        split
        · refine .goOn ⟨rfl, rfl, rfl, rfl, nofun, fun _ _ => ⟨hdone, rfl⟩, fun hstage _ => ?_⟩
          refine ⟨hevents, ?_, fun _ => hopened hstage⟩
          rw [hpc] at hstage
          exact Committed.append hstage _
        · exact effect_review hdone hevents hopened
  · exact effect_refuseFrame _

/-- Both sides have confirmed by then. -/
theorem effect_accept {events : List Event} (hpc : t.pc ≠ .done)
    (hevents : ∀ event ∈ events, Justified blake3 k.log event)
    (hagreed : Stage blake3 k.log id t t.pc → Agreed blake3 (events ++ k.log) id t.peer) :
    Effect blake3 k id t ((k.note events).accept id t seams) := by
  unfold Kernel.accept
  split
  · exact .close _ (.over rfl rfl rfl fun _ => hevents)
  · split
    · exact .close _ (.over rfl rfl rfl fun _ => hevents)
    · refine .goOn ⟨rfl, rfl, rfl, rfl, nofun, fun _ _ => ⟨hpc, rfl⟩, fun hstage _ => ?_⟩
      exact ⟨hevents, hagreed hstage⟩

theorem effect_wakeConfirming {confirmed peerConfirmed : Bool} {frame : Option (Option Frame)}
    (hpc : t.pc = .confirming confirmed peerConfirmed) (hfired : frame = none → t.fired) :
    Effect blake3 k id t (k.wakeConfirming id t confirmed peerConfirmed seams frame) := by
  have hdone : t.pc ≠ .done := by simp [hpc]
  unfold Kernel.wakeConfirming
  split
  · exact .stop k id t _
  · split
    · -- the user's confirmation was sent to this task
      have hconfirmed := hfired rfl
      refine .go hdone rfl (by simp) fun hstage hlog => ?_
      rw [hpc] at hstage
      exact ⟨hstage.1, hlog hconfirmed, hstage.2.2⟩
    · have hevents : ∀ event ∈ [Event.received id .confirm], Justified blake3 k.log event := by
        simp [Justified]
      dsimp only
      split
      · next hconfirmed =>
        refine effect_accept hdone hevents fun hstage => ?_
        rw [hpc] at hstage
        exact ⟨Opened.append hstage.1 _, List.mem_cons_of_mem _ (hstage.2.1 hconfirmed),
          List.mem_cons_self⟩
      · refine .goOn ⟨rfl, rfl, rfl, rfl, (by simp), fun _ _ => ⟨hdone, rfl⟩, fun hstage _ => ?_⟩
        rw [hpc] at hstage
        exact ⟨hevents, hstage.1.append _, (by simp), fun _ => List.mem_cons_self⟩
    · exact effect_refuseFrame _

/-- The first frame of a connection claims an offer that nobody claimed before, ends a meeting whose
offer was claimed, or is ignored. -/
theorem effect_runHost (hpc : t.pc = .reading) (frame : Option Frame) :
    Effect blake3 k id t (k.runHost id t frame seams) := by
  have hignored : Effect blake3 k id t (k.update id { t with pc := .done }) := .ignore k id t
  unfold Kernel.runHost
  dsimp only
  split
  · next token key introduction commit =>
    split
    · exact hignored
    · split
      · exact hignored
      · next offer hoffer =>
        split
        · exact hignored
        · next htoken =>
          split
          · split
            · exact hignored
            · exact .burn _ hpc
          · next hclaimed =>
            have hfresh : offer.claimed = false := by simpa using hclaimed
            split
            · exact hignored
            · split
              · exact .malformed _ hpc hoffer hfresh rfl rfl rfl
              · split
                · exact .malformed _ hpc hoffer hfresh rfl rfl rfl
                · let u : Task :=
                    { t with
                      generation := k.generation, host := true, token, own := offer.introduction
                      peer := introduction, commit }
                  refine .claim (u := u) hpc hoffer hfresh rfl rfl (not_ne_iff.1 htoken) rfl ?_
                  exact .inl ⟨token, key, List.mem_cons_self⟩
  · exact hignored

/-- A session is bound, if there is none and no later meeting. -/
theorem effect_bindSession {pc : Pc} (hdone : t.pc ≠ .done) (hplain : pc.isSharing = false)
    (hstarted : pc ≠ .reading)
    (hstage : Stage blake3 k.log id t t.pc → ∀ nonce,
      Stage blake3 k.log id { t with pc, nonce } pc) :
    Effect blake3 k id t (k.bindSession id t pc seams) := by
  unfold Kernel.bindSession
  split
  · exact .stop k id t _
  · next hfree =>
    rw [not_or, not_ne_iff] at hfree
    refine .bind _ hfree.1 ⟨rfl, rfl, rfl, hplain, hstarted, fun _ _ => ⟨hdone, rfl⟩, ?_⟩
    exact fun h _ => ⟨nofun, hstage h seams.random⟩

/-! Each await of a task has its effects. -/

section Awaits

variable {answer : Answer}

theorem effect_sharing {join : Option Code} (hpc : t.pc = .sharing join) :
    Effect blake3 k id t (k.wake id blake3 t answer seams) := by
  simp only [Kernel.wake, hpc]
  split
  · split
    · exact .ignore k id t
    · next hcurrent =>
      split
      · exact .offer _ _ (by simp [hpc, Pc.isSharing]) (not_ne_iff.1 hcurrent) rfl
      · refine .dial _ ⟨rfl, rfl, rfl, rfl, (by simp), fun _ h => ?_, ?_⟩
        · simp [hpc, Pc.isSharing] at h
        · exact fun _ _ => ⟨(by simp), trivial⟩
  · have hover : t.Next blake3 k.log id [] { t with pc := .done } :=
      .over rfl rfl rfl fun _ => (by simp)
    exact .say _ hover
  · exact .skip

theorem effect_sleeping {expires : ℕ} (hpc : t.pc = .sleeping expires) :
    Effect blake3 k id t (k.wake id blake3 t answer seams) := by
  simp only [Kernel.wake, hpc]
  split
  · split
    · exact .expire
    · exact .ignore k id t
  · exact .skip

theorem effect_dialing (hpc : t.pc = .dialing) :
    Effect blake3 k id t (k.wake id blake3 t answer seams) := by
  have hdone : t.pc ≠ .done := by simp [hpc]
  simp only [Kernel.wake, hpc]
  split
  · split
    · exact .stop k id t _
    · split
      · exact .ignore k id t
      · exact effect_bindSession hdone rfl (by simp) fun _ _ => trivial
  · exact .stop k id t _
  · exact .skip

/-- Only the host binds a session once the introduction is checked. -/
theorem effect_checking (hpc : t.pc = .checking) :
    Effect blake3 k id t (k.wake id blake3 t answer seams) := by
  have hdone : t.pc ≠ .done := by simp [hpc]
  have hchecked : Stage blake3 k.log id t t.pc → Committed k.log id t.peer t.commit := by
    rw [hpc]
    exact fun h => h
  simp only [Kernel.wake, hpc]
  split
  · split
    · exact effect_bindSession hdone rfl (by simp) fun h _ => hchecked h
    · next hhost => exact .go hdone rfl (by simp) fun h _ => ⟨hchecked h, fun hh => absurd hh hhost⟩
  · exact .stop k id t _
  · exact .skip

/-- The host has read the peer's nonce by then. -/
theorem effect_revealing (hpc : t.pc = .revealing) :
    Effect blake3 k id t (k.wake id blake3 t answer seams) := by
  have hdone : t.pc ≠ .done := by simp [hpc]
  simp only [Kernel.wake, hpc]
  split
  · split
    · next hhost =>
      have hnone : ∀ event ∈ [], Justified blake3 k.log event := by simp
      have hopened : Stage blake3 k.log id t t.pc → Opened blake3 k.log id t.peer := by
        rw [hpc]
        exact fun h => h.2 hhost
      exact effect_review hdone hnone hopened
    · refine .go hdone rfl (by simp) fun h _ => ?_
      rw [hpc] at h
      exact h.1
  · exact .stop k id t _
  · exact .skip

theorem effect_confirming {confirmed peerConfirmed : Bool}
    (hpc : t.pc = .confirming confirmed peerConfirmed) :
    Effect blake3 k id t (k.wake id blake3 t answer seams) := by
  simp only [Kernel.wake, hpc]
  split
  · next hfired =>
    rw [Bool.and_eq_true] at hfired
    exact effect_wakeConfirming hpc fun _ => hfired.2
  · split
    · exact effect_wakeConfirming hpc (by simp)
    · exact .skip

theorem effect_sendingConfirm {peerConfirmed : Bool} (hpc : t.pc = .sendingConfirm peerConfirmed) :
    Effect blake3 k id t (k.wake id blake3 t answer seams) := by
  have hdone : t.pc ≠ .done := by simp [hpc]
  simp only [Kernel.wake, hpc]
  split
  · split
    · next hpeer =>
      have hnone : ∀ event ∈ [], Justified blake3 k.log event := by simp
      refine effect_accept hdone hnone fun h => ?_
      rw [hpc] at h
      exact ⟨h.1, h.2.1, h.2.2 hpeer⟩
    · have hgoto : t.Next blake3 k.log id [] { t with pc := .confirming true false } := by
        refine .goto hdone rfl (by simp) fun h _ => ?_
        rw [hpc] at h
        exact ⟨h.1, fun _ => h.2.1, (by simp)⟩
      exact .say _ hgoto
  · exact .stop k id t _
  · exact .skip

theorem effect_recording (hpc : t.pc = .recording) :
    Effect blake3 k id t (k.wake id blake3 t answer seams) := by
  simp only [Kernel.wake, hpc]
  split
  · split
    · exact .stop k id t _
    · next hcurrent =>
      split
      · exact .stop k id t _
      · refine .record hpc (not_ne_iff.1 hcurrent) (.goto (by simp [hpc]) rfl (by simp) ?_)
        intro h _
        rwa [hpc] at h
  · exact .stop k id t _
  · exact .skip

/-- The contact that was recorded is on disk. -/
theorem effect_checkpointing {contact : String} (hpc : t.pc = .checkpointing contact) :
    Effect blake3 k id t (k.wake id blake3 t answer seams) := by
  have hevents : Stage blake3 k.log id t t.pc →
      ∀ event ∈ [Event.checkpointed id k.generation t.peer], Justified blake3 k.log event := by
    rw [hpc]
    exact fun h => List.forall_mem_singleton.2 h
  simp only [Kernel.wake, hpc]
  split
  · split
    · exact .close _ (.over rfl rfl rfl hevents)
    · refine .say _ ⟨rfl, rfl, rfl, rfl, (by simp), fun _ _ => ⟨by simp [hpc], rfl⟩, ?_⟩
      exact fun h _ => ⟨hevents h, trivial⟩
  · exact .stop k id t _
  · exact .skip

/-- An await after which the task goes on where its stage stays as it is. -/
theorem effect_goOn {pc : Pc} (hdone : t.pc ≠ .done) (hplain : pc.isSharing = false)
    (hstarted : pc ≠ .reading)
    (hstage : Stage blake3 k.log id t t.pc → Stage blake3 k.log id t pc) :
    Effect blake3 k id t (match answer with
      | .ok => k.update id { t with pc := pc }
      | .err why => k.close id t (.error why)
      | _ => k) := by
  split
  · exact .go hdone hplain hstarted fun h _ => hstage h
  · exact .stop k id t _
  · exact .skip

end Awaits

/-- Whatever an await answers has one of the effects. -/
theorem wake_effect (k : Kernel) (id : ℕ) (t : Task) (answer : Answer) (seams : Seams) :
    Effect blake3 k id t (k.wake id blake3 t answer seams) := by
  cases hpc : t.pc with
  | done =>
    simp only [Kernel.wake, hpc]
    exact .skip
  | sharing join => exact effect_sharing hpc
  | sleeping expires => exact effect_sleeping hpc
  | dialing => exact effect_dialing hpc
  | claiming =>
    simp only [Kernel.wake, hpc]
    exact effect_goOn (by simp [hpc]) rfl (by simp) fun _ => trivial
  | awaitingAccept =>
    simp only [Kernel.wake, hpc]
    split
    · exact effect_readAccept hpc _
    · exact .skip
  | reading =>
    simp only [Kernel.wake, hpc]
    split
    · exact effect_runHost hpc _
    · exact .ignore k id t
    · exact .skip
  | checking => exact effect_checking hpc
  | accepting =>
    simp only [Kernel.wake, hpc]
    refine effect_goOn (by simp [hpc]) rfl (by simp) fun h => ?_
    rwa [hpc] at h
  | awaitingReveal =>
    simp only [Kernel.wake, hpc]
    split
    · exact effect_readReveal hpc _
    · exact .skip
  | revealing => exact effect_revealing hpc
  | confirming confirmed peerConfirmed => exact effect_confirming hpc
  | sendingConfirm peerConfirmed => exact effect_sendingConfirm hpc
  | recording => exact effect_recording hpc
  | storing contact =>
    simp only [Kernel.wake, hpc]
    refine effect_goOn (by simp [hpc]) rfl (by simp) fun h => ?_
    rwa [hpc] at h
  | checkpointing contact => exact effect_checkpointing hpc
  | receipt contact =>
    simp only [Kernel.wake, hpc]
    exact .stop k id t _

end Effects

/-! ## What tasks of a replaced generation leave alone -/

/-- What the tasks of all generations share. -/
def Kernel.shared (k : Kernel) : ℕ × Phase × Option Offer × Option Session × List Bytes :=
  (k.generation, k.phase, k.offer, k.session, k.contacts)

section Shared

variable {blake3} {k k' : Kernel} {id generation : ℕ} {t u : Task}

theorem setPhase_of_ne (h : k.generation ≠ generation) (phase : Phase) :
    k.setPhase generation phase = k := by
  rw [Kernel.setPhase, if_pos (.inl h)]

theorem setPhase_of_isDone (h : k.phase.isDone) (phase : Phase) :
    k.setPhase generation phase = k := by
  rw [Kernel.setPhase, if_pos (.inr h)]

@[simp]
theorem note_generation (events : List Event) : (k.note events).generation = k.generation := rfl

@[simp]
theorem update_generation : (k.update id t).generation = k.generation := rfl

@[simp]
theorem armExpiry_generation (expires : ℕ) :
    (k.armExpiry generation expires).generation = k.generation := rfl

@[simp]
theorem note_tasks (events : List Event) : (k.note events).tasks = k.tasks := rfl

@[simp]
theorem update_tasks : (k.update id t).tasks = k.tasks.set id t := rfl

@[simp]
theorem armExpiry_tasks (expires : ℕ) : (k.armExpiry generation expires).tasks =
    k.tasks ++ [{ pc := .sleeping expires, generation }] := rfl

@[simp]
theorem note_log (events : List Event) : (k.note events).log = events ++ k.log := rfl

@[simp]
theorem update_log : (k.update id t).log = k.log := rfl

@[simp]
theorem note_contacts (events : List Event) : (k.note events).contacts = k.contacts := rfl

@[simp]
theorem update_contacts : (k.update id t).contacts = k.contacts := rfl

@[simp]
theorem setPhase_generation (phase : Phase) :
    (k.setPhase generation phase).generation = k.generation := by
  unfold Kernel.setPhase
  split <;> rfl

@[simp]
theorem setPhase_tasks (phase : Phase) : (k.setPhase generation phase).tasks = k.tasks := by
  unfold Kernel.setPhase
  split <;> rfl

@[simp]
theorem setPhase_log (phase : Phase) : (k.setPhase generation phase).log = k.log := by
  unfold Kernel.setPhase
  split <;> rfl

@[simp]
theorem setPhase_contacts (phase : Phase) :
    (k.setPhase generation phase).contacts = k.contacts := by
  unfold Kernel.setPhase
  split <;> rfl

theorem finish_of_ne (h : k.generation ≠ generation) (outcome : Except String String) :
    k.finish generation outcome = k := by
  unfold Kernel.finish
  rw [if_pos h]

/-- The end of a meeting takes its session, and says its phase or does not. -/
theorem finish_cases (k : Kernel) (generation : ℕ) (outcome : Except String String) : ∃ session,
    k.finish generation outcome = { k with session := session } ∨
      ∃ phase, k.finish generation outcome =
        { k with session := session }.setPhase generation phase := by
  unfold Kernel.finish
  split
  · exact ⟨k.session, .inl rfl⟩
  · dsimp only
    split
    · exact ⟨_, .inl rfl⟩
    · exact ⟨_, .inr ⟨_, rfl⟩⟩

/-- A role ends, and of what is shared it takes the session, takes the offer if it is a host of the
current generation, and says its phase. -/
theorem close_cases (k : Kernel) (id : ℕ) (t : Task) (outcome : Except String String) :
    ∃ offer session,
    (offer = k.offer ∨ offer = none ∧ t.host ∧ k.generation = t.generation) ∧
    (k.close id t outcome = { k with offer := offer, session := session }.update id
        { t with pc := .done } ∨
      ∃ phase, k.close id t outcome = ({ k with offer := offer, session := session }.setPhase
        t.generation phase).update id { t with pc := .done }) := by
  unfold Kernel.close
  dsimp only
  split
  · next h =>
    obtain ⟨session, hfinish | ⟨phase, hfinish⟩⟩ :=
      finish_cases { k with offer := none } t.generation outcome
    · exact ⟨none, session, .inr ⟨rfl, h⟩, .inl (by rw [hfinish])⟩
    · exact ⟨none, session, .inr ⟨rfl, h⟩, .inr ⟨phase, by rw [hfinish]⟩⟩
  · obtain ⟨session, hfinish | ⟨phase, hfinish⟩⟩ :=
      finish_cases k t.generation outcome
    · exact ⟨k.offer, session, .inl rfl, .inl (by rw [hfinish])⟩
    · exact ⟨k.offer, session, .inl rfl, .inr ⟨phase, by rw [hfinish]⟩⟩

theorem close_of_ne (h : k.generation ≠ t.generation) (outcome : Except String String) :
    k.close id t outcome = k.update id { t with pc := .done } := by
  unfold Kernel.close
  rw [if_neg fun hhost => h hhost.2]
  dsimp only
  rw [finish_of_ne h]

theorem expire_of_ne (h : k.generation ≠ generation) : k.expire generation = k := by
  rw [Kernel.expire, if_pos (.inl h)]

theorem Phase.not_isActive_of_isDone {phase : Phase} (h : phase.isDone) :
    phase.isActive = false := by
  cases phase <;> first | rfl | cases h

theorem expire_of_isDone (h : k.phase.isDone) : k.expire generation = k := by
  rw [Kernel.expire, if_pos (.inr (by simp [Phase.not_isActive_of_isDone h]))]

/-- An expiry ends the generation, or clears the offer of the last one there is. -/
theorem expire_cases (k : Kernel) (generation : ℕ) : k.expire generation = k ∨
    (k.generation = lastGeneration ∧ ∃ phase,
      k.expire generation = { k with offer := none, phase }) ∨
    ∃ phase, k.expire generation =
      { k with generation := k.generation + 1, offer := none, phase, session := none } := by
  unfold Kernel.expire
  split
  · exact .inl rfl
  · split
    · next hlast => exact .inr (.inl ⟨hlast, _, rfl⟩)
    · exact .inr (.inr ⟨_, rfl⟩)

/-- A task whose generation was replaced changes nothing that is shared. -/
theorem Effect.stale (h : Effect blake3 k id t k') (hpc : t.pc ≠ .reading)
    (hne : k.generation ≠ t.generation) : k'.shared = k.shared := by
  cases h with
  | skip => rfl
  | goOn hnext => rfl
  | @say events t' phase hnext =>
    have hne' : (k.note events).generation ≠ t.generation := hne
    rw [setPhase_of_ne hne']
    rfl
  | @close events u outcome hnext =>
    have hgeneration : u.generation = t.generation := hnext.generation
    have hne' : (k.note events).generation ≠ u.generation := by rwa [hgeneration]
    rw [close_of_ne hne']
    rfl
  | dial expires hnext => rfl
  | expire =>
    rw [expire_of_ne hne]
    rfl
  | offer phase expires hsharing hcurrent hclaimed => exact absurd hcurrent hne
  | bind session hcurrent hnext => exact absurd hcurrent hne
  | record hrecording hcurrent hnext => exact absurd hcurrent hne
  | burn phase hreading => exact absurd hreading hpc
  | claim hreading => exact absurd hreading hpc
  | malformed why hreading => exact absurd hreading hpc

/-- What is done stays, in its generation. -/
theorem Effect.done (h : Effect blake3 k id t k') (hdone : k.phase.isDone)
    (hsame : k'.generation = k.generation) : k'.phase = k.phase := by
  cases h with
  | skip => rfl
  | goOn hnext => rfl
  | @say events t' phase hnext =>
    have hdone' : (k.note events).phase.isDone := hdone
    rw [setPhase_of_isDone hdone']
    rfl
  | close outcome hnext =>
    obtain ⟨offer, session, -, hclose | ⟨phase, hclose⟩⟩ := close_cases _ id _ outcome
    · rw [hclose]
      rfl
    · rw [hclose, setPhase_of_isDone (by exact hdone)]
      rfl
  | dial expires hnext => rfl
  | expire =>
    rw [expire_of_isDone hdone]
    rfl
  | offer phase expires hsharing hcurrent hclaimed =>
    rw [setPhase_of_isDone (by exact hdone)]
    rfl
  | bind session hcurrent hnext => rfl
  | record hrecording hcurrent hnext => rfl
  | burn phase hreading => exact absurd hsame (Nat.succ_ne_self _)
  | claim hreading => rfl
  | malformed why hreading =>
    obtain ⟨offer, session, -, hclose | ⟨phase, hclose⟩⟩ := close_cases _ id _ (Except.error why)
    · rw [hclose]
      rfl
    · rw [hclose, setPhase_of_isDone (by exact hdone)]
      rfl

@[simp]
theorem close_generation (outcome : Except String String) :
    (k.close id t outcome).generation = k.generation := by
  obtain ⟨offer, session, -, hclose | ⟨phase, hclose⟩⟩ :=
    close_cases k id t outcome
  · rw [hclose]
    rfl
  · rw [hclose]
    exact setPhase_generation phase

theorem le_expire_generation : k.generation ≤ (k.expire generation).generation := by
  obtain h | ⟨-, phase, h⟩ | ⟨phase, h⟩ := expire_cases k generation
  · exact Nat.le_of_eq (congrArg Kernel.generation h).symm
  · exact Nat.le_of_eq (congrArg Kernel.generation h).symm
  · rw [h]
    exact Nat.le_succ _

theorem Effect.le_generation (h : Effect blake3 k id t k') : k.generation ≤ k'.generation := by
  cases h with
  | skip => exact Nat.le_refl _
  | goOn hnext => exact Nat.le_refl _
  | say phase hnext => simp
  | close outcome hnext => simp
  | dial expires hnext => exact Nat.le_refl _
  | expire => exact le_expire_generation
  | offer phase expires hsharing hcurrent hclaimed => simp
  | bind session hcurrent hnext => exact Nat.le_refl _
  | record hrecording hcurrent hnext => exact Nat.le_refl _
  | burn phase hreading => exact Nat.le_succ _
  | claim hreading => exact Nat.le_refl _
  | malformed why hreading => simp

end Shared

/-! ## What becomes of a task -/

/-- A task keeps its generation, and what is over stays over. -/
def Follows (t t' : Task) : Prop :=
  t.pc ≠ .reading → t'.pc ≠ .reading ∧ t'.generation = t.generation ∧ (t.pc = .done → t'.pc = .done)

section Tasks

variable {blake3} {k k' : Kernel} {id : ℕ} {t : Task}

theorem of_getElem?_set {tasks : List Task} {i : ℕ} {u : Task}
    (h : (tasks.set id t)[i]? = some u) : i = id ∧ u = t ∨ i ≠ id ∧ tasks[i]? = some u := by
  by_cases hne : i = id
  · subst hne
    have hlt : i < tasks.length := by simpa using (List.getElem?_eq_some_iff.1 h).1
    rw [List.getElem?_set_self hlt] at h
    exact .inl ⟨rfl, (Option.some.inj h).symm⟩
  · rw [List.getElem?_set_ne (Ne.symm hne)] at h
    exact .inr ⟨hne, h⟩

theorem of_getElem?_concat {tasks : List Task} {i : ℕ} {u : Task}
    (h : (tasks ++ [t])[i]? = some u) : tasks[i]? = some u ∨ i = tasks.length ∧ u = t := by
  obtain hlt | hge := Nat.lt_or_ge i tasks.length
  · rw [List.getElem?_append_left hlt] at h
    exact .inl h
  · have hi : i < (tasks ++ [t]).length := (List.getElem?_eq_some_iff.1 h).1
    rw [List.getElem?_append_right hge] at h
    rw [List.length_append, List.length_singleton] at hi
    exact .inr ⟨by omega, List.mem_singleton.1 (List.mem_of_getElem? h)⟩

theorem Follows.refl (t : Task) : Follows t t :=
  fun h => ⟨h, rfl, fun hdone => hdone⟩

@[simp]
theorem close_tasks (outcome : Except String String) :
    (k.close id t outcome).tasks = k.tasks.set id { t with pc := .done } := by
  obtain ⟨offer, session, -, hclose | ⟨phase, hclose⟩⟩ :=
    close_cases k id t outcome
  · rw [hclose, update_tasks]
  · rw [hclose, update_tasks, setPhase_tasks]

@[simp]
theorem expire_tasks (generation : ℕ) : (k.expire generation).tasks = k.tasks := by
  obtain h | ⟨-, phase, h⟩ | ⟨phase, h⟩ := expire_cases k generation <;> rw [h]

@[simp]
theorem expire_log (generation : ℕ) : (k.expire generation).log = k.log := by
  obtain h | ⟨-, phase, h⟩ | ⟨phase, h⟩ := expire_cases k generation <;> rw [h]

@[simp]
theorem expire_contacts (generation : ℕ) : (k.expire generation).contacts = k.contacts := by
  obtain h | ⟨-, phase, h⟩ | ⟨phase, h⟩ := expire_cases k generation <;> rw [h]

theorem Task.Next.follows {log events : List Event} {t' : Task}
    (h : t.Next blake3 log id events t') : Follows t t' := by
  intro hpc
  refine ⟨h.started, h.generation, fun hdone => ?_⟩
  by_contra hne
  exact (h.token hne (by rw [hdone]; rfl)).1 hdone

theorem Follows.over (t : Task) : Follows t { t with pc := .done } :=
  fun _ => ⟨nofun, rfl, fun _ => rfl⟩

theorem Follows.of_reading {t' : Task} (h : t.pc = .reading) : Follows t t' :=
  fun hne => absurd h hne

/-- An answered await changes the record of its own task, and may start an expiry. -/
theorem Effect.tasks (h : Effect blake3 k id t k') : k' = k ∨ ∃ t' armed,
    k'.tasks = k.tasks.set id t' ++ armed ∧ Follows t t' := by
  cases h with
  | skip => exact .inl rfl
  | goOn hnext => exact .inr ⟨_, [], by simp, hnext.follows⟩
  | say phase hnext => exact .inr ⟨_, [], by simp, hnext.follows⟩
  | close outcome hnext => exact .inr ⟨_, [], by simp, hnext.follows⟩
  | dial expires hnext => exact .inr ⟨_, _, armExpiry_tasks expires, hnext.follows⟩
  | expire => exact .inr ⟨_, [], by simp, .over t⟩
  | offer phase expires hsharing hcurrent hclaimed =>
    exact .inr ⟨_, _, by rw [armExpiry_tasks, update_tasks, setPhase_tasks], .over t⟩
  | bind session hcurrent hnext => exact .inr ⟨_, [], by simp, hnext.follows⟩
  | record hrecording hcurrent hnext => exact .inr ⟨_, [], by simp, hnext.follows⟩
  | burn phase hreading => exact .inr ⟨_, [], by simp, .over t⟩
  | @claim offer u frame hreading =>
    exact .inr ⟨{ u with pc := .checking }, [], by simp, .of_reading hreading⟩
  | @malformed offer u frame why hreading =>
    exact .inr ⟨{ u with pc := .done }, [], by simp, .of_reading hreading⟩

theorem Effect.follows (h : Effect blake3 k id t k') (hid : k.tasks[id]? = some t) {j : ℕ}
    {u : Task} (hj : k.tasks[j]? = some u) : ∃ u', k'.tasks[j]? = some u' ∧ Follows u u' := by
  obtain rfl | ⟨t', armed, htasks, hfollows⟩ := h.tasks
  · exact ⟨u, hj, .refl u⟩
  · have hlt : j < k.tasks.length := (List.getElem?_eq_some_iff.1 hj).1
    rw [htasks, List.getElem?_append_left (by rwa [List.length_set])]
    by_cases hne : j = id
    · subst hne
      obtain rfl := Option.some.inj (hid.symm.trans hj)
      exact ⟨t', List.getElem?_set_self hlt, hfollows⟩
    · exact ⟨u, by rw [List.getElem?_set_ne (Ne.symm hne), hj], .refl u⟩

end Tasks

/-! ## What both sides agreed to is kept -/

/-- A task is in an await only after what leads to it, and so is a contact there. -/
structure Inv (k : Kernel) : Prop where
  stage : ∀ id t, k.tasks[id]? = some t → Stage blake3 k.log id t t.pc
  fired : ∀ id t, k.tasks[id]? = some t → t.fired → .confirmed id ∈ k.log
  contacts : ∀ peer ∈ k.contacts, ∃ id, Agreed blake3 k.log id peer
  stored : ∀ id generation peer, .checkpointed id generation peer ∈ k.log →
    Agreed blake3 k.log id peer

section Inv

variable {blake3} {k k' : Kernel} {id : ℕ} {t : Task}

theorem Inv.of_eq (h : Inv blake3 k) (htasks : k'.tasks = k.tasks) (hlog : k'.log = k.log)
    (hcontacts : k'.contacts = k.contacts) : Inv blake3 k' where
  stage := by
    rw [htasks, hlog]
    exact h.stage
  fired := by
    rw [htasks, hlog]
    exact h.fired
  contacts := by
    rw [hcontacts, hlog]
    exact h.contacts
  stored := by
    rw [hlog]
    exact h.stored

theorem Inv.setPhase (h : Inv blake3 k) (generation : ℕ) (phase : Phase) :
    Inv blake3 (k.setPhase generation phase) :=
  h.of_eq (setPhase_tasks phase) (setPhase_log phase) (setPhase_contacts phase)

theorem Inv.note (h : Inv blake3 k) {events : List Event}
    (hevents : ∀ event ∈ events, Justified blake3 k.log event) : Inv blake3 (k.note events) where
  stage i u hi := (h.stage i u hi).append events
  fired i u hi hfired := List.mem_append_right _ (h.fired i u hi hfired)
  contacts peer hpeer := (h.contacts peer hpeer).imp fun _ hagreed => hagreed.append events
  stored i generation peer hmem := by
    obtain hmem | hmem := List.mem_append.1 hmem
    · exact Agreed.append (hevents _ hmem) events
    · exact (h.stored i generation peer hmem).append events

theorem Inv.update (h : Inv blake3 k) (hstage : Stage blake3 k.log id t t.pc)
    (hfired : t.fired → .confirmed id ∈ k.log) : Inv blake3 (k.update id t) where
  stage i u hi := by
    obtain ⟨rfl, rfl⟩ | ⟨-, hi⟩ := of_getElem?_set hi
    exacts [hstage, h.stage i u hi]
  fired i u hi := by
    obtain ⟨rfl, rfl⟩ | ⟨-, hi⟩ := of_getElem?_set hi
    exacts [hfired, h.fired i u hi]
  contacts := h.contacts
  stored := h.stored

theorem Inv.over (h : Inv blake3 k) (hfired : t.fired → .confirmed id ∈ k.log) :
    Inv blake3 (k.update id { t with pc := .done }) :=
  h.update trivial hfired

/-- A task begins that nobody confirmed. -/
theorem Inv.spawn (h : Inv blake3 k) (t : Task) (hstage : ∀ id, Stage blake3 k.log id t t.pc)
    (hfired : t.fired = false) : Inv blake3 { k with tasks := k.tasks ++ [t] } where
  stage i u hi := by
    obtain hi | ⟨-, rfl⟩ := of_getElem?_concat hi
    exacts [h.stage i u hi, hstage i]
  fired i u hi hu := by
    obtain hi | ⟨-, rfl⟩ := of_getElem?_concat hi
    · exact h.fired i u hi hu
    · rw [hfired] at hu
      cases hu
  contacts := h.contacts
  stored := h.stored

theorem Inv.armExpiry (h : Inv blake3 k) (generation expires : ℕ) :
    Inv blake3 (k.armExpiry generation expires) :=
  h.spawn { pc := .sleeping expires, generation } (fun _ => trivial) rfl

theorem Inv.next (h : Inv blake3 k) (hid : k.tasks[id]? = some t) {events : List Event}
    {t' : Task} (hnext : t.Next blake3 k.log id events t') :
    Inv blake3 ((k.note events).update id t') := by
  obtain ⟨hevents, hstage⟩ := hnext.stage (h.stage id t hid) (h.fired id t hid)
  refine (h.note hevents).update hstage fun hfired => ?_
  rw [hnext.fired] at hfired
  exact List.mem_append_right _ (h.fired id t hid hfired)

@[simp]
theorem close_log (outcome : Except String String) : (k.close id t outcome).log = k.log := by
  obtain ⟨offer, session, -, hclose | ⟨phase, hclose⟩⟩ :=
    close_cases k id t outcome
  · rw [hclose]
    rfl
  · rw [hclose]
    exact setPhase_log phase

@[simp]
theorem close_contacts (outcome : Except String String) :
    (k.close id t outcome).contacts = k.contacts := by
  obtain ⟨offer, session, -, hclose | ⟨phase, hclose⟩⟩ :=
    close_cases k id t outcome
  · rw [hclose]
    rfl
  · rw [hclose]
    exact setPhase_contacts phase

theorem Effect.inv (h : Effect blake3 k id t k') (hid : k.tasks[id]? = some t)
    (hinv : Inv blake3 k) : Inv blake3 k' := by
  have hover : Inv blake3 (k.update id { t with pc := .done }) :=
    hinv.over (hinv.fired id t hid)
  -- a frame is remembered, and a task has no other trace yet
  have hframe : ∀ {frame : Frame}, ∀ event ∈ [Event.received id frame],
      Justified blake3 k.log event := by simp [Justified]
  cases h with
  | skip => exact hinv
  | goOn hnext => exact hinv.next hid hnext
  | say phase hnext => exact (hinv.next hid hnext).of_eq (by simp) (by simp) (by simp)
  | close outcome hnext => exact (hinv.next hid hnext).of_eq (by simp) (by simp) (by simp)
  | dial expires hnext => exact (hinv.next hid hnext).armExpiry _ _
  | expire => exact hover.of_eq (by simp) (by simp) (by simp)
  | @offer offer phase expires hsharing hcurrent hclaimed =>
    have hoffered : Inv blake3 { k with offer := some offer } := hinv.of_eq rfl rfl rfl
    refine ((hoffered.setPhase t.generation phase).over fun hfired => ?_).armExpiry _ _
    rw [setPhase_log]
    exact hinv.fired id t hid hfired
  | bind session hcurrent hnext => exact (hinv.next hid hnext).of_eq rfl rfl rfl
  | record hrecording hcurrent hnext =>
    have hagreed : Agreed blake3 k.log id t.peer := by
      have hstage := hinv.stage id t hid
      rwa [hrecording] at hstage
    have hnext' := hinv.next hid hnext
    refine ⟨hnext'.stage, hnext'.fired, fun peer hpeer => ?_, hnext'.stored⟩
    obtain hpeer | hpeer := List.mem_append.1 hpeer
    · exact hinv.contacts peer hpeer
    · rw [List.mem_singleton.1 hpeer]
      exact ⟨id, hagreed⟩
  | burn phase hreading => exact hover.of_eq rfl rfl rfl
  | @claim offer u frame hreading hoffer hclaimed hgeneration hhost htoken hfired hcommitted =>
    refine ((hinv.note hframe).update (t := { u with pc := .checking }) ?_ fun hu => ?_).of_eq
      rfl rfl rfl
    · exact hcommitted.mono (List.subset_append_left _ _)
    · rw [hfired] at hu
      exact List.mem_append_right _ (hinv.fired id t hid hu)
  | @malformed offer u frame why hreading hoffer hclaimed hgeneration hhost hfired =>
    have hu : u.fired → .confirmed id ∈ (k.note [.received id frame]).log := by
      rw [hfired]
      exact fun ht => List.mem_append_right _ (hinv.fired id t hid ht)
    exact ((hinv.note hframe).over hu).of_eq (by simp) (by simp) (by simp)

end Inv

/-! ## One host to an offer -/

/-- A task of the current generation that is to make an offer, or that claimed it. -/
def Task.Holds (generation : ℕ) (t : Task) : Prop :=
  t.generation = generation ∧ (t.pc.isSharing ∨ t.host ∧ t.pc ≠ .done)

/-- At most one task holds the offer. It stands until its host is over, but in the last
generation. -/
structure Sound (k : Kernel) : Prop where
  bounded : ∀ t ∈ k.tasks, t.generation ≤ k.generation
  plain : ∀ t ∈ k.tasks, t.pc.isSharing → t.host = false
  single : ∀ (i j : ℕ) (t u : Task), k.tasks[i]? = some t → k.tasks[j]? = some u →
    t.Holds k.generation → u.Holds k.generation → i = j
  free : ∀ offer ∈ k.offer, offer.claimed = false → ∀ t ∈ k.tasks, ¬t.Holds k.generation
  sharing : ∀ t ∈ k.tasks, t.Holds k.generation → t.pc.isSharing → k.offer = none
  claimed : ∀ t ∈ k.tasks, t.Holds k.generation → t.pc.isSharing = false →
    k.generation ≠ lastGeneration →
      k.phase.isDone ∨ ∃ offer ∈ k.offer, offer.claimed ∧ offer.token = t.token

section Sound

variable {blake3} {k k' : Kernel} {id : ℕ} {t u : Task}

theorem not_holds_of_done {generation : ℕ} (h : t.pc = .done) : ¬t.Holds generation := by
  rintro ⟨-, hsharing | ⟨-, hne⟩⟩
  · simp [h, Pc.isSharing] at hsharing
  · exact hne h

/-- Where no task holds an offer, there may be any. -/
theorem Sound.of_free (hbounded : ∀ t ∈ k.tasks, t.generation ≤ k.generation)
    (hplain : ∀ t ∈ k.tasks, t.pc.isSharing → t.host = false)
    (hfree : ∀ t ∈ k.tasks, ¬t.Holds k.generation) : Sound k where
  bounded := hbounded
  plain := hplain
  single _ _ t _ hi _ hholds := absurd hholds (hfree t (List.mem_of_getElem? hi))
  free _ _ _ := hfree
  sharing t ht hholds := absurd hholds (hfree t ht)
  claimed t ht hholds := absurd hholds (hfree t ht)

theorem Sound.of_eq (h : Sound k) (htasks : k'.tasks = k.tasks)
    (hgeneration : k'.generation = k.generation) (hoffer : k'.offer = k.offer)
    (hphase : k'.phase = k.phase) : Sound k' := by
  obtain ⟨hbounded, hplain, hsingle, hfree, hsharing, hclaimed⟩ := h
  constructor <;> rw [htasks] <;> (try rw [hgeneration]) <;> (try rw [hoffer]) <;>
    (try rw [hphase]) <;> assumption

/-- A phase that is done takes the offer with it. -/
theorem Sound.setPhase (h : Sound k) (generation : ℕ) (phase : Phase) :
    Sound (k.setPhase generation phase) := by
  unfold Kernel.setPhase
  split
  · exact h
  · next hguard =>
    refine ⟨h.bounded, h.plain, h.single, ?_, ?_, ?_⟩
    · dsimp only
      split
      · exact nofun
      · exact h.free
    · intro t ht hholds hsharing
      dsimp only
      split
      · rfl
      · exact h.sharing t ht hholds hsharing
    · intro t ht hholds hsharing hlast
      dsimp only
      split
      · next hdone => exact .inl hdone
      · -- the phase before was not done either
        have hnot : ¬k.phase.isDone := fun hdone => hguard (.inr hdone)
        exact .inr ((h.claimed t ht hholds hsharing hlast).resolve_left hnot)

/-- A task that goes on holds no more than it did. -/
theorem Sound.update (h : Sound k) (hid : k.tasks[id]? = some t)
    (hgeneration : u.generation = t.generation) (hplain : u.pc.isSharing = false)
    (hholds : u.Holds k.generation →
      t.Holds k.generation ∧ t.pc.isSharing = false ∧ u.token = t.token) :
    Sound (k.update id u) := by
  have ht : t ∈ k.tasks := List.mem_of_getElem? hid
  have hcases : ∀ x ∈ (k.update id u).tasks, x ∈ k.tasks ∨ x = u :=
    fun x hx => List.mem_or_eq_of_mem_set hx
  -- a holder now is a holder before, at the same place
  have hback : ∀ (i : ℕ) (x : Task), (k.update id u).tasks[i]? = some x → x.Holds k.generation →
      ∃ y, k.tasks[i]? = some y ∧ y.Holds k.generation := by
    intro i x hi hx
    obtain ⟨rfl, rfl⟩ | ⟨-, hi⟩ := of_getElem?_set hi
    · exact ⟨t, hid, (hholds hx).1⟩
    · exact ⟨x, hi, hx⟩
  constructor
  · intro x hx
    obtain hx | rfl := hcases x hx
    · exact h.bounded x hx
    · rw [hgeneration]
      exact h.bounded t ht
  · intro x hx hsharing
    obtain hx | rfl := hcases x hx
    · exact h.plain x hx hsharing
    · rw [hplain] at hsharing
      cases hsharing
  · intro i j x y hi hj hx hy
    obtain ⟨x', hi', hx'⟩ := hback i x hi hx
    obtain ⟨y', hj', hy'⟩ := hback j y hj hy
    exact h.single i j x' y' hi' hj' hx' hy'
  · intro offer hoffer hclaimed x hx hholds'
    obtain hx | rfl := hcases x hx
    · exact h.free offer hoffer hclaimed x hx hholds'
    · exact h.free offer hoffer hclaimed t ht (hholds hholds').1
  · intro x hx hholds' hsharing
    obtain hx | rfl := hcases x hx
    · exact h.sharing x hx hholds' hsharing
    · rw [hplain] at hsharing
      cases hsharing
  · intro x hx hholds' hsharing hlast
    obtain hx | rfl := hcases x hx
    · exact h.claimed x hx hholds' hsharing hlast
    · obtain ⟨hold, hsharing', htoken⟩ := hholds hholds'
      rw [htoken]
      exact h.claimed t ht hold hsharing' hlast

theorem Sound.over (h : Sound k) (hid : k.tasks[id]? = some t)
    (hgeneration : u.generation = t.generation) : Sound (k.update id { u with pc := .done }) :=
  h.update hid hgeneration rfl fun hholds => absurd hholds (not_holds_of_done rfl)

theorem Sound.next (h : Sound k) (hid : k.tasks[id]? = some t) {events log : List Event}
    {t' : Task} (hnext : t.Next blake3 log id events t') : Sound (k.update id t') := by
  refine h.update hid hnext.generation hnext.plain ?_
  rintro ⟨hgeneration, hsharing | ⟨hhost, hdone⟩⟩
  · rw [hnext.plain] at hsharing
    cases hsharing
  · rw [hnext.host] at hhost
    have hplain : t.pc.isSharing = false := by
      by_contra hsharing
      have hnone := h.plain t (List.mem_of_getElem? hid) (by simpa using hsharing)
      rw [hnone] at hhost
      cases hhost
    obtain ⟨hne, htoken⟩ := hnext.token hdone hplain
    exact ⟨⟨hnext.generation ▸ hgeneration, .inr ⟨hhost, hne⟩⟩, hplain, htoken⟩

/-- A task that holds nothing begins. -/
theorem Sound.spawn (h : Sound k) (t : Task) (hgeneration : t.generation ≤ k.generation)
    (hplain : t.pc.isSharing = false) (hhost : t.host = false) :
    Sound { k with tasks := k.tasks ++ [t] } := by
  have hcases : ∀ x ∈ k.tasks ++ [t], x ∈ k.tasks ∨ x = t := by simp
  have hnot : ¬t.Holds k.generation := by
    rintro ⟨-, hsharing | ⟨hhost', -⟩⟩ <;> simp_all
  have hback : ∀ {i : ℕ} {x : Task}, (k.tasks ++ [t])[i]? = some x → x.Holds k.generation →
      k.tasks[i]? = some x := by
    intro i x hi hx
    obtain hi | ⟨-, rfl⟩ := of_getElem?_concat hi
    exacts [hi, absurd hx hnot]
  have hmem : ∀ x ∈ k.tasks ++ [t], x.Holds k.generation → x ∈ k.tasks := by
    intro x hx hholds
    obtain hx | rfl := hcases x hx
    exacts [hx, absurd hholds hnot]
  constructor
  · intro x hx
    obtain hx | rfl := hcases x hx
    exacts [h.bounded x hx, hgeneration]
  · intro x hx hsharing
    obtain hx | rfl := hcases x hx
    · exact h.plain x hx hsharing
    · exact hhost
  · exact fun i j x y hi hj hx hy => h.single i j x y (hback hi hx) (hback hj hy) hx hy
  · exact fun offer hoffer hclaimed x hx hholds =>
      h.free offer hoffer hclaimed x (hmem x hx hholds) hholds
  · exact fun x hx hholds => h.sharing x (hmem x hx hholds) hholds
  · exact fun x hx hholds => h.claimed x (hmem x hx hholds) hholds

/-- In a generation that has just begun no task holds an offer. -/
theorem Sound.fresh (h : Sound k) (offer : Option Offer) (phase : Phase)
    (session : Option Session) :
    Sound { k with generation := k.generation + 1, offer, phase, session } := by
  refine .of_free (fun t ht => Nat.le_succ_of_le (h.bounded t ht)) h.plain fun t ht hholds => ?_
  exact absurd hholds.1 (Nat.ne_of_lt (Nat.lt_succ_of_le (h.bounded t ht)))

/-- As the task that holds the offer is over, no task does. -/
theorem Sound.free_after (h : Sound k) (hid : k.tasks[id]? = some t)
    (hholds : t.Holds k.generation) (hdone : u.pc = .done) :
    ∀ x ∈ k.tasks.set id u, ¬x.Holds k.generation := by
  intro x hx hx'
  obtain ⟨i, hi⟩ := List.getElem?_of_mem hx
  obtain ⟨-, rfl⟩ | ⟨hne, hi⟩ := of_getElem?_set hi
  · exact not_holds_of_done hdone hx'
  · exact hne (h.single i id x t hi hid hx' hholds)

/-- Where no task of a device that was sound holds the offer any more, it may be replaced. -/
theorem Sound.release (h : Sound k)
    (hgeneration : u.generation ≤ k.generation) (hdone : u.pc = .done)
    (hfree : ∀ x ∈ k.tasks.set id u, ¬x.Holds k.generation)
    (htasks : k'.tasks = k.tasks.set id u) (hsame : k'.generation = k.generation) : Sound k' := by
  refine .of_free ?_ ?_ ?_
  · rw [htasks, hsame]
    intro x hx
    obtain hx | rfl := List.mem_or_eq_of_mem_set hx
    exacts [h.bounded x hx, hgeneration]
  · rw [htasks]
    intro x hx hsharing
    obtain hx | rfl := List.mem_or_eq_of_mem_set hx
    · exact h.plain x hx hsharing
    · rw [hdone] at hsharing
      cases hsharing
  · rw [htasks, hsame]
    exact hfree

theorem Sound.close (h : Sound k) (hid : k.tasks[id]? = some t)
    (hdone : t.pc ≠ .done) (hgeneration : u.generation = t.generation) (hhost : u.host = t.host)
    (outcome : Except String String) : Sound (k.close id u outcome) := by
  have hmem : t ∈ k.tasks := List.mem_of_getElem? hid
  obtain ⟨offer, session, rfl | ⟨rfl, hh, hcurrent⟩, hclose⟩ :=
    close_cases k id u outcome
  · have hsession : Sound { k with session := session } := h.of_eq rfl rfl rfl rfl
    obtain hclose | ⟨phase, hclose⟩ := hclose
    · rw [hclose]
      exact hsession.over hid hgeneration
    · rw [hclose]
      refine (hsession.setPhase _ phase).over (t := t) ?_ hgeneration
      rw [setPhase_tasks]
      exact hid
  · -- the host of the current generation takes its offer with it
    have hholds : t.Holds k.generation :=
      ⟨hgeneration ▸ hcurrent.symm, .inr ⟨hhost ▸ hh, hdone⟩⟩
    have hle : u.generation ≤ k.generation := Nat.le_of_eq hcurrent.symm
    refine h.release (u := { u with pc := .done }) hle rfl (h.free_after hid hholds rfl) ?_ ?_
    · exact close_tasks outcome
    · exact close_generation outcome

theorem Sound.expire (h : Sound k) (generation : ℕ) : Sound (k.expire generation) := by
  obtain hexpire | ⟨hlast, phase, hexpire⟩ | ⟨phase, hexpire⟩ := expire_cases k generation
  · rw [hexpire]
    exact h
  · rw [hexpire]
    exact ⟨h.bounded, h.plain, h.single, nofun, fun _ _ _ _ => rfl,
      fun _ _ _ _ hne => absurd hlast hne⟩
  · rw [hexpire]
    exact h.fresh none phase none

theorem Sound.armExpiry (h : Sound k) {generation : ℕ} (hle : generation ≤ k.generation)
    (expires : ℕ) : Sound (k.armExpiry generation expires) :=
  h.spawn { pc := .sleeping expires, generation } hle rfl rfl

theorem Effect.sound (h : Effect blake3 k id t k') (hid : k.tasks[id]? = some t)
    (hdone : t.pc ≠ .done) (hsound : Sound k) : Sound k' := by
  have hmem : t ∈ k.tasks := List.mem_of_getElem? hid
  have hle := hsound.bounded t hmem
  cases h with
  | skip => exact hsound
  | goOn hnext => exact (hsound.next hid hnext).of_eq rfl rfl rfl rfl
  | @say events t' phase hnext =>
    have hnoted : Sound (k.note events) := hsound.of_eq rfl rfl rfl rfl
    refine (hnoted.setPhase t.generation phase).next ?_ hnext
    rwa [setPhase_tasks]
  | @close events u outcome hnext =>
    have hnoted : Sound (k.note events) := hsound.of_eq rfl rfl rfl rfl
    exact hnoted.close hid hdone hnext.generation hnext.host outcome
  | dial expires hnext => exact (hsound.next hid hnext).armExpiry hle expires
  | expire =>
    refine (hsound.expire t.generation).over (t := t) ?_ rfl
    rwa [expire_tasks]
  | @offer offer phase expires hsharing hcurrent hclaimed =>
    have hholds : t.Holds k.generation := ⟨hcurrent.symm, .inl hsharing⟩
    have hreleased : Sound (({ k with offer := some offer }.setPhase t.generation phase).update id
        { t with pc := .done }) := by
      refine hsound.release (u := { t with pc := .done }) hle rfl
        (hsound.free_after hid hholds rfl) ?_ ?_
      · simp
      · simp
    exact hreleased.armExpiry (by simpa using hle) expires
  | bind session hcurrent hnext => exact (hsound.next hid hnext).of_eq rfl rfl rfl rfl
  | record hrecording hcurrent hnext => exact (hsound.next hid hnext).of_eq rfl rfl rfl rfl
  | burn phase hreading =>
    have hfresh := hsound.fresh none phase none
    exact hfresh.over hid rfl
  | @claim offer u frame hreading hoffer hclaimed hgeneration hhost htoken hfired hcommitted =>
    have hfree := hsound.free offer hoffer hclaimed
    -- the host that claims the offer is the only task that holds it
    have hself : ∀ {i : ℕ} {x : Task}, (k.tasks.set id { u with pc := .checking })[i]? = some x →
        x.Holds k.generation → i = id ∧ x = { u with pc := .checking } := by
      intro i x hi hx
      obtain hi | ⟨-, hi⟩ := of_getElem?_set hi
      · exact hi
      · exact absurd hx (hfree x (List.mem_of_getElem? hi))
    have hmem' : ∀ x ∈ k.tasks.set id { u with pc := .checking }, x.Holds k.generation →
        x = { u with pc := .checking } := by
      intro x hx hholds
      obtain ⟨i, hi⟩ := List.getElem?_of_mem hx
      exact (hself hi hholds).2
    constructor
    · intro x hx
      obtain hx | rfl := List.mem_or_eq_of_mem_set hx
      · exact hsound.bounded x hx
      · exact Nat.le_of_eq hgeneration
    · intro x hx hsharing
      obtain hx | rfl := List.mem_or_eq_of_mem_set hx
      · exact hsound.plain x hx hsharing
      · cases hsharing
    · intro i j x y hi hj hx hy
      rw [(hself hi hx).1, (hself hj hy).1]
    · intro o ho hunclaimed
      obtain rfl := Option.some.inj ho
      cases hunclaimed
    · intro x hx hholds hsharing
      rw [hmem' x hx hholds] at hsharing
      cases hsharing
    · intro x hx hholds _ _
      refine .inr ⟨_, rfl, rfl, ?_⟩
      rw [hmem' x hx hholds]
      exact htoken.symm
  | @malformed offer u frame why hreading hoffer hclaimed hgeneration hhost hfired =>
    have hfree : ∀ x ∈ k.tasks.set id { u with pc := .done }, ¬x.Holds k.generation := by
      intro x hx
      obtain hx | rfl := List.mem_or_eq_of_mem_set hx
      · exact hsound.free offer hoffer hclaimed x hx
      · exact not_holds_of_done rfl
    refine hsound.release (u := { u with pc := .done }) (Nat.le_of_eq hgeneration) rfl hfree
      ?_ ?_
    · simp
    · simp

end Sound

/-! ## Runs -/

/-- A second claim ended the meeting. -/
structure Ended (k k' : Kernel) : Prop where
  generation : k'.generation = k.generation + 1
  offer : k'.offer = none
  session : k'.session = none
  phase : ∃ why, k'.phase = .failed why

/-- No offer stands that a token could be the first claim of. -/
def Kernel.Spent (k : Kernel) (token : Bytes) : Prop :=
  ∀ offer ∈ k.offer, offer.token = token → offer.claimed

/-- What a step from a state does, and what holds after it. -/
structure Safe (k : Kernel) (l : Label) : Prop where
  /-- A task whose generation was replaced changes nothing that is shared. -/
  stale : ∀ id answer seams, l = .wake id answer seams → ∀ t : Task, k.tasks[id]? = some t →
    t.pc ≠ .reading → t.generation ≠ k.generation → (k.step blake3 l).shared = k.shared
  /-- What was replaced stays replaced. -/
  forward : k.generation ≤ (k.step blake3 l).generation
  follows : ∀ (id : ℕ) (t : Task), k.tasks[id]? = some t → t.generation ≤ k.generation ∧
    ∃ t', (k.step blake3 l).tasks[id]? = some t' ∧ Follows t t'
  done : k.phase.isDone → (k.step blake3 l).generation = k.generation →
    (k.step blake3 l).phase = k.phase
  contacts : ∀ peer ∈ (k.step blake3 l).contacts,
    ∃ id, Agreed blake3 (k.step blake3 l).log id peer
  stored : ∀ id generation peer, .checkpointed id generation peer ∈ (k.step blake3 l).log →
    Agreed blake3 (k.step blake3 l).log id peer
  /-- A second claim comes to nothing, whatever endpoint key it names. -/
  secondClaim : ∀ id token key introduction commit seams t,
    l = .wake id (.frame (some (.claim token key introduction commit))) seams →
    k.tasks[id]? = some t → t.pc = .reading → k.Spent token →
      ∃ t', (k.step blake3 l).tasks[id]? = some t' ∧ t'.pc = .done
  /-- It ends the first one, unless that was replaced before or is done. -/
  ended : ∀ id token introduction commit seams t,
    l = .wake id (.frame (some (.claim token t.key introduction commit))) seams →
    k.tasks[id]? = some t → t.pc = .reading → k.generation ≠ lastGeneration →
      ∀ first ∈ k.tasks, first.host → first.token = token → first.pc ≠ .done →
        first.generation = k.generation → k.phase.isDone ∨ Ended k (k.step blake3 l)

section Runs

variable {blake3} {k : Kernel} {id : ℕ} {t : Task}

theorem Sound.begin (h : Sound k) (join : Option Code) : Sound (k.begin join) := by
  unfold Kernel.begin
  split
  · exact h
  · dsimp only
    set t : Task := { pc := .sharing join, generation := k.generation + 1 } with ht
    have hself : ∀ {i : ℕ} {x : Task}, (k.tasks ++ [t])[i]? = some x →
        x.Holds (k.generation + 1) → i = k.tasks.length ∧ x = t := by
      intro i x hi hx
      obtain hi | hi := of_getElem?_concat hi
      · have hle := h.bounded x (List.mem_of_getElem? hi)
        exact absurd hx.1 (Nat.ne_of_lt (Nat.lt_succ_of_le hle))
      · exact hi
    have hbegun : Sound { k.reserve with tasks := k.tasks ++ [t] } := by
      constructor
      · intro x hx
        obtain hx | hx := List.mem_append.1 hx
        · exact Nat.le_succ_of_le (h.bounded x hx)
        · rw [List.mem_singleton.1 hx]
          exact Nat.le_refl _
      · intro x hx hsharing
        obtain hx | hx := List.mem_append.1 hx
        · exact h.plain x hx hsharing
        · rw [List.mem_singleton.1 hx]
      · intro i j x y hi hj hx hy
        rw [(hself hi hx).1, (hself hj hy).1]
      · exact nofun
      · exact fun _ _ _ _ => rfl
      · intro x hx hholds hsharing
        obtain ⟨i, hi⟩ := List.getElem?_of_mem hx
        rw [(hself hi hholds).2] at hsharing
        cases hsharing
    split
    · exact hbegun.setPhase _ _
    · exact hbegun

theorem Inv.reserve (h : Inv blake3 k) : Inv blake3 k.reserve :=
  h.of_eq rfl rfl rfl

theorem Inv.begin (h : Inv blake3 k) (join : Option Code) : Inv blake3 (k.begin join) := by
  unfold Kernel.begin
  split
  · exact h
  · have hbegun := h.reserve.spawn { pc := .sharing join, generation := k.generation + 1 }
      (fun _ => trivial) rfl
    dsimp only
    split
    · exact hbegun.setPhase _ _
    · exact hbegun

theorem confirm_cases (k : Kernel) (generation : ℕ) : k.confirm generation = k ∨
    ∃ session id, k.confirm generation = { k with
      session := session
      tasks := k.tasks.modify id fun t => { t with fired := true } }.note [.confirmed id] := by
  unfold Kernel.confirm
  split
  · split
    · exact .inr ⟨_, _, rfl⟩
    · exact .inl rfl
  · exact .inl rfl

theorem of_getElem?_modify {tasks : List Task} {f : Task → Task} {i j : ℕ} {x : Task}
    (h : (tasks.modify i f)[j]? = some x) :
    ∃ y, tasks[j]? = some y ∧ (x = y ∨ j = i ∧ x = f y) := by
  rw [List.getElem?_modify] at h
  obtain ⟨y, hy, rfl⟩ := Option.map_eq_some_iff.1 h
  refine ⟨y, hy, ?_⟩
  split
  · next hij => exact .inr ⟨hij.symm, rfl⟩
  · exact .inl rfl

theorem Stage.fire {log : List Event} {pc : Pc} (h : Stage blake3 log id t pc) :
    Stage blake3 log id { t with fired := true } pc := by
  cases pc <;> exact h

theorem Inv.confirm (h : Inv blake3 k) (generation : ℕ) : Inv blake3 (k.confirm generation) := by
  obtain hconfirm | ⟨session, id, hconfirm⟩ := confirm_cases k generation
  · rwa [hconfirm]
  · rw [hconfirm]
    have hnoted : Inv blake3 (k.note [.confirmed id]) := h.note (by simp [Justified])
    refine ⟨fun i x hi => ?_, fun i x hi hfired => ?_, hnoted.contacts, hnoted.stored⟩
    · obtain ⟨y, hy, rfl | ⟨-, rfl⟩⟩ := of_getElem?_modify hi
      · exact hnoted.stage i x hy
      · exact (hnoted.stage i y hy).fire
    · obtain ⟨y, hy, rfl | ⟨rfl, -⟩⟩ := of_getElem?_modify hi
      · exact hnoted.fired i x hy hfired
      · exact List.mem_cons_self

theorem Sound.confirm (h : Sound k) (generation : ℕ) : Sound (k.confirm generation) := by
  obtain hconfirm | ⟨session, id, hconfirm⟩ := confirm_cases k generation
  · rwa [hconfirm]
  · rw [hconfirm]
    -- but for the confirmation each task is what it was
    have hback : ∀ {i : ℕ} {x : Task},
        (k.tasks.modify id fun t => { t with fired := true })[i]? = some x →
          ∃ y, k.tasks[i]? = some y ∧ y.generation = x.generation ∧ y.pc = x.pc ∧
            y.host = x.host ∧ y.token = x.token := by
      intro i x hi
      obtain ⟨y, hy, heq⟩ := of_getElem?_modify hi
      refine ⟨y, hy, ?_⟩
      obtain rfl | ⟨-, rfl⟩ := heq <;> exact ⟨rfl, rfl, rfl, rfl⟩
    have hmem : ∀ x ∈ k.tasks.modify id fun t => { t with fired := true },
        ∃ y ∈ k.tasks, y.generation = x.generation ∧ y.pc = x.pc ∧ y.host = x.host ∧
          y.token = x.token := by
      intro x hx
      obtain ⟨i, hi⟩ := List.getElem?_of_mem hx
      obtain ⟨y, hy, hsame⟩ := hback hi
      exact ⟨y, List.mem_of_getElem? hy, hsame⟩
    have hholds : ∀ {x y : Task}, y.generation = x.generation → y.pc = x.pc → y.host = x.host →
        x.Holds k.generation → y.Holds k.generation := by
      intro x y hgeneration hpc hhost hx
      rwa [Task.Holds, hgeneration, hpc, hhost]
    constructor
    · intro x hx
      obtain ⟨y, hy, hgeneration, -⟩ := hmem x hx
      rw [← hgeneration]
      exact h.bounded y hy
    · intro x hx hsharing
      obtain ⟨y, hy, -, hpc, hhost, -⟩ := hmem x hx
      rw [← hpc] at hsharing
      rw [← hhost]
      exact h.plain y hy hsharing
    · intro i j x x' hi hj hx hx'
      obtain ⟨y, hy, hgeneration, hpc, hhost, -⟩ := hback hi
      obtain ⟨y', hy', hgeneration', hpc', hhost', -⟩ := hback hj
      exact h.single i j y y' hy hy' (hholds hgeneration hpc hhost hx)
        (hholds hgeneration' hpc' hhost' hx')
    · intro offer hoffer hclaimed x hx hx'
      obtain ⟨y, hy, hgeneration, hpc, hhost, -⟩ := hmem x hx
      exact h.free offer hoffer hclaimed y hy (hholds hgeneration hpc hhost hx')
    · intro x hx hx' hsharing
      obtain ⟨y, hy, hgeneration, hpc, hhost, -⟩ := hmem x hx
      rw [← hpc] at hsharing
      exact h.sharing y hy (hholds hgeneration hpc hhost hx') hsharing
    · intro x hx hx' hsharing hlast
      obtain ⟨y, hy, hgeneration, hpc, hhost, htoken⟩ := hmem x hx
      rw [← hpc] at hsharing
      rw [← htoken]
      exact h.claimed y hy (hholds hgeneration hpc hhost hx') hsharing hlast

theorem status_cases (k : Kernel) (now : ℕ) : k.status now = k ∨
    k.status now = k.expire k.generation := by
  unfold Kernel.status
  split
  · split
    · exact .inr rfl
    · exact .inl rfl
  · exact .inl rfl

variable (blake3) in
theorem inv_step (k : Kernel) (l : Label) (h : Inv blake3 k) : Inv blake3 (k.step blake3 l) := by
  cases l with
  | offer => exact h.begin none
  | join link =>
    rw [Kernel.step]
    split
    · exact h
    · exact h.begin (some link)
  | confirm generation => exact h.confirm generation
  | cancel generation =>
    rw [Kernel.step]
    split
    · exact h
    · exact h.reserve
  | status now =>
    obtain hstatus | hstatus := status_cases k now
    · rwa [Kernel.step, hstatus]
    · rw [Kernel.step, hstatus]
      exact h.of_eq (by simp) (by simp) (by simp)
  | inbound key => exact h.spawn { pc := .reading, key } (fun _ => trivial) rfl
  | wake id answer seams =>
    rw [Kernel.step]
    split
    · exact h
    · next t hid => exact (wake_effect k id t answer seams).inv hid h

variable (blake3) in
theorem sound_step (k : Kernel) (l : Label) (h : Sound k) : Sound (k.step blake3 l) := by
  cases l with
  | offer => exact h.begin none
  | join link =>
    rw [Kernel.step]
    split
    · exact h
    · exact h.begin (some link)
  | confirm generation => exact h.confirm generation
  | cancel generation =>
    rw [Kernel.step]
    split
    · exact h
    · exact h.fresh none .idle none
  | status now =>
    obtain hstatus | hstatus := status_cases k now
    · rwa [Kernel.step, hstatus]
    · rw [Kernel.step, hstatus]
      exact h.expire k.generation
  | inbound key => exact h.spawn { pc := .reading, key } (Nat.zero_le _) rfl rfl
  | wake id answer seams =>
    rw [Kernel.step]
    split
    · exact h
    · next t hid =>
      by_cases hdone : t.pc = .done
      · have hskip : k.wake id blake3 t answer seams = k := by simp [Kernel.wake, hdone]
        rwa [hskip]
      · exact (wake_effect k id t answer seams).sound hid hdone h

theorem le_begin_generation (join : Option Code) : k.generation ≤ (k.begin join).generation := by
  unfold Kernel.begin
  split
  · exact Nat.le_refl _
  · dsimp only
    split
    · rw [setPhase_generation]
      exact Nat.le_succ _
    · exact Nat.le_succ _

theorem begin_of_same {join : Option Code} (h : (k.begin join).generation = k.generation) :
    k.begin join = k := by
  unfold Kernel.begin at h ⊢
  split
  · rfl
  · next hlast =>
    rw [if_neg hlast] at h
    dsimp only at h
    split at h
    · rw [setPhase_generation] at h
      exact absurd h (Nat.succ_ne_self _)
    · exact absurd h (Nat.succ_ne_self _)

theorem begin_tasks (k : Kernel) (join : Option Code) :
    ∃ begun, (k.begin join).tasks = k.tasks ++ begun := by
  unfold Kernel.begin
  split
  · exact ⟨[], (List.append_nil _).symm⟩
  · dsimp only
    split
    · exact ⟨_, setPhase_tasks _⟩
    · exact ⟨_, rfl⟩

theorem le_step_generation (l : Label) : k.generation ≤ (k.step blake3 l).generation := by
  cases l with
  | offer => exact le_begin_generation none
  | join link =>
    rw [Kernel.step]
    split
    · exact Nat.le_refl _
    · exact le_begin_generation (some link)
  | confirm generation =>
    obtain hconfirm | ⟨session, id, hconfirm⟩ := confirm_cases k generation
    · exact Nat.le_of_eq (congrArg Kernel.generation hconfirm).symm
    · exact Nat.le_of_eq (congrArg Kernel.generation hconfirm).symm
  | cancel generation =>
    rw [Kernel.step]
    split
    · exact Nat.le_refl _
    · exact Nat.le_succ _
  | status now =>
    obtain hstatus | hstatus := status_cases k now
    · exact Nat.le_of_eq (congrArg Kernel.generation hstatus).symm
    · rw [Kernel.step, hstatus]
      exact le_expire_generation
  | inbound key => exact Nat.le_refl _
  | wake id answer seams =>
    rw [Kernel.step]
    split
    · exact Nat.le_refl _
    · next t hid => exact (wake_effect k id t answer seams).le_generation

theorem step_phase_of_isDone {l : Label} (hdone : k.phase.isDone)
    (hsame : (k.step blake3 l).generation = k.generation) :
    (k.step blake3 l).phase = k.phase := by
  cases l with
  | offer =>
    rw [Kernel.step] at hsame ⊢
    rw [begin_of_same hsame]
  | join link =>
    rw [Kernel.step] at hsame ⊢
    split
    · rfl
    · next hkey =>
      rw [if_neg hkey] at hsame
      rw [begin_of_same hsame]
  | confirm generation =>
    obtain hconfirm | ⟨session, id, hconfirm⟩ := confirm_cases k generation <;>
      rw [Kernel.step, hconfirm]
    rfl
  | cancel generation =>
    rw [Kernel.step] at hsame ⊢
    split
    · rfl
    · next hguard =>
      rw [if_neg hguard] at hsame
      exact absurd hsame (Nat.succ_ne_self _)
  | status now =>
    obtain hstatus | hstatus := status_cases k now
    · rw [Kernel.step, hstatus]
    · rw [Kernel.step, hstatus, expire_of_isDone hdone]
  | inbound key => rfl
  | wake id answer seams =>
    rw [Kernel.step] at hsame ⊢
    split
    · rfl
    · next t hid =>
      rw [hid] at hsame
      exact (wake_effect k id t answer seams).done hdone hsame

theorem Follows.of_append {tasks more : List Task} (hid : tasks[id]? = some t) :
    ∃ t', (tasks ++ more)[id]? = some t' ∧ Follows t t' := by
  have hlt : id < tasks.length := (List.getElem?_eq_some_iff.1 hid).1
  exact ⟨t, by rw [List.getElem?_append_left hlt, hid], .refl t⟩

theorem step_follows (l : Label) (hid : k.tasks[id]? = some t) :
    ∃ t', (k.step blake3 l).tasks[id]? = some t' ∧ Follows t t' := by
  have hsame : ∃ t', k.tasks[id]? = some t' ∧ Follows t t' := ⟨t, hid, .refl t⟩
  cases l with
  | offer =>
    obtain ⟨begun, hbegun⟩ := begin_tasks k none
    rw [Kernel.step, hbegun]
    exact Follows.of_append hid
  | join link =>
    rw [Kernel.step]
    split
    · exact hsame
    · obtain ⟨begun, hbegun⟩ := begin_tasks k (some link)
      rw [hbegun]
      exact Follows.of_append hid
  | confirm generation =>
    obtain hconfirm | ⟨session, i, hconfirm⟩ := confirm_cases k generation
    · rwa [Kernel.step, hconfirm]
    · rw [Kernel.step, hconfirm, note_tasks, List.getElem?_modify, hid]
      refine ⟨_, rfl, ?_⟩
      split
      · exact fun hpc => ⟨hpc, rfl, fun hdone => hdone⟩
      · exact .refl t
  | cancel generation =>
    rw [Kernel.step]
    split <;> exact hsame
  | status now =>
    obtain hstatus | hstatus := status_cases k now
    · rwa [Kernel.step, hstatus]
    · rwa [Kernel.step, hstatus, expire_tasks]
  | inbound key => exact Follows.of_append hid
  | wake i answer seams =>
    rw [Kernel.step]
    split
    · exact hsame
    · next u hi => exact (wake_effect k i u answer seams).follows hi hid

/-- Where the token could be the first claim of no offer, the task of the claim is over. -/
theorem runHost_over {token key introduction commit : Bytes} {seams : Seams}
    (hid : k.tasks[id]? = some t) (hspent : k.Spent token) :
    ∃ t', (k.runHost id t (some (.claim token key introduction commit)) seams).tasks[id]? =
      some t' ∧ t'.pc = .done := by
  have hlt : id < k.tasks.length := (List.getElem?_eq_some_iff.1 hid).1
  have hover : ∃ t', (k.tasks.set id { t with pc := .done })[id]? = some t' ∧ t'.pc = .done :=
    ⟨_, List.getElem?_set_self hlt, rfl⟩
  rw [Kernel.runHost]
  dsimp only
  split
  · exact hover
  split
  · exact hover
  · next offer hoffer =>
    split
    · exact hover
    · next htoken =>
      have hclaimed : offer.claimed := hspent offer hoffer (not_ne_iff.1 htoken).symm
      rw [if_pos hclaimed]
      split <;> exact hover

/-- A claim of an offer that was claimed before ends the meeting, while there are generations. -/
theorem runHost_ended {token introduction commit : Bytes} {seams : Seams} {offer : Offer}
    (hoffer : k.offer = some offer) (htoken : offer.token = token) (hclaimed : offer.claimed)
    (hlast : k.generation ≠ lastGeneration) :
    Ended k (k.runHost id t (some (.claim token t.key introduction commit)) seams) := by
  rw [Kernel.runHost]
  dsimp only
  rw [if_neg (not_not_intro rfl), hoffer]
  dsimp only
  rw [if_neg (not_not_intro htoken.symm), if_pos hclaimed, if_neg hlast]
  exact ⟨rfl, rfl, rfl, _, rfl⟩

theorem step_wake {answer : Answer} {seams : Seams} (hid : k.tasks[id]? = some t) :
    k.step blake3 (.wake id answer seams) = k.wake id blake3 t answer seams := by
  rw [Kernel.step, hid]

theorem step_reading {frame : Option Frame} {seams : Seams} (hid : k.tasks[id]? = some t)
    (hpc : t.pc = .reading) :
    k.step blake3 (.wake id (.frame frame) seams) = k.runHost id t frame seams := by
  rw [step_wake hid, Kernel.wake, hpc]

end Runs

theorem inv_start (me : Bytes) : Inv blake3 { me } :=
  ⟨nofun, nofun, nofun, nofun⟩

theorem sound_start (me : Bytes) : Sound { me } :=
  .of_free nofun nofun nofun

/-- In every run each step is safe. -/
theorem generations_safe (me : Bytes) (ls : List Label) (l : Label) :
    Safe blake3 (run (Kernel.step blake3) { me } ls) l := by
  have hinv : Inv blake3 (run (Kernel.step blake3) { me } ls) :=
    run_preserves (inv_step blake3) (inv_start blake3 me) ls
  have hsound : Sound (run (Kernel.step blake3) { me } ls) :=
    run_preserves (sound_step blake3) (sound_start me) ls
  generalize run (Kernel.step blake3) { me } ls = k at hinv hsound
  have hnext := inv_step blake3 k l hinv
  constructor
  · rintro id answer seams rfl t hid hpc hne
    rw [step_wake hid]
    exact (wake_effect k id t answer seams).stale hpc (Ne.symm hne)
  · exact le_step_generation l
  · exact fun id t hid => ⟨hsound.bounded t (List.mem_of_getElem? hid), step_follows l hid⟩
  · exact step_phase_of_isDone
  · exact hnext.contacts
  · exact hnext.stored
  · rintro id token key introduction commit seams t rfl hid hpc hspent
    rw [step_reading hid hpc]
    exact runHost_over hid hspent
  · rintro id token introduction commit seams t rfl hid hpc hlast first hfirst hhost rfl hlive
      hcurrent
    rw [step_reading hid hpc]
    have hholds : first.Holds k.generation := ⟨hcurrent, .inr ⟨hhost, hlive⟩⟩
    have hplain : first.pc.isSharing = false := by
      by_contra hsharing
      have hnone := hsound.plain first hfirst (by simpa using hsharing)
      rw [hnone] at hhost
      cases hhost
    -- the offer stands as long as its host does
    obtain hdone | ⟨offer, hoffer, hclaimed, htoken⟩ :=
      hsound.claimed first hfirst hholds hplain hlast
    · exact .inl hdone
    · exact .inr (runHost_ended hoffer htoken hclaimed hlast)

section Unsafe

/-- The device of the runs below, a link of another one, and two peers. -/
def unsafeMe : Bytes := List.replicate 32 0
def unsafeToken : Bytes := List.replicate 16 9
def unsafePeer (n : UInt8) : Bytes := List.replicate 32 n

/-- A guest's meeting is cancelled as the contact it recorded is written. -/
def lateCheckpoint : List Label :=
  [.join ⟨unsafePeer 1, unsafeToken⟩, .wake 0 .ok {}, .wake 0 (.dialed (unsafePeer 1)) {},
    .wake 0 .ok {},
    .wake 0 (.frame (some (.accept (unsafePeer 1) [] (blake3 (unsafePeer 5))))) {},
    .wake 0 .ok {}, .wake 0 .ok {}, .wake 0 (.frame (some (.reveal (unsafePeer 5)))) {},
    .confirm 1, .wake 0 .ok {}, .wake 0 .ok {}, .wake 0 (.frame (some .confirm)) {},
    .wake 0 .ok {}, .wake 0 .ok {}, .cancel 1, .wake 0 .ok {}]

/-- An offer is claimed by one peer, and again over the connection of another. -/
def twoClaims (key : Bytes) : List Label :=
  [.offer, .wake 0 .ok { random := unsafeToken }, .inbound (unsafePeer 1),
    .wake 2 (.frame (some (.claim unsafeToken (unsafePeer 1) [] (unsafePeer 5)))) {},
    .inbound (unsafePeer 2),
    .wake 3 (.frame (some (.claim unsafeToken key [] (unsafePeer 5)))) {}]

/-- Every generation but the last one is cancelled. -/
def cancelAll (n : ℕ) : List Label :=
  (List.range n).map .cancel

theorem run_cancelAll {me : Bytes} (n : ℕ) (hn : n ≤ lastGeneration) :
    run (Kernel.step blake3) { me } (cancelAll n) = { me, generation := n } := by
  induction n with
  | zero => rfl
  | succ n ih =>
    rw [cancelAll, List.range_succ, List.map_append, run_append]
    have hbefore := ih (Nat.le_of_succ_le hn)
    rw [cancelAll] at hbefore
    rw [hbefore]
    have hlast : ¬(n ≠ n ∨ n = lastGeneration) := by
      have hlt : n < lastGeneration := hn
      omega
    exact if_neg hlast

/-- The first of two claims was not ended. -/
def Survives (k : Kernel) : Prop :=
  ¬k.phase.isDone ∧ ∃ t, k.tasks[2]? = some t ∧ t.generation = k.generation ∧ t.pc ≠ .done

theorem generations_unsafe : ¬∃ blake3 : Bytes → Bytes, (∀ bytes, (blake3 bytes).length = 32) ∧
    ((∀ id generation peer, .checkpointed id generation peer ∈
        (run (Kernel.step blake3) { me := unsafeMe } (lateCheckpoint blake3)).log →
        ∀ t, (run (Kernel.step blake3) { me := unsafeMe } (lateCheckpoint blake3)).tasks[id]? =
          some t → t.generation = generation) ∨
      ¬Survives (run (Kernel.step blake3) { me := unsafeMe } (twoClaims (unsafePeer 3))) ∨
      ¬Survives (run (Kernel.step blake3) { me := unsafeMe }
        (cancelAll (lastGeneration - 1) ++ twoClaims (unsafePeer 2)))) := by
  rintro ⟨blake3, hlength, hlate | hkey | hlast⟩
  · simp [lateCheckpoint, run, Kernel.step, Kernel.begin, Kernel.reserve, Kernel.wake,
      Kernel.update, Kernel.setPhase, Kernel.note, Kernel.armExpiry, Kernel.bindSession,
      Kernel.readAccept, Kernel.readReveal, Kernel.review, Kernel.confirm, Kernel.wakeConfirming,
      Kernel.accept, Kernel.close, Kernel.finish, unsafePeer, unsafeMe, unsafeToken, lastGeneration,
      hlength, Phase.isDone, List.modify] at hlate
    cases hlate 0 2 [] rfl rfl rfl _ rfl
  · simp [twoClaims, run, Kernel.step, Kernel.begin, Kernel.reserve, Kernel.wake, Kernel.runHost,
      Kernel.update, Kernel.setPhase, Kernel.note, Kernel.armExpiry, unsafePeer, unsafeMe,
      unsafeToken, lastGeneration, meetingTtlMs, Phase.isDone, Survives] at hkey
  · rw [run_append, run_cancelAll blake3 _ (Nat.sub_le _ _)] at hlast
    simp [twoClaims, run, Kernel.step, Kernel.begin, Kernel.reserve, Kernel.wake, Kernel.runHost,
      Kernel.update, Kernel.setPhase, Kernel.note, Kernel.armExpiry, unsafePeer, unsafeMe,
      unsafeToken, lastGeneration, meetingTtlMs, Phase.isDone, Survives] at hlast

end Unsafe

end Polyvisor.Meeting
