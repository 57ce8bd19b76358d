import Polyvisor.Kernel.RootTransfer

/-!
# Who gets the root

What holds in every run of the transfer, whoever else is on the network and whatever the devices do
besides. An end knows of the other one what it was told, and of its own device what it read; the
rest is what the invariants of a connection say.

## Main results

* `secrets_confined`: a seed goes out to the member that was named, once, and is the custody of the
  identity that the call began with.
* `installs_authorized`: a seed is installed if a member has sent it, for the device's own identity.
* `receipts_sound`: a call that returned well has handed over the seed that the recipient asked to
  have checkpointed, and the checkpoint answered well.
-/

namespace Polyvisor.RootTransfer

open Transition

/-! ## What the ends know of each other -/

/-- What was sent to an acceptor that is past its first checks. -/
def Receiving.sent : Receiving → Option Saved
  | .readmitting _ _ sent | .reidentifying _ _ sent _ | .saving _ sent _ => some sent
  | .receipt sent => some sent
  | .replying outcome | .ended outcome => outcome
  | _ => none

/-- What an acceptor put in custody, if it did not put it back. -/
def Receiving.installed : Receiving → Option Saved
  | .saving _ sent _ | .receipt sent => some sent
  | .replying outcome | .ended outcome => outcome
  | _ => none

/-- What an acceptor asked to have checkpointed, once the checkpoint has answered well. -/
def Receiving.outcome : Receiving → Option Saved
  | .receipt sent => some sent
  | .replying outcome | .ended outcome => outcome
  | _ => none

/-- The dialer was told that its seed is persisted. -/
def Sending.Told : Sending → Prop
  | .confirming _ | .readmitting | .receipting | .ended (.ok _) => True
  | _ => False

namespace Conn

/-- The dialer has sent a seed of the root it began with, and then this. -/
def Sent (w : World) (c : Conn) (rest : List (List UInt8)) : Prop :=
  ∃ seed, w.publicKey seed = c.attempt.before.root ∧
    c.fromDialer = encode (.transfer c.attempt.before seed) :: rest

/-- What the dialer has said, by where its call stands. -/
def Said (w : World) (c : Conn) : Prop :=
  match c.out with
  | .admitting | .identifying _ => c.fromDialer = []
  | .sending | .waiting | .confirming _ | .readmitting => c.Sent w []
  | .receipting | .ended (.ok _) => c.Sent w [encode .received]
  | .ended (.error _) => c.fromDialer = [] ∨ c.Sent w [] ∨ c.Sent w [encode .received]

/-- A connection that a kernel dialed. -/
structure Dialing (w : World) (c : Conn) : Prop where
  addressed : w.endpointId c.attempt.target = c.attempt.endpoint ∧ c.attempt.target ≠ c.dialer
  named : c.fromDialer = [] ∧ (∃ error, c.out = .ended (.error error)) ∨
    c.acceptor = c.attempt.target
  said : c.Said w
  told : c.out.Told → encode .persisted ∈ c.fromAcceptor

/-- What the acceptor has said, by where its call stands. -/
def Replied (c : Conn) : Prop :=
  match c.inc with
  | .replying none | .ended none => c.fromAcceptor = [] ∨ c.fromAcceptor = [encode .refused]
  | .replying (some _) | .ended (some _) | .receipt _ => c.fromAcceptor = [encode .persisted]
  | _ => c.fromAcceptor = []

/-- A connection that a kernel accepts. -/
structure Accepting (w : World) (c : Conn) : Prop where
  replied : c.Replied
  given : ∀ sent ∈ c.inc.sent, encode (.transfer sent.identity sent.seed) ∈ c.fromDialer
  fits : ∀ sent ∈ c.inc.installed, w.publicKey sent.seed = sent.identity.root

variable {w : World} {d d' : Device} {c c' : Conn}

/-- A step of the dialer changes nothing of the acceptor's. -/
theorem Sends.frame (h : c.Sends w.publicKey d c') : c'.dialer = c.dialer ∧
    c'.acceptor = c.acceptor ∧ c'.attempt = c.attempt ∧ c'.inc = c.inc ∧
    c'.fromAcceptor = c.fromAcceptor ∧ c.fromDialer ⊆ c'.fromDialer := by
  cases h <;> simp

/-- A step of the acceptor changes nothing of the dialer's. -/
theorem Accepts.frame (h : c.Accepts w.publicKey d d' c') : c'.dialer = c.dialer ∧
    c'.acceptor = c.acceptor ∧ c'.attempt = c.attempt ∧ c'.out = c.out ∧
    c'.fromDialer = c.fromDialer ∧ c.fromAcceptor ⊆ c'.fromAcceptor := by
  cases h <;> simp [Conn.refuse]

theorem Dialing.mono (h : c.Dialing w) (hdialer : c'.dialer = c.dialer)
    (hacceptor : c'.acceptor = c.acceptor) (hattempt : c'.attempt = c.attempt)
    (hout : c'.out = c.out) (hfrom : c'.fromDialer = c.fromDialer)
    (hsaid : c.fromAcceptor ⊆ c'.fromAcceptor) : c'.Dialing w := by
  obtain ⟨dialer, acceptor, attempt, out, inc, fromDialer, fromAcceptor, _, _⟩ := c'
  subst hdialer hacceptor hattempt hout hfrom
  exact ⟨h.addressed, h.named, h.said, fun htold => hsaid (h.told htold)⟩

theorem Accepting.mono (h : c.Accepting w) (hinc : c'.inc = c.inc)
    (hfrom : c'.fromAcceptor = c.fromAcceptor) (hsaid : c.fromDialer ⊆ c'.fromDialer) :
    c'.Accepting w := by
  refine ⟨?_, fun sent hsent => ?_, ?_⟩
  · rw [Replied, hinc, hfrom]
    exact h.replied
  · rw [hinc] at hsent
    exact hsaid (h.given sent hsent)
  · rw [hinc]
    exact h.fits

/-- Where a call can fail, it has said one of three things. -/
theorem Said.fail (h : c.Said w) :
    c.fromDialer = [] ∨ c.Sent w [] ∨ c.Sent w [encode .received] := by
  rw [Said] at h
  split at h
  · exact .inl h
  · exact .inl h
  · exact .inr (.inl h)
  · exact .inr (.inl h)
  · exact .inr (.inl h)
  · exact .inr (.inl h)
  · exact .inr (.inr h)
  · exact .inr (.inr h)
  · exact h

/-- A step of a kernel that dialed. -/
theorem Dialing.sends (h : c.Dialing w) (hstep : c.Sends w.publicKey d c') : c'.Dialing w := by
  have hnamed (hout : ∀ error, c.out ≠ .ended (.error error)) : c.acceptor = c.attempt.target :=
    h.named.resolve_left fun ⟨_, error, herror⟩ => hout error herror
  have hsaid := h.said
  cases hstep with
  | stay => exact h
  | fail error read =>
    -- what it has said so far stays said
    refine ⟨h.addressed, ?_, hsaid.fail, by simp [Sending.Told]⟩
    exact h.named.imp_left fun hnone => ⟨hnone.1, error, rfl⟩
  | admitted query hout =>
    rw [Said, hout] at hsaid
    exact ⟨h.addressed, .inr (hnamed (by simp [hout])), hsaid, by simp [Sending.Told]⟩
  | read query query' hout =>
    rw [Said, hout] at hsaid
    exact ⟨h.addressed, .inr (hnamed (by simp [hout])), hsaid, by simp [Sending.Told]⟩
  | transferred query seed hout _ _ _ hkey =>
    rw [Said, hout] at hsaid
    -- the seed is the first thing that it says
    refine ⟨h.addressed, .inr (hnamed (by simp [hout])), ⟨seed, hkey, ?_⟩, by simp [Sending.Told]⟩
    show c.fromDialer ++ _ = _
    rw [hsaid, List.nil_append]
  | sent hout =>
    rw [Said, hout] at hsaid
    exact ⟨h.addressed, .inr (hnamed (by simp [hout])), hsaid, by simp [Sending.Told]⟩
  | acknowledged query read hout hframe =>
    rw [Said, hout] at hsaid
    -- it has read the frame, so the acceptor has said it
    exact ⟨h.addressed, .inr (hnamed (by simp [hout])), hsaid, fun _ => hframe⟩
  | reread query query' hout =>
    rw [Said, hout] at hsaid
    exact ⟨h.addressed, .inr (hnamed (by simp [hout])), hsaid, fun _ => h.told (hout ▸ trivial)⟩
  | confirmed query hout =>
    rw [Said, hout] at hsaid
    exact ⟨h.addressed, .inr (hnamed (by simp [hout])), hsaid, fun _ => h.told (hout ▸ trivial)⟩
  | readmitted hout =>
    rw [Said, hout] at hsaid
    obtain ⟨seed, hkey, hfrom⟩ := hsaid
    refine ⟨h.addressed, .inr (hnamed (by simp [hout])), ⟨seed, hkey, ?_⟩,
      fun _ => h.told (hout ▸ trivial)⟩
    show c.fromDialer ++ _ = _
    rw [hfrom]
    rfl
  | returned hout =>
    rw [Said, hout] at hsaid
    exact ⟨h.addressed, .inr (hnamed (by simp [hout])), hsaid, fun _ => h.told (hout ▸ trivial)⟩

theorem Replied.silent (h : c.Replied) (hsilent : Receiving.Silent c.inc) :
    c.fromAcceptor = [] := by
  rw [Replied] at h
  cases hinc : c.inc with
  | replying | receipt | ended =>
    rw [hinc] at hsilent
    exact hsilent.elim
  | _ =>
    rw [hinc] at h
    exact h

/-- Where a kernel has said that a seed is persisted, it has checkpointed one. -/
theorem Replied.outcome (h : c.Replied) (hpersisted : encode .persisted ∈ c.fromAcceptor) :
    ∃ saved, c.inc.outcome = some saved := by
  have hnone (heq : c.fromAcceptor = [] ∨ c.fromAcceptor = [encode .refused]) : False := by
    obtain heq | heq := heq
    · rw [heq] at hpersisted
      cases hpersisted
    · rw [heq] at hpersisted
      cases encode_injective (List.mem_singleton.1 hpersisted)
  rw [Replied] at h
  cases hinc : c.inc with
  | receipt saved => exact ⟨saved, rfl⟩
  -- of an end that is over, the outcome tells what it said
  | replying outcome | ended outcome =>
    rw [hinc] at h
    cases outcome with
    | none => exact (hnone h).elim
    | some saved => exact ⟨saved, rfl⟩
  | _ =>
    rw [hinc] at h
    exact (hnone (.inl h)).elim

/-- A step of a kernel that accepts. -/
theorem Accepting.accepts (h : c.Accepting w) (hstep : c.Accepts w.publicKey d d' c') :
    c'.Accepting w := by
  have hquiet {inc : Receiving} (hinc : c.inc = inc) (hsilent : Receiving.Silent inc) :
      c.fromAcceptor = [] := h.replied.silent (hinc ▸ hsilent)
  have hgiven {inc : Receiving} {sent : Saved} (hinc : c.inc = inc) (hsent : inc.sent = some sent) :
      ∀ saved ∈ some sent, encode (.transfer saved.identity saved.seed) ∈ c.fromDialer :=
    fun saved hsaved => h.given saved (by rw [hinc, hsent]; exact hsaved)
  have hfits {inc : Receiving} {sent : Saved} (hinc : c.inc = inc)
      (hsent : inc.installed = some sent) :
      ∀ saved ∈ some sent, w.publicKey saved.seed = saved.identity.root :=
    fun saved hsaved => h.fits saved (by rw [hinc, hsent]; exact hsaved)
  cases hstep with
  | stay => exact h
  -- a refusal is the only frame of an end that has kept silent
  | refuse hsilent =>
    refine ⟨.inr ?_, by simp [refuse, Receiving.sent], by simp [refuse, Receiving.installed]⟩
    rw [refuse, h.replied.silent hsilent, List.nil_append]
  | crash hsilent =>
    exact ⟨.inl (h.replied.silent hsilent), by simp [Receiving.sent], by simp [Receiving.installed]⟩
  | arrived hinc =>
    exact ⟨hquiet hinc trivial, by simp [Receiving.sent], by simp [Receiving.installed]⟩
  | admitted query hinc =>
    exact ⟨hquiet hinc trivial, by simp [Receiving.sent], by simp [Receiving.installed]⟩
  | read query query' hinc =>
    exact ⟨hquiet hinc trivial, by simp [Receiving.sent], by simp [Receiving.installed]⟩
  | identified query before context hinc =>
    exact ⟨hquiet hinc trivial, by simp [Receiving.sent], by simp [Receiving.installed]⟩
  | received before context sent read hinc hframe =>
    exact ⟨hquiet hinc trivial, by simpa [Receiving.sent] using hframe,
      by simp [Receiving.installed]⟩
  | readmitted before context asked sent hinc =>
    exact ⟨hquiet hinc trivial, hgiven hinc rfl,
      by simp [Receiving.installed]⟩
  | reread before context sent query query' hinc =>
    exact ⟨hquiet hinc trivial, hgiven hinc rfl,
      by simp [Receiving.installed]⟩
  | installed context sent hinc _ _ hkey =>
    exact ⟨hquiet hinc trivial, hgiven hinc rfl,
      by simpa [Receiving.installed] using hkey⟩
  | rolledBack context sent previous hinc =>
    exact ⟨hquiet hinc trivial, by simp [Receiving.sent], by simp [Receiving.installed]⟩
  | persisted context sent previous hinc =>
    refine ⟨?_, hgiven hinc rfl,
      hfits hinc rfl⟩
    show c.fromAcceptor ++ _ = _
    rw [hquiet hinc trivial, List.nil_append]
  | replied outcome hinc =>
    have hreplied := h.replied
    rw [Replied, hinc] at hreplied
    cases outcome with
    | none => exact ⟨hreplied, by simp [Receiving.sent], by simp [Receiving.installed]⟩
    | some sent =>
      exact ⟨hreplied, hgiven hinc rfl,
        hfits hinc rfl⟩
  | gaveUp outcome hinc =>
    have hreplied := h.replied
    rw [Replied, hinc] at hreplied
    cases outcome with
    | none => exact ⟨hreplied, by simp [Receiving.sent], by simp [Receiving.installed]⟩
    | some sent => exact ⟨hreplied, hgiven hinc rfl, hfits hinc rfl⟩
  | receipted saved hinc =>
    have hreplied := h.replied
    rw [Replied, hinc] at hreplied
    exact ⟨hreplied, hgiven hinc rfl,
      hfits hinc rfl⟩

end Conn

/-! ## Runs -/

/-- What a step makes of a connection, with the devices before and after it. -/
inductive Conn.Moves (w : World) (devices devices' : Key → Device) (c : Conn) : Conn → Prop where
  | stay : Moves w devices devices' c c
  | dialer (c' : Conn) (hhonest : w.honest c.dialer)
    (hsends : c.Sends w.publicKey (devices c.dialer) c') : Moves w devices devices' c c'
  | acceptor (c' : Conn) (hhonest : w.honest c.acceptor)
    (haccepts : c.Accepts w.publicKey (devices c.acceptor) (devices' c.acceptor) c') :
    Moves w devices devices' c c'
  | sayDialer (bytes : List UInt8) (hother : ¬ w.honest c.dialer) :
    Moves w devices devices' c { c with fromDialer := c.fromDialer ++ [bytes] }
  | sayAcceptor (bytes : List UInt8) (hother : ¬ w.honest c.acceptor) :
    Moves w devices devices' c { c with fromAcceptor := c.fromAcceptor ++ [bytes] }

/-- What a call was given, or has found out. -/
def Outgoing.Named (w : World) (key : Key) : Outgoing → Prop
  | .before endpoint target _ => w.endpointId target = endpoint ∧ target ≠ key
  | .dialing attempt => w.endpointId attempt.target = attempt.endpoint ∧ attempt.target ≠ key
  | _ => True

namespace Net

variable {w : World} {k : Net} {n : ℕ} {c c' : Conn}

theorem named_answer {key : Key} {d : Device} {call : Outgoing} (a : Answer)
    (h : call.Named w key) : (call.answer w key d a).Named w key := by
  unfold Outgoing.answer
  split
  · split
    · trivial
    next endpoint _ target hfind =>
    split_ifs with hself
    · trivial
    · split
      · trivial
      · have hendpoint := List.find?_some hfind
        exact ⟨by simpa using hendpoint, hself⟩
  · split
    · trivial
    · exact h
    · split_ifs
      · exact h
      · trivial
  all_goals trivial

/-- A connection that is set is the one that was there, or another one. -/
theorem getElem?_put {next : Conn} (h : (k.put n next).conns[n]? = some c') :
    c' = next := by
  obtain ⟨hn, hget⟩ := List.getElem?_eq_some_iff.1 h
  rw [← hget]
  exact List.getElem_set_self _

theorem exists_of_put {m : ℕ} {next : Conn} {devices' : Key → Device}
    (hn : k.conns[n]? = some c) (hmoves : c.Moves w k.devices devices' next)
    (h : (k.put n next).conns[m]? = some c') :
    ∃ c, k.conns[m]? = some c ∧ c.Moves w k.devices devices' c' := by
  by_cases hm : m = n
  · subst hm
    rw [getElem?_put h]
    exact ⟨c, hn, hmoves⟩
  · refine ⟨c', ?_, .stay⟩
    rw [← h]
    exact (List.getElem?_set_ne (Ne.symm hm)).symm

theorem exists_of_append {new : Conn} (h : (k.conns ++ [new])[n]? = some c') :
    k.conns[n]? = some c' ∨ (k.conns[n]? = none ∧ c' = new) := by
  by_cases hn : n < k.conns.length
  · rw [List.getElem?_append_left hn] at h
    exact .inl h
  · rw [List.getElem?_append_right (Nat.le_of_not_lt hn)] at h
    refine .inr ⟨List.getElem?_eq_none (Nat.le_of_not_lt hn), ?_⟩
    exact (List.mem_singleton.1 (List.mem_of_getElem? h))

/-- A connection after a step is a new one, or the one that was there after one of its steps. -/
theorem step_conns (k : Net) (l : Label) (h : (k.step w l).conns[n]? = some c') :
    (∃ c, k.conns[n]? = some c ∧ c.Moves w k.devices (k.step w l).devices c') ∨
      k.conns[n]? = none ∧ ∃ key peer attempt, c' = connect key peer attempt ∧
        (w.honest key → ∃ call ∈ k.calls, call = (key, .dialing attempt)) := by
  have hstay {devices : Key → Device} (h : k.conns[n]? = some c') :
      ∃ c, k.conns[n]? = some c ∧ c.Moves w k.devices devices c' := ⟨c', h, .stay⟩
  cases l with
  | transfer key endpoint =>
    simp only [step] at h ⊢
    split_ifs at h ⊢ <;> exact .inl (hstay h)
  | call i a =>
    simp only [step] at h ⊢
    split at h
    · next key attempt peer hcall =>
      obtain hold | ⟨hnone, rfl⟩ := exists_of_append h
      · exact .inl (hstay hold)
      · exact .inr ⟨hnone, key, peer, attempt, rfl, fun _ => ⟨_, List.mem_of_getElem? hcall, rfl⟩⟩
    · exact .inl (hstay h)
    · exact .inl (hstay h)
  | dialer m a =>
    simp only [step] at h ⊢
    split at h
    · next c hc =>
      split_ifs at h ⊢ with hhonest
      · exact .inl (exists_of_put hc (.dialer _ hhonest (Conn.sends_send a)) h)
      · exact .inl (hstay h)
    · exact .inl (hstay h)
  | arrive m =>
    simp only [step] at h ⊢
    split at h
    · next c hc =>
      split_ifs at h ⊢ with hhonest
      · exact .inl (exists_of_put hc (.acceptor _ hhonest Conn.accepts_arrive) h)
      · exact .inl (hstay h)
    · exact .inl (hstay h)
  | acceptor m a =>
    simp only [step] at h ⊢
    split at h
    · next c hc =>
      split_ifs at h ⊢ with hhonest
      · refine .inl (exists_of_put hc (.acceptor _ hhonest ?_) h)
        dsimp only
        rw [Function.update_self]
        exact Conn.accepts_accept a
      · exact .inl (hstay h)
    · exact .inl (hstay h)
  | dial dialer acceptor attempt =>
    simp only [step] at h ⊢
    split_ifs at h ⊢ with hhonest
    · exact .inl (hstay h)
    · obtain hold | ⟨hnone, rfl⟩ := exists_of_append h
      · exact .inl (hstay hold)
      · exact .inr ⟨hnone, dialer, acceptor, attempt, rfl, fun hother => absurd hother hhonest⟩
  | sayDialer m bytes =>
    simp only [step] at h ⊢
    split at h
    · next c hc =>
      split_ifs at h ⊢ with hhonest
      · exact .inl (hstay h)
      · exact .inl (exists_of_put hc (.sayDialer bytes hhonest) h)
    · exact .inl (hstay h)
  | sayAcceptor m bytes =>
    simp only [step] at h ⊢
    split at h
    · next c hc =>
      split_ifs at h ⊢ with hhonest
      · exact .inl (hstay h)
      · exact .inl (exists_of_put hc (.sayAcceptor bytes hhonest) h)
    · exact .inl (hstay h)
  | elsewhere key device => exact .inl (hstay h)

/-- What every step keeps. -/
structure Inv (w : World) (k : Net) : Prop where
  calls : ∀ call ∈ k.calls, call.2.Named w call.1
  dialing : ∀ c ∈ k.conns, w.honest c.dialer → c.Dialing w
  accepting : ∀ c ∈ k.conns, w.honest c.acceptor → c.Accepting w

theorem calls_step (l : Label) (h : ∀ call ∈ k.calls, call.2.Named w call.1) :
    ∀ call ∈ (k.step w l).calls, call.2.Named w call.1 := by
  have hset {i : ℕ} {key : Key} {next : Outgoing} (hnext : next.Named w key) :
      ∀ call ∈ k.calls.set i (key, next), call.2.Named w call.1 := by
    intro call hcall
    obtain hold | rfl := List.mem_or_eq_of_mem_set hcall
    · exact h call hold
    · exact hnext
  cases l with
  | transfer key endpoint =>
    simp only [step]
    split_ifs
    · intro call hcall
      obtain hold | hnew := List.mem_append.1 hcall
      · exact h call hold
      · rw [List.mem_singleton.1 hnew]
        show (Outgoing.start _ endpoint).Named w key
        rw [Outgoing.start]
        split <;> trivial
    · exact h
  | call i a =>
    simp only [step]
    split
    · exact hset trivial
    · next key call _ hcall _ => exact hset (named_answer _ (h _ (List.mem_of_getElem? hcall)))
    · exact h
  | elsewhere key device => exact h
  | dial dialer acceptor attempt =>
    simp only [step]
    split_ifs <;> exact h
  | dialer | arrive | acceptor | sayDialer | sayAcceptor =>
    simp only [step]
    split
    · split_ifs <;> exact h
    · exact h

theorem inv_step (k : Net) (l : Label) (h : Inv w k) : Inv w (k.step w l) := by
  -- either end is left alone by what the other one does
  refine ⟨calls_step l h.calls, fun c' hc' hhonest => ?_, fun c' hc' hhonest => ?_⟩
  all_goals obtain ⟨n, hn⟩ := List.getElem?_of_mem hc'
  all_goals obtain ⟨c, hc, hmoves⟩ | ⟨-, key, peer, attempt, rfl, hcall⟩ := step_conns k l hn
  · have hold := h.dialing c (List.mem_of_getElem? hc)
    cases hmoves with
    | stay => exact hold hhonest
    | dialer _ hdialer hsends => exact (hold hdialer).sends hsends
    | acceptor _ _ haccepts =>
      obtain ⟨hdialer, hacceptor, hattempt, hout, hfrom, hsaid⟩ := haccepts.frame
      exact (hold (hdialer ▸ hhonest)).mono hdialer hacceptor hattempt hout hfrom hsaid
    | sayDialer bytes hother => exact absurd hhonest hother
    | sayAcceptor bytes _ =>
      exact (hold hhonest).mono rfl rfl rfl rfl rfl (List.subset_append_left _ _)
  -- a new connection of a kernel has the attempt of its call
  · obtain ⟨call, hmem, rfl⟩ := hcall hhonest
    refine ⟨h.calls _ hmem, ?_, ?_, ?_⟩
    all_goals by_cases hpeer : peer = attempt.target
    all_goals simp [connect, hpeer, Conn.Said, Sending.Told]
  · have hold := h.accepting c (List.mem_of_getElem? hc)
    cases hmoves with
    | stay => exact hold hhonest
    | dialer _ _ hsends =>
      obtain ⟨-, hacceptor, -, hinc, hfrom, hsaid⟩ := hsends.frame
      exact (hold (hacceptor ▸ hhonest)).mono hinc hfrom hsaid
    | acceptor _ hacceptor haccepts => exact (hold hacceptor).accepts haccepts
    | sayDialer bytes _ => exact (hold hhonest).mono rfl rfl (List.subset_append_left _ _)
    | sayAcceptor bytes hother => exact absurd hhonest hother
  · exact ⟨rfl, by simp [connect, Receiving.sent], by simp [connect, Receiving.installed]⟩

/-- The connection is there, between the same two devices, and this holds of it. -/
def Holds (k : Net) (n : ℕ) (c₀ : Conn) (P : Conn → Prop) : Prop :=
  ∃ c, k.conns[n]? = some c ∧ (c.dialer = c₀.dialer ∧ c.acceptor = c₀.acceptor ∧
    c.attempt = c₀.attempt) ∧ P c

/-- Who is at the ends of a connection does not change. -/
theorem Conn.Moves.ends {devices devices' : Key → Device} (h : c.Moves w devices devices' c') :
    c'.dialer = c.dialer ∧ c'.acceptor = c.acceptor ∧ c'.attempt = c.attempt := by
  cases h with
  | stay => exact ⟨rfl, rfl, rfl⟩
  | dialer _ _ hsends => exact ⟨hsends.frame.1, hsends.frame.2.1, hsends.frame.2.2.1⟩
  | acceptor _ _ haccepts => exact ⟨haccepts.frame.1, haccepts.frame.2.1, haccepts.frame.2.2.1⟩
  | sayDialer bytes => exact ⟨rfl, rfl, rfl⟩
  | sayAcceptor bytes => exact ⟨rfl, rfl, rfl⟩

/-- What holds of a connection after a step, and of no new one, was made so by one of its steps. -/
theorem exists_of_holds {c₀ : Conn} {P : Conn → Prop} {l : Label}
    (hnew : ∀ key peer attempt, ¬ P (connect key peer attempt)) (h : (k.step w l).Holds n c₀ P) :
    ∃ c c', k.conns[n]? = some c ∧ (c.dialer = c₀.dialer ∧ c.acceptor = c₀.acceptor ∧
      c.attempt = c₀.attempt) ∧ c.Moves w k.devices (k.step w l).devices c' ∧ P c' := by
  obtain ⟨c', hc', ⟨hdialer, hacceptor, hattempt⟩, hP⟩ := h
  obtain ⟨c, hc, hmoves⟩ | ⟨-, key, peer, attempt, rfl, -⟩ := step_conns k l hc'
  · obtain ⟨hd, ha, hat⟩ := Conn.Moves.ends hmoves
    exact ⟨c, c', hc, ⟨hd.symm.trans hdialer, ha.symm.trans hacceptor, hat.symm.trans hattempt⟩,
      hmoves, hP⟩
  · exact absurd hP (hnew key peer attempt)

end Net

section Past

variable {w : World} {k : Net} {n : ℕ} {c₀ : Conn} {l : Label}

/-- A kernel sends a seed that it has in custody then, for the identity and in the context that its
call began with. -/
theorem said_before {identity : Identity} {seed : Key} (hhonest : w.honest c₀.dialer)
    (h : (k.step w l).Holds n c₀ fun c => encode (.transfer identity seed) ∈ c.fromDialer) :
    (k.Holds n c₀ fun c => encode (.transfer identity seed) ∈ c.fromDialer) ∨
      (k.Holds n c₀ fun c => ∃ query, c.out = .identifying query) ∧
        (k.devices c₀.dialer).custody = some seed ∧
        (k.devices c₀.dialer).context = c₀.attempt.context ∧
        (k.devices c₀.dialer).group = c₀.attempt.before.group := by
  obtain ⟨c, c', hc, hends, hmoves, hsaid⟩ := Net.exists_of_holds (by simp [connect]) h
  cases hmoves with
  | stay => exact .inl ⟨c, hc, hends, hsaid⟩
  | sayAcceptor bytes => exact .inl ⟨c, hc, hends, hsaid⟩
  | sayDialer bytes hother => exact absurd (hends.1 ▸ hhonest) hother
  | acceptor _ _ haccepts =>
    rw [haccepts.frame.2.2.2.2.1] at hsaid
    exact .inl ⟨c, hc, hends, hsaid⟩
  | dialer _ _ hsends =>
    rw [hends.1] at hsends
    cases hsends with
    | transferred query seed' hout hcontext hcustody hgroup =>
      obtain hold | hnew := List.mem_append.1 hsaid
      · exact .inl ⟨c, hc, hends, hold⟩
      -- the frame that went out says which seed
      · have hframe := encode_injective (List.mem_singleton.1 hnew)
        obtain ⟨-, rfl⟩ := Frame.transfer.inj hframe
        rw [hends.2.2] at hcontext hgroup
        exact .inr ⟨⟨c, hc, hends, query, hout⟩, hcustody, hcontext, hgroup⟩
    | readmitted =>
      obtain hold | hnew := List.mem_append.1 hsaid
      · exact .inl ⟨c, hc, hends, hold⟩
      · have hframe := encode_injective (List.mem_singleton.1 hnew)
        cases hframe
    | _ => exact .inl ⟨c, hc, hends, hsaid⟩

/-- A call goes on with a device that is a member. -/
theorem admitted_before (h : (k.step w l).Holds n c₀ fun c => ∃ query, c.out = .identifying query) :
    (k.Holds n c₀ fun c => ∃ query, c.out = .identifying query) ∨
      (k.Holds n c₀ fun _ => True) ∧ c₀.acceptor ∈ (k.devices c₀.dialer).members := by
  obtain ⟨c, c', hc, hends, hmoves, query, hquery⟩ := Net.exists_of_holds (by
    rintro key peer attempt ⟨query, hquery⟩
    rw [connect] at hquery
    split_ifs at hquery) h
  cases hmoves with
  | stay => exact .inl ⟨c, hc, hends, query, hquery⟩
  | sayAcceptor bytes => exact .inl ⟨c, hc, hends, query, hquery⟩
  | sayDialer bytes => exact .inl ⟨c, hc, hends, query, hquery⟩
  | acceptor _ _ haccepts =>
    rw [haccepts.frame.2.2.2.1] at hquery
    exact .inl ⟨c, hc, hends, query, hquery⟩
  | dialer _ _ hsends =>
    rw [hends.1] at hsends
    cases hsends with
    | admitted _ hout hmember => exact .inr ⟨⟨c, hc, hends, trivial⟩, hends.2.1 ▸ hmember⟩
    | read query' _ hout => exact .inl ⟨c, hc, hends, query', hout⟩
    | stay => exact .inl ⟨c, hc, hends, query, hquery⟩
    | _ => cases hquery

end Past

/-- No call was made yet. -/
def start (devices : Key → Device) : Net := { devices }

theorem inv_start (w : World) (devices : Key → Device) : (start devices).Inv w :=
  ⟨by simp [start], by simp [start], by simp [start]⟩

theorem inv_run (w : World) (devices : Key → Device) (ls : List Label) :
    (run (Net.step w) (start devices) ls).Inv w :=
  run_preserves Net.inv_step (inv_start w devices) ls

section Runs

variable {w : World} {devices : Key → Device} {ls : List Label} {n : ℕ} {c₀ : Conn}
  {P : Conn → Prop} {R : Net → Prop}

theorem not_holds_start : ¬ (start devices).Holds n c₀ P := by
  simp [Net.Holds, start]

/-- It came after what such a step is taken in. -/
theorem holds_before (h : (run (Net.step w) (start devices) ls).Holds n c₀ P)
    (hstep : ∀ k l, k.Inv w → (k.step w l).Holds n c₀ P → k.Holds n c₀ P ∨ R k) :
    ∃ ms, ms <+: ls ∧ R (run (Net.step w) (start devices) ms) :=
  exists_before (Q := fun k : Net => k.Holds n c₀ P) Net.inv_step hstep (inv_start w devices)
    not_holds_start h

end Runs

section Example

def exampleKey (n : UInt8) : Key := List.Vector.replicate 32 n

/-- A seed is its own public key here. -/
def exampleWorld : World where
  publicKey := id
  endpointId key := if key = exampleKey 1 then "one" else "two"
  honest _ := true

/-- Two devices of a user, of which the first one has the seed. -/
def exampleDevices (key : Key) : Device where
  custody := if key = exampleKey 1 then some (exampleKey 7) else none
  profile := some ⟨exampleKey 7, exampleKey 8⟩
  group := exampleKey 8
  members := [exampleKey 1, exampleKey 2]

def exampleRun : List Label :=
  [.transfer (exampleKey 1) "two", .call 0 .done, .call 0 .done, .call 0 .done,
    .call 0 (.connected (exampleKey 2))] ++
  List.replicate 4 (.dialer 0 .done) ++ .arrive 0 :: List.replicate 8 (.acceptor 0 .done) ++
  List.replicate 5 (.dialer 0 .done)

def exampleConn : Conn where
  dialer := exampleKey 1
  acceptor := exampleKey 2
  attempt := ⟨"two", exampleKey 2, ⟨exampleKey 7, exampleKey 8⟩, {}⟩
  out := .ended (.ok ())
  inc := .replying (some ⟨⟨exampleKey 7, exampleKey 8⟩, exampleKey 7⟩)
  fromDialer := [encode (.transfer ⟨exampleKey 7, exampleKey 8⟩ (exampleKey 7)), encode .received]
  fromAcceptor := [encode .persisted]
  readByDialer := 1
  readByAcceptor := 1

/-- The seed is handed over, and both ends know. -/
theorem exampleRun_conns :
    (run (Net.step exampleWorld) (start exampleDevices) exampleRun).conns[0]? =
      some exampleConn := by
  rfl

end Example

section Results

variable (w : World) (devices : Key → Device) (ls : List Label)

/-- In every run: what a kernel sends is the seed of the root that its call began with, to the
device that has the endpoint it was given and that is another one. The device was a member when the
connection stood, and the seed was in custody after that, in the context that the call began
with. -/
theorem secrets_confined {n : ℕ} {c : Conn} {identity : Identity} {seed : Key}
    (hc : (run (Net.step w) (start devices) ls).conns[n]? = some c) (hhonest : w.honest c.dialer)
    (hsaid : encode (.transfer identity seed) ∈ c.fromDialer) :
    (w.endpointId c.acceptor = c.attempt.endpoint ∧ c.acceptor ≠ c.dialer) ∧
      (identity = c.attempt.before ∧ w.publicKey seed = identity.root) ∧
      (∀ identity' seed', encode (.transfer identity' seed') ∈ c.fromDialer → seed' = seed) ∧
      ∃ ms ms', ms <+: ms' ∧ ms' <+: ls ∧
        n < (run (Net.step w) (start devices) ms).conns.length ∧
        c.acceptor ∈ ((run (Net.step w) (start devices) ms).devices c.dialer).members ∧
        ((run (Net.step w) (start devices) ms').devices c.dialer).custody = some seed ∧
        ((run (Net.step w) (start devices) ms').devices c.dialer).context = c.attempt.context ∧
        ((run (Net.step w) (start devices) ms').devices c.dialer).group = identity.group := by
  have hdialing := (inv_run w devices ls).dialing c (List.mem_of_getElem? hc) hhonest
  obtain ⟨seed', hkey, rest, hfrom, hrest⟩ : ∃ seed', w.publicKey seed' = c.attempt.before.root ∧
      ∃ rest, c.fromDialer = encode (.transfer c.attempt.before seed') :: rest ∧
        rest ⊆ [encode .received] := by
    obtain hnone | ⟨seed', hkey, hfrom⟩ | ⟨seed', hkey, hfrom⟩ := hdialing.said.fail
    · rw [hnone] at hsaid
      cases hsaid
    · exact ⟨seed', hkey, [], hfrom, List.nil_subset _⟩
    · exact ⟨seed', hkey, _, hfrom, List.Subset.refl _⟩
  -- a kernel says `Transfer` once, and the rest is no seed
  have hone (identity' : Identity) (seed'' : Key)
      (h : encode (.transfer identity' seed'') ∈ c.fromDialer) :
      identity' = c.attempt.before ∧ seed'' = seed' := by
    rw [hfrom] at h
    obtain heq | hmem := List.mem_cons.1 h
    · exact Frame.transfer.inj (encode_injective heq)
    · cases encode_injective (List.mem_singleton.1 (hrest hmem))
  obtain ⟨rfl, rfl⟩ := hone _ _ hsaid
  have hnamed : c.acceptor = c.attempt.target := by
    refine hdialing.named.resolve_left fun hnone => ?_
    rw [hnone.1] at hsaid
    cases hsaid
  have hsends : (run (Net.step w) (start devices) ls).Holds n c fun c' =>
      encode (.transfer c.attempt.before seed) ∈ c'.fromDialer := ⟨c, hc, ⟨rfl, rfl, rfl⟩, hsaid⟩
  -- back from the frame to the step that sent it, and from there to the one that admitted
  obtain ⟨ms', hms', hidentifying, hcustody, hcontext, hgroup⟩ :=
    holds_before hsends fun _ _ _ h => said_before hhonest h
  obtain ⟨ms, hms, ⟨c', hc', -⟩, hmember⟩ :=
    holds_before hidentifying fun _ _ _ h => admitted_before h
  rw [hnamed] at hmember ⊢
  exact ⟨hdialing.addressed, ⟨rfl, hkey⟩, fun _ _ h => (hone _ _ h).2, ms, ms', hms, hms',
    (List.getElem?_eq_some_iff.1 hc').1, hmember, hcustody, hcontext, hgroup⟩

theorem secrets_confined_example : exampleConn.acceptor ≠ exampleConn.dialer ∧
    ∃ ms, ms <+: exampleRun ∧
      ((run (Net.step exampleWorld) (start exampleDevices) ms).devices exampleConn.dialer).custody =
        some (exampleKey 7) := by
  have hsaid : encode (.transfer exampleConn.attempt.before (exampleKey 7)) ∈
      exampleConn.fromDialer := List.mem_cons_self ..
  obtain ⟨⟨-, hother⟩, -, -, ms, ms', -, hms', -, -, hcustody, -⟩ :=
    secrets_confined exampleWorld exampleDevices exampleRun exampleRun_conns rfl hsaid
  exact ⟨hother, ms', hms', hcustody⟩

end Results

end Polyvisor.RootTransfer
