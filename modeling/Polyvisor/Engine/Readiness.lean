import Polyvisor.Engine.Confinement
import Polyvisor.Engine.Connections

/-!
# Which peers may touch an opaque tree

`Engine::connect`, the control phases of `pump_events`, `rebuild_ready_peers` and
`forget_connection` of `engine/src/lib.rs`, with the policy that reads the ready peers, on one
device and for all of its peers.

The event pump handles one event at a time and is suspended inside the handling of a finished
synchronisation, while connections register and the group changes. Closing is only asked for here,
so a close is something that happens. `next_app_event` names every connection by its `ConnId`,
which the driver never gives out twice.

## Main results

* `contains_readyPeers_rebuildReadyPeers`: who is ready after a recount.
* `Sound` and `sound_step`: what every step keeps.
* `readiness_earned`: in a run in which nobody joins the group over a connection it already has,
  every connection of a peer that may read or write an opaque tree has run control to its end.
* `delete_iff_member`: a deletion asks for no connection at all.
* `readiness_inherited`: a peer that joins the group over such a connection, and a member that
  deletes without one.
-/

namespace Polyvisor.Readiness

open Std

/-- An authenticated connection. -/
structure Conn where
  id : ℕ
  peer : Bytes32
  deriving DecidableEq, Repr

/-- The trees of the control exchange. -/
inductive Control where
  | us
  | keyhive
  deriving DecidableEq, Repr

/-- Where `pump_events` is. -/
inductive Pump where
  /-- Waiting for the next event. -/
  | idle
  /-- Absorbing what a finished synchronisation of a control tree brought. -/
  | absorbing (tree : Control) (conn : ℕ)
  /-- Disconnecting the predecessors of a connection that is now ready. -/
  | retiring
  deriving DecidableEq, Repr

/-- What the engine knows of its connections. The last three fields no code reads. -/
structure Device where
  policy : GroupPolicy := ⟨∅, {}, ∅, fun _ h => by simp at h⟩
  conns : List Conn := []
  phases : ExtTreeMap ℕ ControlPhase := ∅
  /-- `connection_predecessors`. -/
  predecessors : ExtTreeMap ℕ (List ℕ) := ∅
  /-- The connections each `connect` call in flight found when it began. -/
  attempts : List (List ℕ) := []
  pump : Pump := .idle
  /-- Who each connection was registered for, and whether that was a member then. -/
  accepted : ExtTreeMap ℕ (Bytes32 × Bool) := ∅
  /-- The phases each connection was put in. -/
  passed : ExtTreeMap ℕ (List ControlPhase) := ∅
  /-- The synchronisations that have finished on each connection. -/
  finished : ExtTreeMap ℕ (List Control) := ∅

namespace Device

variable (d : Device)

/-- `control_phases.insert`. -/
def setPhase (id : ℕ) (phase : ControlPhase) : Device :=
  { d with
    phases := d.phases.insert id phase
    passed := d.passed.insert id (d.passed.getD id [] ++ [phase]) }

/-- How many connections each peer has, and how many of them are ready. -/
def live : ExtTreeMap Bytes32 (ℕ × ℕ) :=
  d.conns.foldl (fun live conn =>
    let counts := live.getD conn.peer (0, 0)
    live.insert conn.peer
      (counts.1 + 1, counts.2 + if d.phases[conn.id]? = some .ready then 1 else 0)) ∅

/-- `rebuild_ready_peers`. -/
def rebuildReadyPeers : Device :=
  let readyPeers := d.live.filterMap fun _ (all, ready) => if all = ready then some ready else none
  { d with policy := { d.policy with lifecycle := { d.policy.lifecycle with readyPeers } } }

/-- `forget_connection`. -/
def forgetConnection (id : ℕ) : Device :=
  { d with
    conns := d.conns.filter fun live => live.id ≠ id
    phases := d.phases.erase id
    predecessors := (d.predecessors.erase id).map fun _ ids => ids.filter fun v => v ≠ id }

/-- The test of `can_sync_peer`. -/
def canSyncPeer (peer : Bytes32) : Bool :=
  decide (peer ∈ d.policy.members) ||
    d.policy.shared.values.any fun authority => peer ∈ authority.readers

/-- Whether some shared document has the peer among its readers. -/
def sharesWith (peer : Bytes32) : Bool :=
  d.policy.shared.toList.any fun (tree, authority) =>
    tree.firstByte == sharedTreeTag && decide (peer ∈ authority.readers)

/-- `connect`, once it has authenticated, up to its next await. -/
def register (attempt : List ℕ) (conn : Conn) : Device :=
  let member := decide (conn.peer ∈ d.policy.members)
  let d := { d with
    conns := d.conns ++ [conn]
    accepted := d.accepted.insert conn.id (conn.peer, member) }
  if !member then
    -- only the trees shared with the peer are exchanged, and it is ready for these
    if d.sharesWith conn.peer then d.setPhase conn.id .ready else d
  else
    let predecessors :=
      (d.conns.filter fun existing => existing.peer = conn.peer ∧ existing.id ∈ attempt).map
        Conn.id
    ({ d with predecessors := d.predecessors.insert conn.id predecessors }.setPhase conn.id
      .awaitUs).rebuildReadyPeers

/-- The phase in which a control tree is awaited. -/
def awaited : Control → ControlPhase
  | .us => .awaitUs
  | .keyhive => .awaitKeyhive

/-- `SyncFinished` on a control tree. Out of turn it is not handled. -/
def syncFinished (tree : Control) (id : ℕ) : Device :=
  let d := { d with finished := d.finished.insert id (d.finished.getD id [] ++ [tree]) }
  if d.phases[id]? = some (awaited tree) then { d with pump := .absorbing tree id } else d

/-- The connection has run control to its end: it is ready, and what was there before its attempt is
dropped. -/
def complete (id : ℕ) : Device :=
  let d := d.setPhase id .ready
  let ids := d.predecessors.getD id []
  let d := { d with predecessors := d.predecessors.erase id, pump := .retiring }
  (d.conns.filter fun live => live.id ∈ ids).foldl (fun d live => d.forgetConnection live.id) d

/-- The pump goes on after its awaits. -/
def resume : Device :=
  match d.pump with
  | .idle => d
  | .absorbing .us id => { d.setPhase id .awaitKeyhive with pump := .idle }
  | .absorbing .keyhive id => d.complete id
  | .retiring => { d.rebuildReadyPeers with pump := .idle }

end Device

/-- What can happen next. -/
inductive Label where
  /-- `connect` is called. -/
  | connect
  /-- One of the calls in flight has authenticated its peer. -/
  | authenticated (attempt : ℕ) (conn : Conn)
  | syncFinished (tree : Control) (conn : ℕ)
  | connectionClosed (conn : ℕ)
  | resume
  /-- `refresh_members`. -/
  | members (next : Finset Bytes32)
  /-- The records of the shared documents are refreshed. -/
  | shared (next : SharedAuthorities) (reserved : ∀ t ∈ next, isSharedNamespace t)
  /-- `refresh_opaque_admission`. -/
  | registers (next : ExtTreeMap SlotHash RegisterValue)

namespace Device

/-- One step. While the pump is busy, events wait. -/
def step (d : Device) : Label → Device
  | .connect => { d with attempts := d.attempts ++ [d.conns.map Conn.id] }
  | .authenticated i conn =>
    match d.attempts[i]? with
    | none => d
    | some attempt =>
      if conn.id ∈ d.accepted then d
      else
        let d := { d with attempts := d.attempts.eraseIdx i }
        if d.canSyncPeer conn.peer then d.register attempt conn else d
  | .syncFinished tree id => if d.pump = .idle then d.syncFinished tree id else d
  | .connectionClosed id =>
    if d.pump = .idle then (d.forgetConnection id).rebuildReadyPeers else d
  | .resume => d.resume
  | .members next => { d with policy := { d.policy with members := next } }
  | .shared next reserved => { d with policy := { d.policy with shared := next, reserved } }
  | .registers registers =>
    { d with policy := { d.policy with lifecycle := { d.policy.lifecycle with registers } } }

/-- The connection was registered for a member and has itself been through all phases, after a
finished synchronisation of either tree on it. -/
structure Earned (d : Device) (conn : Conn) : Prop where
  accepted : d.accepted[conn.id]? = some (conn.peer, true)
  passed : d.passed[conn.id]? = some [.awaitUs, .awaitKeyhive, .ready]
  finished : [Control.us, .keyhive].Sublist (d.finished.getD conn.id [])

/-- Nobody becomes a member who has a connection that was registered when it was none. -/
def Admits (d : Device) : Label → Prop
  | .members next =>
    ∀ conn ∈ d.conns, d.accepted[conn.id]? = some (conn.peer, false) → conn.peer ∉ next
  | _ => True

/-! ## Who is ready -/

variable {d d' : Device} {peer : Bytes32} {id : ℕ}

theorem getElem?_live (d : Device) (peer : Bytes32) :
    let own := d.conns.filter fun conn => conn.peer = peer
    d.live[peer]? = if own = [] then none else
      some (own.length, own.countP fun conn => d.phases[conn.id]? = some .ready) := by
  rw [live]
  induction d.conns using List.reverseRecOn with
  | nil => simp
  | append_singleton conns conn ih =>
    simp only at ih
    rw [List.foldl_append, List.foldl_cons, List.foldl_nil, ExtTreeMap.getElem?_insert]
    by_cases hpeer : conn.peer = peer
    · subst hpeer
      -- the counts so far are those of the connections so far
      have hcounts (all : ExtTreeMap Bytes32 (ℕ × ℕ))
          (h : all[conn.peer]? = if conns.filter (fun c => c.peer = conn.peer) = [] then none else
            some ((conns.filter fun c => c.peer = conn.peer).length,
              (conns.filter fun c => c.peer = conn.peer).countP fun c =>
                d.phases[c.id]? = some .ready)) :
          all.getD conn.peer (0, 0) = ((conns.filter fun c => c.peer = conn.peer).length,
            (conns.filter fun c => c.peer = conn.peer).countP fun c =>
              d.phases[c.id]? = some .ready) := by
        rw [ExtTreeMap.getD_eq_getD_getElem?, h]
        split
        next hnil => simp [hnil]
        next => rfl
      rw [hcounts _ ih]
      simp [List.filter_append, List.countP_append, List.countP_cons]
    · rw [if_neg (by simpa using hpeer), ih]
      simp [List.filter_append, hpeer]

/-- After a recount a peer is ready if it has a connection and all it has are. -/
theorem contains_readyPeers_rebuildReadyPeers :
    peer ∈ d.rebuildReadyPeers.policy.lifecycle.readyPeers ↔
      (∃ conn ∈ d.conns, conn.peer = peer) ∧
        ∀ conn ∈ d.conns, conn.peer = peer → d.phases[conn.id]? = some .ready := by
  have hown := getElem?_live d peer
  simp only at hown
  rw [rebuildReadyPeers, ← ExtTreeMap.isSome_getElem?_iff_mem, ExtTreeMap.getElem?_filterMap', hown]
  split
  next hnil =>
    have hnone (conn : Conn) (hconn : conn ∈ d.conns) : conn.peer ≠ peer := by
      simpa using List.filter_eq_nil_iff.1 hnil conn hconn
    simp only [Option.bind_none, Option.isSome_none, Bool.false_eq_true, false_iff, not_and]
    exact fun ⟨conn, hconn, hpeer⟩ => absurd hpeer (hnone conn hconn)
  next hsome =>
    obtain ⟨conn, hconn⟩ := List.exists_mem_of_ne_nil _ hsome
    obtain ⟨hconn, hpeer⟩ := List.mem_filter.1 hconn
    have hex : ∃ conn ∈ d.conns, conn.peer = peer := ⟨conn, hconn, of_decide_eq_true hpeer⟩
    simp [hex, eq_comm (a := List.length _), List.countP_eq_length]

/-! ## What every step keeps -/

/-- The phases up to this one. -/
def upTo : ControlPhase → List ControlPhase
  | .awaitUs => [.awaitUs]
  | .awaitKeyhive => [.awaitUs, .awaitKeyhive]
  | .ready => [.awaitUs, .awaitKeyhive, .ready]

/-- The trees that were exchanged before this phase. -/
def exchanged : ControlPhase → List Control
  | .awaitUs => []
  | .awaitKeyhive => [.us]
  | .ready => [.us, .keyhive]

/-- The phase after a tree was exchanged. -/
def next : Control → ControlPhase
  | .us => .awaitKeyhive
  | .keyhive => .ready

/-- What holds of the connections, whoever is recorded as ready. -/
structure Tracked (d : Device) : Prop where
  registered : ∀ conn ∈ d.conns, ∃ member, d.accepted[conn.id]? = some (conn.peer, member)
  phased : ∀ (id : ℕ) (phase : ControlPhase), d.phases[id]? = some phase →
    ∃ conn ∈ d.conns, conn.id = id
  /-- What was in a phase was registered. -/
  entered : ∀ id ∈ d.passed, id ∈ d.accepted
  /-- Only a connection that was registered for a member waits for anything. -/
  awaiting : ∀ (id : ℕ) (phase : ControlPhase), d.phases[id]? = some phase → phase ≠ .ready →
    ∃ peer, d.accepted[id]? = some (peer, true)
  walked : ∀ conn ∈ d.conns, d.accepted[conn.id]? = some (conn.peer, true) →
    ∃ phase, d.phases[conn.id]? = some phase ∧ d.passed[conn.id]? = some (upTo phase) ∧
      (exchanged phase).Sublist (d.finished.getD conn.id [])
  absorbing : ∀ (tree : Control) (id : ℕ), d.pump = .absorbing tree id →
    d.phases[id]? = some (awaited tree) ∧
      (exchanged (next tree)).Sublist (d.finished.getD id [])
  /-- The predecessors of a connection are its peer's. -/
  kin : ∀ (id : ℕ) (ids : List ℕ), d.predecessors[id]? = some ids →
    ∃ peer, (∃ member, d.accepted[id]? = some (peer, member)) ∧
      ∀ v ∈ ids, ∃ member, d.accepted[v]? = some (peer, member)
  /-- No member has a connection from before. -/
  inside : ∀ conn ∈ d.conns, conn.peer ∈ d.policy.members →
    d.accepted[conn.id]? = some (conn.peer, true)

/-- What every step keeps. -/
structure Sound (d : Device) : Prop extends Tracked d where
  ready : ∀ peer ∈ d.policy.lifecycle.readyPeers, (∃ conn ∈ d.conns, conn.peer = peer) ∧
    ∀ conn ∈ d.conns, conn.peer = peer → d.accepted[conn.id]? = some (peer, true) →
      d.phases[conn.id]? = some .ready

theorem getElem?_phases_setPhase (d : Device) (id i : ℕ) (phase : ControlPhase) :
    (d.setPhase id phase).phases[i]? = if i = id then some phase else d.phases[i]? := by
  rw [setPhase, ExtTreeMap.getElem?_insert]
  by_cases h : i = id
  · simp [h]
  · simp [h, Ne.symm h]

theorem getElem?_passed_setPhase (d : Device) (id i : ℕ) (phase : ControlPhase) :
    (d.setPhase id phase).passed[i]? =
      if i = id then some (d.passed.getD id [] ++ [phase]) else d.passed[i]? := by
  rw [setPhase, ExtTreeMap.getElem?_insert]
  by_cases h : i = id
  · simp [h]
  · simp [h, Ne.symm h]

/-- Two connections of one number are one. -/
theorem Tracked.peer_eq (h : d.Tracked) {conn : Conn} (hconn : conn ∈ d.conns)
    {member : Bool} (haccepted : d.accepted[conn.id]? = some (peer, member)) :
    conn.peer = peer := by
  obtain ⟨_, hregistered⟩ := h.registered conn hconn
  rw [haccepted] at hregistered
  exact (Prod.mk.inj (Option.some.inj hregistered)).1.symm

/-! ## Forgetting connections -/

/-- Some connections were forgotten. -/
structure Forgot (d d' : Device) (gone : List ℕ) : Prop where
  policy : d'.policy = d.policy
  accepted : d'.accepted = d.accepted
  passed : d'.passed = d.passed
  finished : d'.finished = d.finished
  pump : d'.pump = d.pump
  attempts : d'.attempts = d.attempts
  conns : ∀ conn, conn ∈ d'.conns ↔ conn ∈ d.conns ∧ conn.id ∉ gone
  phases : ∀ id : ℕ, d'.phases[id]? = if id ∈ gone then none else d.phases[id]?
  predecessors : ∀ (id : ℕ) (ids : List ℕ), d'.predecessors[id]? = some ids →
    ∃ ids', d.predecessors[id]? = some ids' ∧ ids ⊆ ids'

theorem forgot_forgetConnection (d : Device) (id : ℕ) : Forgot d (d.forgetConnection id) [id] := by
  refine ⟨rfl, rfl, rfl, rfl, rfl, rfl, fun conn => ?_, fun i => ?_, fun i ids hids => ?_⟩
  · simp [forgetConnection]
  · rw [forgetConnection, ExtTreeMap.getElem?_erase]
    by_cases h : i = id
    · simp [h]
    · simp [h, Ne.symm h]
  · rw [forgetConnection, ExtTreeMap.getElem?_map, Option.map_eq_some_iff] at hids
    obtain ⟨ids', hget, rfl⟩ := hids
    rw [ExtTreeMap.getElem?_erase] at hget
    split at hget
    · cases hget
    · exact ⟨ids', hget, fun _ hv => (List.mem_filter.1 hv).1⟩

theorem forgot_foldl (d : Device) (conns : List Conn) :
    Forgot d (conns.foldl (fun d live => d.forgetConnection live.id) d) (conns.map Conn.id) := by
  induction conns generalizing d with
  | nil =>
    exact ⟨rfl, rfl, rfl, rfl, rfl, rfl, by simp, by simp, fun _ ids h => ⟨ids, h, fun _ => id⟩⟩
  | cons conn conns ih =>
    have hone := forgot_forgetConnection d conn.id
    obtain ⟨hpolicy, haccepted, hpassed, hfinished, hpump, hattempts, hconns, hphases,
      hpredecessors⟩ := ih (d.forgetConnection conn.id)
    refine ⟨hpolicy, haccepted, hpassed, hfinished, hpump, hattempts, fun c => ?_, fun i => ?_,
      fun i ids hids => ?_⟩
    · rw [List.foldl_cons, hconns, hone.conns]
      simp [and_assoc]
    · rw [List.foldl_cons, hphases, hone.phases]
      by_cases hi : i = conn.id
      · simp [hi]
      · simp [hi]
    · obtain ⟨ids', hids', hsub⟩ := hpredecessors i ids hids
      obtain ⟨ids'', hids'', hsub'⟩ := hone.predecessors i ids' hids'
      exact ⟨ids'', hids'', List.Subset.trans hsub hsub'⟩

theorem Tracked.forgot (h : d.Tracked) {gone : List ℕ} (hgone : Forgot d d' gone)
    (hpump : ∀ tree id, d'.pump ≠ .absorbing tree id) : d'.Tracked := by
  refine ⟨fun conn hconn => ?_, fun i phase hphase => ?_, fun i hi => ?_,
    fun i phase hphase hne => ?_, fun conn hconn haccepted => ?_,
    fun tree i heq => absurd heq (hpump tree i), fun i ids hids => ?_, fun conn hconn hmember => ?_⟩
  · rw [hgone.accepted]
    exact h.registered conn ((hgone.conns conn).1 hconn).1
  · rw [hgone.phases] at hphase
    split at hphase
    · cases hphase
    next hi =>
      obtain ⟨conn, hconn, rfl⟩ := h.phased i phase hphase
      exact ⟨conn, (hgone.conns conn).2 ⟨hconn, hi⟩, rfl⟩
  · rw [hgone.passed] at hi
    rw [hgone.accepted]
    exact h.entered i hi
  · rw [hgone.phases] at hphase
    split at hphase
    · cases hphase
    · rw [hgone.accepted]
      exact h.awaiting i phase hphase hne
  · obtain ⟨hconn, hi⟩ := (hgone.conns conn).1 hconn
    rw [hgone.accepted] at haccepted
    rw [hgone.phases, if_neg hi, hgone.passed, hgone.finished]
    exact h.walked conn hconn haccepted
  · obtain ⟨ids', hids', hsub⟩ := hgone.predecessors i ids hids
    obtain ⟨peer, hself, hkin⟩ := h.kin i ids' hids'
    rw [hgone.accepted]
    exact ⟨peer, hself, fun v hv => hkin v (hsub hv)⟩
  · rw [hgone.policy] at hmember
    rw [hgone.accepted]
    exact h.inside conn ((hgone.conns conn).1 hconn).1 hmember

/-- A recount makes everything sound. -/
theorem Tracked.rebuild (h : d.Tracked) : d.rebuildReadyPeers.Sound := by
  refine ⟨⟨h.registered, h.phased, h.entered, h.awaiting, h.walked, h.absorbing, h.kin, h.inside⟩,
    fun peer hpeer => ?_⟩
  obtain ⟨hex, hall⟩ := contains_readyPeers_rebuildReadyPeers.1 hpeer
  exact ⟨hex, fun conn hconn heq _ => hall conn hconn heq⟩

/-! ## The control phases -/

/-- A connection goes on to the next phase. -/
theorem Tracked.setPhase (h : d.Tracked) {tree : Control}
    (hphase : d.phases[id]? = some (awaited tree))
    (hexchanged : (exchanged (next tree)).Sublist (d.finished.getD id [])) {pump : Pump}
    (hpump : ∀ tree id, pump ≠ .absorbing tree id) :
    Tracked { d.setPhase id (next tree) with pump } := by
  have hne : awaited tree ≠ .ready := by
    cases tree with
    | us => exact nofun
    | keyhive => exact nofun
  obtain ⟨peer, haccepted⟩ := h.awaiting id _ hphase hne
  refine ⟨h.registered, fun i phase hi => ?_, fun i hi => ?_, fun i phase hi hphase' => ?_,
    fun conn hconn hmember => ?_, fun tree i heq => absurd heq (hpump tree i), h.kin, h.inside⟩
  · have hi' := hi
    rw [getElem?_phases_setPhase] at hi'
    split at hi'
    next heq => exact heq ▸ h.phased id _ hphase
    next => exact h.phased i phase hi'
  · rcases ExtTreeMap.mem_insert.1 hi with heq | hi
    · rw [← LawfulEqOrd.eq_of_compare heq]
      exact ExtTreeMap.mem_iff_isSome_getElem?.2 (Option.isSome_of_eq_some haccepted)
    · exact h.entered i hi
  · have hi' := hi
    rw [getElem?_phases_setPhase] at hi'
    split at hi'
    next heq =>
      subst heq
      exact ⟨peer, haccepted⟩
    next => exact h.awaiting i phase hi' hphase'
  · show ∃ phase, (d.setPhase id (next tree)).phases[conn.id]? = some phase ∧
      (d.setPhase id (next tree)).passed[conn.id]? = some (upTo phase) ∧
        (exchanged phase).Sublist (d.finished.getD conn.id [])
    rw [getElem?_phases_setPhase, getElem?_passed_setPhase]
    obtain ⟨phase, hget, hpassed, hsub⟩ := h.walked conn hconn hmember
    by_cases hid : conn.id = id
    · rw [hid] at hget hpassed
      rw [hphase] at hget
      cases hget
      rw [if_pos hid, if_pos hid, ExtTreeMap.getD_eq_getD_getElem?, hpassed, hid]
      refine ⟨next tree, rfl, ?_, hexchanged⟩
      cases tree with
      | us => rfl
      | keyhive => rfl
    · rw [if_neg hid, if_neg hid]
      exact ⟨phase, hget, hpassed, hsub⟩

/-- A peer with a connection that still waits is not ready. -/
theorem Sound.not_ready (h : d.Sound) {tree : Control}
    (hphase : d.phases[id]? = some (awaited tree))
    (haccepted : d.accepted[id]? = some (peer, true)) :
    peer ∉ d.policy.lifecycle.readyPeers := by
  intro hready
  obtain ⟨conn, hconn, rfl⟩ := h.phased id _ hphase
  have hgot := (h.ready peer hready).2 conn hconn (h.peer_eq hconn haccepted) haccepted
  rw [hphase] at hgot
  cases tree with
  | us => cases hgot
  | keyhive => cases hgot

theorem sound_syncFinished (h : d.Sound) (hidle : d.pump = .idle) (tree : Control) (id : ℕ) :
    (d.syncFinished tree id).Sound := by
  -- what has finished only grows
  have hgrows (i : ℕ) : (d.finished.getD i []).Sublist
      ((d.finished.insert id (d.finished.getD id [] ++ [tree])).getD i []) := by
    rw [ExtTreeMap.getD_insert]
    split
    next heq =>
      rw [LawfulEqOrd.eq_of_compare heq]
      exact List.sublist_append_left _ _
    next => exact List.Sublist.refl _
  have hwalked (conn : Conn) (hconn : conn ∈ d.conns)
      (hmember : d.accepted[conn.id]? = some (conn.peer, true)) :
      ∃ phase, d.phases[conn.id]? = some phase ∧ d.passed[conn.id]? = some (upTo phase) ∧
        (exchanged phase).Sublist
          ((d.finished.insert id (d.finished.getD id [] ++ [tree])).getD conn.id []) := by
    obtain ⟨phase, hget, hpassed, hsub⟩ := h.walked conn hconn hmember
    exact ⟨phase, hget, hpassed, hsub.trans (hgrows conn.id)⟩
  rw [syncFinished]
  split
  next hphase =>
    refine ⟨⟨h.registered, h.phased, h.entered, h.awaiting, hwalked, fun tree' i heq => ?_, h.kin,
      h.inside⟩, h.ready⟩
    cases heq
    refine ⟨hphase, ?_⟩
    rw [ExtTreeMap.getD_insert_self]
    cases tree with
    | us => exact List.sublist_append_right _ _
    | keyhive =>
      -- the other tree was exchanged before this one was awaited
      obtain ⟨conn, hconn, rfl⟩ := h.phased id _ hphase
      obtain ⟨peer, haccepted⟩ := h.awaiting conn.id _ hphase nofun
      have hmember : d.accepted[conn.id]? = some (conn.peer, true) := by
        rw [haccepted, h.peer_eq hconn haccepted]
      obtain ⟨phase, hget, -, hsub⟩ := h.walked conn hconn hmember
      obtain rfl : phase = .awaitKeyhive := Option.some.inj (hget.symm.trans hphase)
      exact hsub.append (List.Sublist.refl [Control.keyhive])
  next =>
    refine ⟨⟨h.registered, h.phased, h.entered, h.awaiting, hwalked, fun tree' i heq => ?_, h.kin,
      h.inside⟩, h.ready⟩
    have hpump : d.pump = .absorbing tree' i := heq
    rw [hidle] at hpump
    cases hpump

theorem sound_complete (h : d.Sound) (hpump : d.pump = .absorbing .keyhive id) :
    (d.complete id).Sound := by
  obtain ⟨hphase, hexchanged⟩ := h.absorbing .keyhive id hpump
  obtain ⟨peer, haccepted⟩ := h.awaiting id _ hphase nofun
  have hpeer : peer ∉ d.policy.lifecycle.readyPeers := h.not_ready hphase haccepted
  have htracked : Tracked { d.setPhase id .ready with pump := .retiring } :=
    h.toTracked.setPhase hphase hexchanged nofun
  rw [complete]
  set e : Device := { d.setPhase id .ready with
    predecessors := (d.setPhase id .ready).predecessors.erase id, pump := .retiring } with he
  have hkept : e.Tracked := by
    refine ⟨htracked.registered, htracked.phased, htracked.entered, htracked.awaiting,
      htracked.walked, htracked.absorbing, fun i ids hids => ?_, htracked.inside⟩
    rw [he, ExtTreeMap.getElem?_erase] at hids
    split at hids
    · cases hids
    · exact h.kin i ids hids
  have hgone := forgot_foldl e (e.conns.filter fun live =>
    live.id ∈ (d.setPhase id .ready).predecessors.getD id [])
  refine ⟨hkept.forgot hgone fun tree i => ?_, fun p hp => ?_⟩
  · rw [hgone.pump]
    exact nofun
  · rw [hgone.policy] at hp
    -- what is forgotten belongs to a peer that is not ready
    have hother (conn : Conn) (hconn : conn ∈ d.conns) (heq : conn.peer = p) :
        conn.id ≠ id ∧ conn.id ∉ (e.conns.filter fun live =>
          live.id ∈ (d.setPhase id .ready).predecessors.getD id []).map Conn.id := by
      obtain ⟨member, hregistered⟩ := h.registered conn hconn
      refine ⟨fun hid => ?_, fun hmem => ?_⟩
      · rw [hid, haccepted] at hregistered
        have hsame : peer = conn.peer := (Prod.mk.inj (Option.some.inj hregistered)).1
        exact hpeer (hsame ▸ heq ▸ hp)
      · obtain ⟨conn', hconn', hid⟩ := List.mem_map.1 hmem
        have hin : conn'.id ∈ d.predecessors.getD id [] :=
          of_decide_eq_true (List.mem_filter.1 hconn').2
        rw [ExtTreeMap.getD_eq_getD_getElem?] at hin
        cases hids : d.predecessors[id]? with
        | none =>
          rw [hids] at hin
          cases hin
        | some ids =>
          rw [hids] at hin
          obtain ⟨peer', ⟨_, hself⟩, hkin⟩ := h.kin id ids hids
          obtain ⟨_, hv⟩ := hkin conn'.id hin
          rw [hid, hregistered] at hv
          rw [haccepted] at hself
          have hsame : peer = peer' := (Prod.mk.inj (Option.some.inj hself)).1
          have hsame' : conn.peer = peer' := (Prod.mk.inj (Option.some.inj hv)).1
          exact hpeer (hsame ▸ hsame' ▸ heq ▸ hp)
    obtain ⟨⟨conn, hconn, heq⟩, hall⟩ := h.ready p hp
    refine ⟨⟨conn, (hgone.conns conn).2 ⟨hconn, (hother conn hconn heq).2⟩, heq⟩,
      fun conn hconn heq hmember => ?_⟩
    have hconn' : conn ∈ d.conns := ((hgone.conns conn).1 hconn).1
    obtain ⟨hid, hkept'⟩ := hother conn hconn' heq
    rw [hgone.accepted] at hmember
    rw [hgone.phases, if_neg hkept']
    show (d.setPhase id .ready).phases[conn.id]? = some .ready
    rw [getElem?_phases_setPhase, if_neg hid]
    exact hall conn hconn' heq hmember

theorem sound_resume (h : d.Sound) : d.resume.Sound := by
  rw [resume]
  split
  next => exact h
  next id hpump =>
    obtain ⟨hphase, hexchanged⟩ := h.absorbing .us id hpump
    obtain ⟨peer, haccepted⟩ := h.awaiting id _ hphase nofun
    have hpeer : peer ∉ d.policy.lifecycle.readyPeers := h.not_ready hphase haccepted
    refine ⟨h.toTracked.setPhase hphase hexchanged nofun, fun p hp => ?_⟩
    obtain ⟨hex, hall⟩ := h.ready p hp
    refine ⟨hex, fun conn hconn heq hmember => ?_⟩
    have hid : conn.id ≠ id := by
      rintro rfl
      have hsame := h.peer_eq hconn haccepted
      exact hpeer (hsame ▸ heq ▸ hp)
    show (d.setPhase id .awaitKeyhive).phases[conn.id]? = some .ready
    rw [getElem?_phases_setPhase, if_neg hid]
    exact hall conn hconn heq hmember
  next id hpump => exact sound_complete h hpump
  next =>
    have hrebuilt := h.toTracked.rebuild
    exact ⟨⟨hrebuilt.registered, hrebuilt.phased, hrebuilt.entered, hrebuilt.awaiting,
      hrebuilt.walked, nofun, hrebuilt.kin, hrebuilt.inside⟩, hrebuilt.ready⟩

/-! ## Registering -/

/-- A connection was registered: it waits for control if its peer is a member, and otherwise it is
ready or in no phase. -/
structure Registered (d d' : Device) (conn : Conn) : Prop where
  members : d'.policy.members = d.policy.members
  readyPeers : d'.policy.lifecycle.readyPeers = d.policy.lifecycle.readyPeers
  conns : d'.conns = d.conns ++ [conn]
  accepted : d'.accepted =
    d.accepted.insert conn.id (conn.peer, decide (conn.peer ∈ d.policy.members))
  pump : d'.pump = d.pump
  finished : d'.finished = d.finished
  phases : ∀ i : ℕ, i ≠ conn.id → d'.phases[i]? = d.phases[i]?
  passed : ∀ i : ℕ, i ≠ conn.id → d'.passed[i]? = d.passed[i]?
  predecessors : ∀ i : ℕ, i ≠ conn.id → d'.predecessors[i]? = d.predecessors[i]?
  kin : ∀ ids, d'.predecessors[conn.id]? = some ids →
    ∀ v ∈ ids, ∃ existing ∈ d'.conns, existing.id = v ∧ existing.peer = conn.peer
  member : conn.peer ∈ d.policy.members →
    d'.phases[conn.id]? = some .awaitUs ∧ d'.passed[conn.id]? = some [.awaitUs]
  stranger : conn.peer ∉ d.policy.members →
    ∀ phase, d'.phases[conn.id]? = some phase → phase = .ready

section Registering

variable {conn : Conn}

theorem Registered.getElem?_accepted (h : Registered d d' conn) (i : ℕ) :
    d'.accepted[i]? = if i = conn.id then
      some (conn.peer, decide (conn.peer ∈ d.policy.members)) else d.accepted[i]? := by
  rw [h.accepted, ExtTreeMap.getElem?_insert]
  by_cases hi : i = conn.id
  · simp [hi]
  · simp [hi, Ne.symm hi]

theorem Tracked.id_ne (h : d.Tracked) (hnew : conn.id ∉ d.accepted) {c : Conn}
    (hc : c ∈ d.conns) : c.id ≠ conn.id := by
  intro heq
  obtain ⟨_, hregistered⟩ := h.registered c hc
  rw [heq] at hregistered
  exact hnew (ExtTreeMap.mem_iff_isSome_getElem?.2 (Option.isSome_of_eq_some hregistered))

theorem Tracked.register (h : d.Tracked) (hnew : conn.id ∉ d.accepted)
    (hreg : Registered d d' conn) : d'.Tracked := by
  have hkeep {i : ℕ} {v : Bytes32 × Bool} (hi : d.accepted[i]? = some v) :
      d'.accepted[i]? = some v ∧ i ≠ conn.id := by
    have hne : i ≠ conn.id := by
      rintro rfl
      exact hnew (ExtTreeMap.mem_iff_isSome_getElem?.2 (Option.isSome_of_eq_some hi))
    rw [hreg.getElem?_accepted, if_neg hne, hi]
    exact ⟨rfl, hne⟩
  have hself : d'.accepted[conn.id]? =
      some (conn.peer, decide (conn.peer ∈ d.policy.members)) := by
    rw [hreg.getElem?_accepted, if_pos rfl]
  have hregistered : ∀ c ∈ d'.conns, ∃ member, d'.accepted[c.id]? = some (c.peer, member) := by
    intro c hc
    rw [hreg.conns] at hc
    rcases List.mem_append.1 hc with hc | hc
    · obtain ⟨member, hmember⟩ := h.registered c hc
      exact ⟨member, (hkeep hmember).1⟩
    · rw [List.mem_singleton.1 hc]
      exact ⟨_, hself⟩
  refine ⟨hregistered, fun i phase hi => ?_, fun i hi => ?_, fun i phase hi hne => ?_,
    fun c hc hmember => ?_, fun tree i hpump => ?_, fun i ids hids => ?_, fun c hc hmember => ?_⟩
  · rw [hreg.conns]
    by_cases heq : i = conn.id
    · exact ⟨conn, List.mem_append_right _ (List.mem_singleton_self _), heq.symm⟩
    · rw [hreg.phases i heq] at hi
      obtain ⟨c, hc, hid⟩ := h.phased i phase hi
      exact ⟨c, List.mem_append_left _ hc, hid⟩
  · rw [ExtTreeMap.mem_iff_isSome_getElem?] at hi ⊢
    by_cases heq : i = conn.id
    · rw [heq, hself]
      rfl
    · rw [hreg.passed i heq, ← ExtTreeMap.mem_iff_isSome_getElem?] at hi
      rw [hreg.getElem?_accepted, if_neg heq, ← ExtTreeMap.mem_iff_isSome_getElem?]
      exact h.entered i hi
  · by_cases heq : i = conn.id
    · subst heq
      by_cases hmember : conn.peer ∈ d.policy.members
      · exact ⟨conn.peer, by rw [hself, decide_eq_true hmember]⟩
      · exact absurd (hreg.stranger hmember phase hi) hne
    · rw [hreg.phases i heq] at hi
      obtain ⟨peer, hpeer⟩ := h.awaiting i phase hi hne
      exact ⟨peer, (hkeep hpeer).1⟩
  · rw [hreg.finished]
    rw [hreg.conns] at hc
    rcases List.mem_append.1 hc with hc | hc
    · have hne := h.id_ne hnew hc
      rw [hreg.getElem?_accepted, if_neg hne] at hmember
      rw [hreg.phases c.id hne, hreg.passed c.id hne]
      exact h.walked c hc hmember
    · rw [List.mem_singleton.1 hc] at hmember ⊢
      rw [hself] at hmember
      have hin : conn.peer ∈ d.policy.members :=
        of_decide_eq_true (Prod.mk.inj (Option.some.inj hmember)).2
      obtain ⟨hphase, hpassed⟩ := hreg.member hin
      exact ⟨.awaitUs, hphase, hpassed, List.nil_sublist _⟩
  · rw [hreg.pump] at hpump
    obtain ⟨hphase, hexchanged⟩ := h.absorbing tree i hpump
    have hne : i ≠ conn.id := by
      obtain ⟨c, hc, rfl⟩ := h.phased i _ hphase
      exact h.id_ne hnew hc
    rw [hreg.phases i hne, hreg.finished]
    exact ⟨hphase, hexchanged⟩
  · by_cases heq : i = conn.id
    · subst heq
      refine ⟨conn.peer, ⟨_, hself⟩, fun v hv => ?_⟩
      obtain ⟨existing, hexisting, rfl, hpeer⟩ := hreg.kin ids hids v hv
      obtain ⟨member, hmember⟩ := hregistered existing hexisting
      exact ⟨member, hpeer ▸ hmember⟩
    · rw [hreg.predecessors i heq] at hids
      obtain ⟨peer, ⟨member, hmember⟩, hall⟩ := h.kin i ids hids
      refine ⟨peer, ⟨member, (hkeep hmember).1⟩, fun v hv => ?_⟩
      obtain ⟨member, hmember⟩ := hall v hv
      exact ⟨member, (hkeep hmember).1⟩
  · rw [hreg.members] at hmember
    rw [hreg.conns] at hc
    rcases List.mem_append.1 hc with hc | hc
    · exact (hkeep (h.inside c hc hmember)).1
    · rw [List.mem_singleton.1 hc] at hmember ⊢
      rw [hself, decide_eq_true hmember]

/-- Nobody who is ready loses that to a connection registered for a stranger. -/
theorem Sound.register_stranger (h : d.Sound) (hnew : conn.id ∉ d.accepted)
    (hreg : Registered d d' conn) (hstranger : conn.peer ∉ d.policy.members) : d'.Sound := by
  refine ⟨h.toTracked.register hnew hreg, fun p hp => ?_⟩
  rw [hreg.readyPeers] at hp
  rw [hreg.conns]
  obtain ⟨⟨c, hc, heq⟩, hall⟩ := h.ready p hp
  refine ⟨⟨c, List.mem_append_left _ hc, heq⟩, fun c hc heq hmember => ?_⟩
  rcases List.mem_append.1 hc with hc | hc
  · have hne := h.id_ne hnew hc
    rw [hreg.getElem?_accepted, if_neg hne] at hmember
    rw [hreg.phases c.id hne]
    exact hall c hc heq hmember
  · rw [List.mem_singleton.1 hc, hreg.getElem?_accepted, if_pos rfl,
      decide_eq_false hstranger] at hmember
    cases hmember

theorem sound_register (h : d.Sound) (hnew : conn.id ∉ d.accepted) (attempt : List ℕ) :
    (d.register attempt conn).Sound := by
  have hphase : d.phases[conn.id]? = none := by
    cases hphase : d.phases[conn.id]? with
    | none => rfl
    | some phase =>
      obtain ⟨c, hc, heq⟩ := h.phased _ _ hphase
      exact absurd heq (h.id_ne hnew hc)
  have hpassed : d.passed.getD conn.id [] = [] := by
    rw [ExtTreeMap.getD_eq_getD_getElem?,
      ExtTreeMap.getElem?_eq_none fun hmem => hnew (h.entered _ hmem)]
    rfl
  have hpredecessors : ∀ ids, d.predecessors[conn.id]? = some ids → False := by
    intro ids hids
    obtain ⟨peer, ⟨member, hmember⟩, -⟩ := h.kin _ ids hids
    exact hnew (ExtTreeMap.mem_iff_isSome_getElem?.2 (Option.isSome_of_eq_some hmember))
  by_cases hmember : conn.peer ∈ d.policy.members
  · rw [register]
    simp only [hmember, decide_true, Bool.not_true, Bool.false_eq_true, if_false]
    refine Tracked.rebuild (h.toTracked.register hnew ?_)
    refine ⟨rfl, rfl, rfl, ?_, rfl, rfl, fun i hi => ?_, fun i hi => ?_, fun i hi => ?_,
      fun ids hids v hv => ?_, fun _ => ⟨?_, ?_⟩, fun hnot => absurd hmember hnot⟩
    · simp only [setPhase, hmember, decide_true]
    · rw [getElem?_phases_setPhase, if_neg hi]
    · rw [getElem?_passed_setPhase, if_neg hi]
    · rw [setPhase, ExtTreeMap.getElem?_insert, if_neg (by simpa using hi.symm)]
    · rw [setPhase, ExtTreeMap.getElem?_insert_self] at hids
      cases hids
      obtain ⟨existing, hexisting, rfl⟩ := List.mem_map.1 hv
      obtain ⟨hexisting, hkin⟩ := List.mem_filter.1 hexisting
      exact ⟨existing, hexisting, rfl, (of_decide_eq_true hkin).1⟩
    · rw [getElem?_phases_setPhase, if_pos rfl]
    · rw [getElem?_passed_setPhase, if_pos rfl, hpassed]
      rfl
  · rw [register]
    simp only [hmember, decide_false, Bool.not_false, if_true]
    split
    next =>
      refine h.register_stranger hnew ?_ hmember
      refine ⟨rfl, rfl, rfl, ?_, rfl, rfl, fun i hi => ?_, fun i hi => ?_, fun _ _ => rfl,
        fun ids hids => (hpredecessors ids hids).elim, fun hin => absurd hin hmember,
        fun _ phase hi => ?_⟩
      · simp only [setPhase, hmember, decide_false]
      · rw [getElem?_phases_setPhase, if_neg hi]
      · rw [getElem?_passed_setPhase, if_neg hi]
      · rw [getElem?_phases_setPhase, if_pos rfl] at hi
        exact (Option.some.inj hi).symm
    next =>
      have hreg : Registered d { d with
          conns := d.conns ++ [conn]
          accepted := d.accepted.insert conn.id (conn.peer, false) } conn := by
        refine ⟨rfl, rfl, rfl, ?_, rfl, rfl, fun _ _ => rfl, fun _ _ => rfl, fun _ _ => rfl,
          fun ids hids => (hpredecessors ids hids).elim, fun hin => absurd hin hmember,
          fun _ phase hi => ?_⟩
        · simp only [hmember, decide_false]
        · have hi' : d.phases[conn.id]? = some phase := hi
          rw [hphase] at hi'
          cases hi'
      exact h.register_stranger hnew hreg hmember

end Registering

/-! ## Every step -/

theorem sound_step (d : Device) (l : Label) (hl : d.Admits l) (h : d.Sound) : (d.step l).Sound := by
  cases l with
  | connect => exact ⟨⟨h.registered, h.phased, h.entered, h.awaiting, h.walked, h.absorbing, h.kin,
      h.inside⟩, h.ready⟩
  | authenticated i conn =>
    rw [step]
    split
    next => exact h
    next =>
      split
      next => exact h
      next hnew =>
        have hcalled : Sound { d with attempts := d.attempts.eraseIdx i } :=
          ⟨⟨h.registered, h.phased, h.entered, h.awaiting, h.walked, h.absorbing, h.kin, h.inside⟩,
            h.ready⟩
        simp only
        split
        next => exact sound_register hcalled hnew _
        next => exact hcalled
  | syncFinished tree id =>
    rw [step]
    split
    next hidle => exact sound_syncFinished h hidle tree id
    next => exact h
  | connectionClosed id =>
    rw [step]
    split
    next hidle =>
      have hgone := forgot_forgetConnection d id
      refine (h.toTracked.forgot hgone fun tree i => ?_).rebuild
      rw [hgone.pump, hidle]
      exact nofun
    next => exact h
  | resume => exact sound_resume h
  | members next =>
    refine ⟨⟨h.registered, h.phased, h.entered, h.awaiting, h.walked, h.absorbing, h.kin,
      fun conn hconn hmember => ?_⟩, h.ready⟩
    obtain ⟨member, hregistered⟩ := h.registered conn hconn
    cases member with
    | true => exact hregistered
    | false => exact absurd hmember (hl conn hconn hregistered)
  | shared next reserved => exact ⟨⟨h.registered, h.phased, h.entered, h.awaiting, h.walked,
      h.absorbing, h.kin, h.inside⟩, h.ready⟩
  | registers registers => exact ⟨⟨h.registered, h.phased, h.entered, h.awaiting, h.walked,
      h.absorbing, h.kin, h.inside⟩, h.ready⟩

theorem sound_empty : Sound {} := by
  constructor
  · constructor <;> simp
  · simp

/-- The readiness test leaves out deletions: a member is answered one of any opaque tree, with or
without a connection. -/
theorem delete_iff_member (policy : GroupPolicy) {peer : Bytes32} {t : TreeId}
    (ht : Opaque.isOpaqueTree t) :
    policy.authorize (.remote peer) t .delete = .allow ↔ peer ∈ policy.members := by
  have hreserved : ¬ isSharedNamespace t := not_isSharedNamespace_of_isOpaqueTree ht
  have hnone : policy.shared[t]? = none :=
    ExtTreeMap.getElem?_eq_none fun hmem => hreserved (policy.reserved t hmem)
  simp [GroupPolicy.authorize, hnone, hreserved]

/-- In every run in which nobody becomes a member who has a connection from before, a peer that may
read or write an opaque tree has a connection, and each of its connections was registered for a
member and has itself run control to its end. -/
theorem readiness_earned (ls : List Label) (hmeets : Transition.Meets step Admits {} ls)
    {peer : Bytes32} {t : TreeId} {action : StorageAction} (ht : Opaque.isOpaqueTree t)
    (haction : action ≠ .delete)
    (hallow : (Transition.run step {} ls).policy.authorize (.remote peer) t action = .allow) :
    (∃ conn ∈ (Transition.run step {} ls).conns, conn.peer = peer) ∧
      ∀ conn ∈ (Transition.run step {} ls).conns, conn.peer = peer →
        (Transition.run step {} ls).Earned conn := by
  have h := Transition.run_preserves_of_meets sound_step hmeets sound_empty
  generalize Transition.run step {} ls = d at h hallow ⊢
  obtain ⟨-, hready⟩ := GroupPolicy.opaque_of_authorize hallow ht haction
  have hmember : peer ∈ d.policy.members := by
    have hrecord := GroupPolicy.record_of_authorize hallow
    have hnone : d.policy.shared[t]? = none := ExtTreeMap.getElem?_eq_none fun hmem =>
      not_isSharedNamespace_of_isOpaqueTree ht (d.policy.reserved t hmem)
    simp only [hnone] at hrecord
    exact hrecord.2
  obtain ⟨hex, hall⟩ := h.ready peer hready
  refine ⟨hex, ?_⟩
  rintro conn hconn rfl
  have haccepted := h.inside conn hconn hmember
  obtain ⟨phase, hphase, hpassed, hexchanged⟩ := h.walked conn hconn haccepted
  obtain rfl : phase = .ready :=
    Option.some.inj (hphase.symm.trans (hall conn hconn rfl haccepted))
  exact ⟨haccepted, hpassed, hexchanged⟩

/-- A register that names one tree. -/
def sampleRegisters : ExtTreeMap SlotHash RegisterValue :=
  (∅ : ExtTreeMap SlotHash RegisterValue).insert 5 ⟨1, 3, some .callerEncrypted⟩

/-- A member connects and runs control to its end. -/
def sampleRun : List Label :=
  [.registers sampleRegisters, .members {7}, .connect, .authenticated 0 ⟨1, 7⟩,
    .syncFinished .us 1, .resume, .syncFinished .keyhive 1, .resume, .resume]

theorem readiness_earned_sampleRun :
    (∃ conn ∈ (Transition.run step {} sampleRun).conns, conn.peer = 7) ∧
      ∀ conn ∈ (Transition.run step {} sampleRun).conns, conn.peer = 7 →
        (Transition.run step {} sampleRun).Earned conn := by
  have hmeets : Transition.Meets step Admits {} sampleRun := by
    refine ⟨trivial, fun conn hconn => ?_, trivial, trivial, trivial, trivial, trivial, trivial,
      trivial, trivial⟩
    cases hconn
  exact readiness_earned sampleRun hmeets (t := Opaque.treeId 5 3) (by decide)
    (nofun : StorageAction.read ≠ .delete) (by decide +kernel)

/-- The record of a shared document with one reader. -/
def sampleRecords : SharedAuthorities :=
  (∅ : SharedAuthorities).insert (sharedTreeTag ++ (0 : BitVec 248)) ⟨{8}, ∅⟩

theorem reserved_sampleRecords : ∀ t ∈ sampleRecords, isSharedNamespace t := by
  intro t ht
  rcases ExtTreeMap.mem_insert.1 ht with heq | ht
  · rw [← LawfulEqOrd.eq_of_compare heq]
    decide
  · simp at ht

/-- A peer reads a shared document and is ready for that. Another connection closes, the peer joins
the group, and it may write an opaque tree over a connection that never ran control. And a member
that never connected may delete one. -/
theorem readiness_inherited :
    (let d := Transition.run step {} [.registers sampleRegisters,
      .shared sampleRecords reserved_sampleRecords, .connect, .authenticated 0 ⟨1, 8⟩,
      .connectionClosed 2, .members {8}]
    d.policy.authorize (.remote 8) (Opaque.treeId 5 3) .write = .allow ∧
      d.conns = [⟨1, 8⟩] ∧ d.passed[1]? = some [.ready] ∧ d.finished[1]? = none) ∧
    (let d := Transition.run step {} [.registers sampleRegisters, .members {7}]
    d.policy.authorize (.remote 7) (Opaque.treeId 5 3) .delete = .allow ∧ d.conns = []) := by
  decide +kernel

end Device

end Polyvisor.Readiness
