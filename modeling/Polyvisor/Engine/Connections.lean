import Mathlib.Data.List.MinMax
import Mathlib.Data.Finset.Max
import Polyvisor.Lib.Transition
import Std.Data.ExtTreeMap

/-!
# Which connection survives

`Engine::connect`, the control phases and the choice among duplicates in `pump_events`, and
`forget_connection` of `engine/src/lib.rs`, on two devices of one group. A wire is one transport
between them; each device runs `connect` on it in its own time and numbers it in its own order.
Closing is asked for on one device and noticed by both in time. Connections to other peers take no
part: every filter of the source is by peer.

A device that has authenticated a wire keeps running control on it until it notices that the wire
is closed, so its messages may still arrive in between.

## Main results

* `Network.supersedes_of_closed`: a wire is closed only in favour of one that supersedes it on the
  device that closes it.
* `Network.retained_alike`: in every run in which the two devices never rank wires in a circle,
  once nothing is left to do both devices retain exactly one connection and it is the same wire.
* `Network.crossed_closings`: two wires that are numbered in opposite orders close each other.
-/

namespace Polyvisor

open Std

/-- The device with the smaller key, and the other one. -/
inductive Side where
  | low
  | high
  deriving DecidableEq, Repr

/-- `ControlPhase`. -/
inductive ControlPhase where
  | awaitUs
  | awaitKeyhive
  | ready
  deriving DecidableEq, Repr

/-- One device's connections to the other. They are named by their wire; `numbers` holds the
`ConnId` the local driver has given each. -/
structure Endpoint where
  /-- The next number the driver gives. -/
  next : ℕ := 0
  /-- The `connect` calls in flight, with the connections that were there when they began. -/
  attempts : ExtTreeMap ℕ (List ℕ) := ∅
  /-- The local numbers. -/
  numbers : ExtTreeMap ℕ ℕ := ∅
  /-- `conns`. -/
  conns : List ℕ := []
  /-- `control_phases`. -/
  phases : ExtTreeMap ℕ ControlPhase := ∅
  /-- `control_initiators`. -/
  initiators : Finset ℕ := ∅
  /-- `connection_predecessors`. -/
  predecessors : ExtTreeMap ℕ (List ℕ) := ∅
  /-- The predecessors every connection was registered with; no function reads them. -/
  inherited : ExtTreeMap ℕ (List ℕ) := ∅

namespace Endpoint

/-- The part of `connect` after authentication. -/
def register (e : Endpoint) (w : ℕ) (outbound : Bool) (attempt : List ℕ) : Endpoint :=
  let conns := e.conns ++ [w]
  let samePeerPredecessors := conns.filter fun existing => existing ∈ attempt
  { e with
    attempts := e.attempts.erase w
    conns
    phases := e.phases.insert w .awaitUs
    initiators := if outbound then insert w e.initiators else e.initiators
    predecessors := e.predecessors.insert w samePeerPredecessors
    inherited := e.inherited.insert w samePeerPredecessors }

/-- `forget_connection`. -/
def forget (e : Endpoint) (w : ℕ) : Endpoint :=
  { e with
    conns := e.conns.filter fun live => live ≠ w
    phases := e.phases.erase w
    initiators := e.initiators.erase w
    predecessors := (e.predecessors.erase w).map fun _ ids => ids.filter fun id => id ≠ w }

/-- Whether a connection runs in the direction both devices prefer. -/
def preferred (e : Endpoint) (s : Side) (w : ℕ) : Bool :=
  decide (w ∈ e.initiators) == decide (s = .low)

/-- The connections that have completed control. -/
def ready (e : Endpoint) : List ℕ :=
  e.conns.filter fun live => e.phases[live]? = some .ready

/-- The one among them that is kept. -/
def winner (e : Endpoint) (s : Side) : Option ℕ :=
  let preferredExists := e.ready.any fun live => e.preferred s live
  (e.ready.filter fun live => !preferredExists || e.preferred s live).argmax fun live =>
    e.numbers.getD live 0

/-- Control is complete: the first half of the step of `pump_events`, which drops the connections
that were there before the attempt. -/
def supersede (e : Endpoint) (w : ℕ) : Endpoint × List ℕ :=
  let ids := e.predecessors.getD w []
  let e := { e with phases := e.phases.insert w .ready, predecessors := e.predecessors.erase w }
  let stale := e.conns.filter fun live => live ∈ ids
  (stale.foldl forget e, stale)

/-- The second half, which closes all but one of those that are ready. -/
def losers (e : Endpoint) (s : Side) (w : ℕ) : List ℕ :=
  if w ∈ e.conns then
    match e.winner s with
    | none => []
    | some winner => e.ready.filter fun live => live ≠ winner
  else []

end Endpoint

/-- Both devices and the wires between them. -/
structure Network where
  /-- Who dialled each wire. -/
  wires : List Side := []
  /-- The wires a device has asked to close. -/
  closed : Finset ℕ := ∅
  /-- The two devices. -/
  ends : Side → Endpoint := fun _ => {}

namespace Network

/-- One device moves. -/
def put (g : Network) (s : Side) (e : Endpoint) : Network :=
  { g with ends := Function.update g.ends s e }

/-- What happens next. -/
inductive Label where
  /-- A device opens a transport to the other. -/
  | dial (s : Side)
  /-- `connect` is called with a transport. -/
  | call (s : Side) (w : ℕ)
  /-- `handle.connect`: the driver numbers the connection. -/
  | attach (s : Side) (w : ℕ)
  /-- `authenticated`: both drivers have answered. -/
  | authenticate (s : Side) (w : ℕ)
  /-- The `us` tree has been exchanged. -/
  | syncUs (s : Side) (w : ℕ)
  /-- The keyhive tree has been exchanged. -/
  | syncKeyhive (s : Side) (w : ℕ)
  /-- `ConnectionClosed`. -/
  | notice (s : Side) (w : ℕ)

/-- Control completes on one device. -/
def complete (g : Network) (s : Side) (w : ℕ) : Network :=
  let (e, stale) := (g.ends s).supersede w
  { g.put s e with closed := g.closed ∪ stale.toFinset ∪ (e.losers s w).toFinset }

/-- One step. -/
def step (g : Network) : Label → Network
  | .dial s => { g with wires := g.wires ++ [s] }
  | .call s w =>
    let e := g.ends s
    if w < g.wires.length ∧ w ∉ e.attempts ∧ w ∉ e.inherited then
      g.put s { e with attempts := e.attempts.insert w e.conns }
    else g
  | .attach s w =>
    let e := g.ends s
    if w ∈ e.attempts ∧ w ∉ e.numbers then
      g.put s { e with numbers := e.numbers.insert w e.next, next := e.next + 1 }
    else g
  | .authenticate s w =>
    let e := g.ends s
    match e.attempts[w]? with
    | none => g
    | some attempt =>
      if w ∈ (g.ends .low).numbers ∧ w ∈ (g.ends .high).numbers then
        g.put s (e.register w (g.wires[w]? = some s) attempt)
      else g
  | .syncUs s w =>
    let e := g.ends s
    if e.phases[w]? = some .awaitUs then
      g.put s { e with phases := e.phases.insert w .awaitKeyhive }
    else g
  | .syncKeyhive s w => if (g.ends s).phases[w]? = some .awaitKeyhive then g.complete s w else g
  | .notice s w =>
    if w ∈ g.closed ∧ w ∈ (g.ends s).conns then g.put s ((g.ends s).forget w) else g

/-- The step is bound to happen: a call that has a transport, an exchange on a wire that is open, a
close that is not noticed yet. A dial is nobody's duty, and a wire that is closed carries nothing
any more. -/
def Due (g : Network) : Label → Prop
  | .dial _ => False
  | .call s w => w < g.wires.length ∧ w ∉ (g.ends s).attempts ∧ w ∉ (g.ends s).inherited
  | .attach s w => w < g.wires.length ∧ w ∈ (g.ends s).attempts ∧ w ∉ (g.ends s).numbers
  | .authenticate s w => w < g.wires.length ∧ w ∉ g.closed ∧ w ∈ (g.ends s).attempts ∧
      w ∈ (g.ends .low).numbers ∧ w ∈ (g.ends .high).numbers
  | .syncUs s w => w < g.wires.length ∧ w ∉ g.closed ∧ (g.ends s).phases[w]? = some .awaitUs
  | .syncKeyhive s w =>
      w < g.wires.length ∧ w ∉ g.closed ∧ (g.ends s).phases[w]? = some .awaitKeyhive
  | .notice s w => w < g.wires.length ∧ w ∈ g.closed ∧ w ∈ (g.ends s).conns

/-- No message is in flight and no step is enabled. -/
def Quiet (g : Network) : Prop :=
  ∀ l, ¬ g.Due l

/-! ## The ranking of a device -/

/-- The preferred direction first, then the higher number. -/
def Outranks (g : Network) (s : Side) (w v : ℕ) : Prop :=
  g.wires[w]? = some .low ∧ g.wires[v]? = some .high ∨
    g.wires[w]? = g.wires[v]? ∧ (g.ends s).numbers.getD v 0 < (g.ends s).numbers.getD w 0

/-- On this device `w` goes before `v`: the attempt for `w` began with `v` registered or, without
such an attempt either way, `w` outranks it. -/
def Supersedes (g : Network) (s : Side) (w v : ℕ) : Prop :=
  ∃ older ∈ (g.ends s).inherited[v]?, ∃ newer ∈ (g.ends s).inherited[w]?,
    v ∈ newer ∨ w ∉ older ∧ g.Outranks s w v

/-- The devices do not rank the wires in a circle. -/
def Coherent (g : Network) : Prop :=
  ∃ rank : ℕ → ℕ, ∀ s w v, g.Supersedes s w v → rank v < rank w

end Network

/-! ## One device -/

namespace Endpoint

variable {e : Endpoint} {wires : List Side} {closed closed' : Finset ℕ} {s : Side} {v w : ℕ}

/-- What holds of one device, with the wires there are and those some device has asked to close. -/
structure Sound (wires : List Side) (closed : Finset ℕ) (s : Side) (e : Endpoint) : Prop where
  nodup : e.conns.Nodup
  known : ∀ w : ℕ, w ∈ e.attempts ∨ w ∈ e.inherited → w < wires.length
  numbered : ∀ w : ℕ, w ∈ e.inherited → w ∈ e.numbers
  fresh : ∀ w n : ℕ, e.numbers[w]? = some n → n < e.next
  distinct : ∀ v w n : ℕ, e.numbers[v]? = some n → e.numbers[w]? = some n → v = w
  unregistered : ∀ w : ℕ, w ∈ e.attempts → w ∉ e.inherited
  attempted : ∀ (w : ℕ) (l : List ℕ), e.attempts[w]? = some l → ∀ v ∈ l, v ∈ e.inherited
  earlier : ∀ (w : ℕ) (l : List ℕ), e.inherited[w]? = some l → w ∉ l ∧ ∀ v ∈ l, v ∈ e.inherited
  registered : ∀ w : ℕ, w ∈ e.conns → w ∈ e.inherited
  phased : ∀ w : ℕ, w ∈ e.phases ↔ w ∈ e.conns
  /-- Only a wire that is closed is ever forgotten. -/
  alive : ∀ w : ℕ, w ∈ e.inherited → w ∉ closed → w ∈ e.conns
  initiator : ∀ w : ℕ, w ∈ e.conns → (w ∈ e.initiators ↔ wires[w]? = some s)
  dialled : ∀ w : ℕ, w ∈ e.initiators → w ∈ e.conns
  subset : ∀ (w : ℕ) (l : List ℕ), e.inherited[w]? = some l → e.predecessors.getD w [] ⊆ l
  /-- Until control completes, the live predecessors are still on the list. -/
  pending : ∀ (w : ℕ) (l : List ℕ), e.inherited[w]? = some l → w ∈ e.conns →
    e.phases[w]? ≠ some .ready → ∀ v ∈ l, v ∈ e.conns → v ∈ e.predecessors.getD w []
  /-- Once it has, they are gone. -/
  done : ∀ (w : ℕ) (l : List ℕ), e.inherited[w]? = some l → e.phases[w]? = some .ready →
    ∀ v ∈ l, v ∉ e.conns
  /-- All but one of the ready connections are closed. -/
  sole : ∀ v w : ℕ, e.phases[v]? = some .ready → e.phases[w]? = some .ready → v ∉ closed →
    w ∉ closed → v = w

theorem sound_empty (s : Side) : Sound [] ∅ s {} := by
  constructor <;> simp

/-- More wires are closed. -/
theorem Sound.mono (h : e.Sound wires closed s) (hsub : closed ⊆ closed') :
    e.Sound wires closed' s :=
  { h with
    alive := fun w hw hopen => h.alive w hw fun hclosed => hopen (hsub hclosed)
    sole := fun v w hv hw hvopen hwopen =>
      h.sole v w hv hw (fun hclosed => hvopen (hsub hclosed)) fun hclosed => hwopen (hsub hclosed) }

/-- More wires are dialled. -/
theorem Sound.dial (h : e.Sound wires closed s) (dialer : Side) :
    e.Sound (wires ++ [dialer]) closed s :=
  { h with
    known := fun w hw => by
      rw [List.length_append]
      exact Nat.lt_add_right _ (h.known w hw)
    initiator := fun w hw => by
      rw [List.getElem?_append_left (h.known w (.inr (h.registered w hw)))]
      exact h.initiator w hw }

theorem Sound.call (h : e.Sound wires closed s) (hw : w < wires.length) (hnew : w ∉ e.inherited) :
    Sound wires closed s { e with attempts := e.attempts.insert w e.conns } :=
  { h with
    known := fun v hv => by
      rcases hv with hv | hv
      · rcases ExtTreeMap.mem_insert.1 hv with heq | hv
        · rwa [← LawfulEqOrd.eq_of_compare heq]
        · exact h.known v (.inl hv)
      · exact h.known v (.inr hv)
    unregistered := fun v hv => by
      rcases ExtTreeMap.mem_insert.1 hv with heq | hv
      · rwa [← LawfulEqOrd.eq_of_compare heq]
      · exact h.unregistered v hv
    attempted := fun v l hl => by
      rw [ExtTreeMap.getElem?_insert] at hl
      split at hl
      · cases hl
        exact h.registered
      · exact h.attempted v l hl }

theorem Sound.attach (h : e.Sound wires closed s) (w : ℕ) :
    Sound wires closed s { e with numbers := e.numbers.insert w e.next, next := e.next + 1 } :=
  { h with
    numbered := fun v hv => ExtTreeMap.mem_insert.2 (.inr (h.numbered v hv))
    fresh := fun v n hn => by
      rw [ExtTreeMap.getElem?_insert] at hn
      split at hn
      · cases hn
        exact Nat.lt_succ_self _
      · exact Nat.lt_succ_of_lt (h.fresh v n hn)
    distinct := fun u v n hu hv => by
      rw [ExtTreeMap.getElem?_insert] at hu hv
      split at hu
      next hwu =>
        split at hv
        next hwv =>
          rw [← LawfulEqOrd.eq_of_compare hwu, LawfulEqOrd.eq_of_compare hwv]
        next =>
          cases hu
          exact absurd (h.fresh v _ hv) (lt_irrefl _)
      next =>
        split at hv
        next =>
          cases hv
          exact absurd (h.fresh u _ hu) (lt_irrefl _)
        next => exact h.distinct u v n hu hv }

theorem Sound.syncUs (h : e.Sound wires closed s) (hphase : e.phases[w]? = some .awaitUs) :
    Sound wires closed s { e with phases := e.phases.insert w .awaitKeyhive } := by
  have hmem : w ∈ e.phases := by
    rw [← ExtTreeMap.isSome_getElem?_iff_mem, hphase]
    rfl
  have hready {v : ℕ} (hv : (e.phases.insert w .awaitKeyhive)[v]? = some ControlPhase.ready) :
      e.phases[v]? = some .ready := by
    rw [ExtTreeMap.getElem?_insert] at hv
    split at hv
    · cases hv
    · exact hv
  refine { h with
    phased := fun v => ?_, pending := fun v l hl hv hnot => ?_, done := ?_, sole := ?_ }
  · rw [ExtTreeMap.mem_insert, h.phased v]
    constructor
    · rintro (heq | hv)
      · rw [← LawfulEqOrd.eq_of_compare heq]
        exact (h.phased w).1 hmem
      · exact hv
    · exact .inr
  · refine h.pending v l hl hv fun hbefore => ?_
    by_cases hwv : w = v
    · subst hwv
      rw [hphase] at hbefore
      cases hbefore
    · exact hnot (by rw [ExtTreeMap.getElem?_insert, if_neg (by simpa using hwv), hbefore])
  · exact fun v l hl hv => h.done v l hl (hready hv)
  · exact fun u v hu hv => h.sole u v (hready hu) (hready hv)

/-! ### What registering a connection changes -/

section Register

variable {outbound : Bool} {attempt : List ℕ}

theorem mem_conns_register : v ∈ (e.register w outbound attempt).conns ↔ v ∈ e.conns ∨ v = w := by
  simp [register]

theorem mem_inherited_register :
    v ∈ (e.register w outbound attempt).inherited ↔ v = w ∨ v ∈ e.inherited := by
  rw [register, ExtTreeMap.mem_insert, LawfulEqOrd.compare_eq_iff_eq, eq_comm]

theorem mem_phases_register :
    v ∈ (e.register w outbound attempt).phases ↔ v = w ∨ v ∈ e.phases := by
  rw [register, ExtTreeMap.mem_insert, LawfulEqOrd.compare_eq_iff_eq, eq_comm]

theorem mem_initiators_register :
    v ∈ (e.register w outbound attempt).initiators ↔ v ∈ e.initiators ∨ v = w ∧ outbound := by
  rw [register]
  cases outbound with
  | false => simp
  | true => simp [or_comm]

theorem phases_register_of_ne (hne : v ≠ w) :
    (e.register w outbound attempt).phases[v]? = e.phases[v]? := by
  rw [register, ExtTreeMap.getElem?_insert, if_neg (by simpa using hne.symm)]

theorem phases_register_self :
    (e.register w outbound attempt).phases[w]? = some .awaitUs := by
  rw [register, ExtTreeMap.getElem?_insert_self]

theorem inherited_register_of_ne (hne : v ≠ w) :
    (e.register w outbound attempt).inherited[v]? = e.inherited[v]? := by
  rw [register, ExtTreeMap.getElem?_insert, if_neg (by simpa using hne.symm)]

/-- The transport itself is no predecessor of its own attempt. -/
theorem inherited_register_self (hself : w ∉ attempt) :
    (e.register w outbound attempt).inherited[w]? =
      some (e.conns.filter fun existing => existing ∈ attempt) := by
  rw [register, ExtTreeMap.getElem?_insert_self, List.filter_append]
  simp [hself]

theorem predecessors_register_of_ne (hne : v ≠ w) :
    (e.register w outbound attempt).predecessors.getD v [] = e.predecessors.getD v [] := by
  rw [register, ExtTreeMap.getD_eq_getD_getElem?, ExtTreeMap.getElem?_insert,
    if_neg (by simpa using hne.symm), ← ExtTreeMap.getD_eq_getD_getElem?]

theorem predecessors_register_self (hself : w ∉ attempt) :
    (e.register w outbound attempt).predecessors.getD w [] =
      e.conns.filter fun existing => existing ∈ attempt := by
  rw [register, ExtTreeMap.getD_insert_self, List.filter_append]
  simp [hself]

end Register

theorem Sound.register (h : e.Sound wires closed s) {attempt : List ℕ}
    (hattempt : e.attempts[w]? = some attempt) (hnumber : w ∈ e.numbers) :
    Sound wires closed s (e.register w (wires[w]? = some s) attempt) := by
  have hmem : w ∈ e.attempts := by
    rw [← ExtTreeMap.isSome_getElem?_iff_mem, hattempt]
    rfl
  have hnew : w ∉ e.inherited := h.unregistered w hmem
  have hconns : w ∉ e.conns := fun hw => hnew (h.registered w hw)
  have hpast {v : ℕ} (hv : v ∈ e.inherited) : v ≠ w := fun heq => hnew (heq ▸ hv)
  have hself : w ∉ attempt := fun hw => hnew (h.attempted w attempt hattempt w hw)
  refine
    { nodup := ?nodup, known := ?known, numbered := ?numbered, fresh := h.fresh,
      distinct := h.distinct, unregistered := ?unregistered, attempted := ?attempted,
      earlier := ?earlier, registered := ?registered, phased := ?phased, alive := ?alive,
      initiator := ?initiator, dialled := ?dialled, subset := ?subset, pending := ?pending,
      done := ?done, sole := ?sole }
  case nodup =>
    refine List.Nodup.append h.nodup (List.nodup_singleton w) fun v hv hvw => ?_
    rw [List.mem_singleton.1 hvw] at hv
    exact hconns hv
  case known =>
    intro v hv
    rcases hv with hv | hv
    · exact h.known v (.inl (ExtTreeMap.mem_of_mem_erase hv))
    · rcases mem_inherited_register.1 hv with rfl | hv
      · exact h.known v (.inl hmem)
      · exact h.known v (.inr hv)
  case numbered =>
    intro v hv
    rcases mem_inherited_register.1 hv with rfl | hv
    · exact hnumber
    · exact h.numbered v hv
  case unregistered =>
    intro v hv hv'
    obtain ⟨hne, hv⟩ := ExtTreeMap.mem_erase.1 hv
    rcases mem_inherited_register.1 hv' with rfl | hv'
    · exact hne compare_self
    · exact h.unregistered v hv hv'
  case attempted =>
    intro v l hl u hu
    rw [Endpoint.register, ExtTreeMap.getElem?_erase] at hl
    split at hl
    · cases hl
    · exact mem_inherited_register.2 (.inr (h.attempted v l hl u hu))
  case earlier =>
    intro v l hl
    by_cases hvw : v = w
    · subst hvw
      rw [inherited_register_self hself] at hl
      cases hl
      refine ⟨fun hv => hconns (List.mem_filter.1 hv).1, fun u hu => ?_⟩
      exact mem_inherited_register.2 (.inr (h.registered u (List.mem_filter.1 hu).1))
    · rw [inherited_register_of_ne hvw] at hl
      obtain ⟨hnot, hall⟩ := h.earlier v l hl
      exact ⟨hnot, fun u hu => mem_inherited_register.2 (.inr (hall u hu))⟩
  case registered =>
    intro v hv
    rcases mem_conns_register.1 hv with hv | rfl
    · exact mem_inherited_register.2 (.inr (h.registered v hv))
    · exact mem_inherited_register.2 (.inl rfl)
  case phased =>
    intro v
    rw [mem_phases_register, mem_conns_register, h.phased v, or_comm]
  case alive =>
    intro v hv hopen
    rcases mem_inherited_register.1 hv with rfl | hv
    · exact mem_conns_register.2 (.inr rfl)
    · exact mem_conns_register.2 (.inl (h.alive v hv hopen))
  case initiator =>
    intro v hv
    rw [mem_initiators_register, decide_eq_true_iff]
    rcases mem_conns_register.1 hv with hv | rfl
    · have hne := hpast (h.registered v hv)
      simp [hne, h.initiator v hv]
    · exact ⟨fun hw => hw.elim (fun hw => absurd (h.dialled v hw) hconns) (·.2),
        fun hw => .inr ⟨rfl, hw⟩⟩
  case dialled =>
    intro v hv
    rcases mem_initiators_register.1 hv with hv | ⟨rfl, -⟩
    · exact mem_conns_register.2 (.inl (h.dialled v hv))
    · exact mem_conns_register.2 (.inr rfl)
  case subset =>
    intro v l hl
    by_cases hvw : v = w
    · subst hvw
      rw [inherited_register_self hself] at hl
      cases hl
      rw [predecessors_register_self hself]
      exact List.Subset.refl _
    · rw [inherited_register_of_ne hvw] at hl
      rw [predecessors_register_of_ne hvw]
      exact h.subset v l hl
  case pending =>
    intro v l hl hv hnot u hu hu'
    by_cases hvw : v = w
    · subst hvw
      rw [inherited_register_self hself] at hl
      cases hl
      rwa [predecessors_register_self hself]
    · rw [inherited_register_of_ne hvw] at hl
      rw [phases_register_of_ne hvw] at hnot
      rw [predecessors_register_of_ne hvw]
      have hv := (mem_conns_register.1 hv).resolve_right hvw
      have hu' := (mem_conns_register.1 hu').resolve_right (hpast ((h.earlier v l hl).2 u hu))
      exact h.pending v l hl hv hnot u hu hu'
  case done =>
    intro v l hl hready u hu hu'
    by_cases hvw : v = w
    · subst hvw
      rw [phases_register_self] at hready
      cases hready
    · rw [inherited_register_of_ne hvw] at hl
      rw [phases_register_of_ne hvw] at hready
      have hne := hpast ((h.earlier v l hl).2 u hu)
      exact h.done v l hl hready u hu ((mem_conns_register.1 hu').resolve_right hne)
  case sole =>
    intro u v hu hv
    have hold {x : ℕ} (hx : (e.register w (wires[w]? = some s) attempt).phases[x]? = some .ready) :
        e.phases[x]? = some .ready := by
      by_cases hxw : x = w
      · subst hxw
        rw [phases_register_self] at hx
        cases hx
      · rwa [phases_register_of_ne hxw] at hx
    exact h.sole u v (hold hu) (hold hv)

/-- A wire that is closed is forgotten. -/
theorem Sound.forget (h : e.Sound wires closed s) (hw : w ∈ closed) :
    (e.forget w).Sound wires closed s := by
  have hconns {v : ℕ} : v ∈ (e.forget w).conns ↔ v ∈ e.conns ∧ v ≠ w := by
    simp [Endpoint.forget]
  have hphase {v : ℕ} (hne : v ≠ w) : (e.forget w).phases[v]? = e.phases[v]? := by
    rw [Endpoint.forget, ExtTreeMap.getElem?_erase, if_neg (by simpa using hne.symm)]
  have hready {v : ℕ} (hv : (e.forget w).phases[v]? = some .ready) :
      e.phases[v]? = some .ready := by
    rw [Endpoint.forget, ExtTreeMap.getElem?_erase] at hv
    split at hv
    · cases hv
    · exact hv
  have hpredecessors {v : ℕ} (hne : v ≠ w) : (e.forget w).predecessors.getD v [] =
      (e.predecessors.getD v []).filter fun id => id ≠ w := by
    rw [Endpoint.forget, ExtTreeMap.getD_eq_getD_getElem?, ExtTreeMap.getElem?_map,
      ExtTreeMap.getElem?_erase, if_neg (by simpa using hne.symm), ExtTreeMap.getD_eq_getD_getElem?]
    cases e.predecessors[v]? <;> rfl
  refine { h with
    nodup := h.nodup.filter _, registered := ?_, phased := ?_, alive := ?_, initiator := ?_,
    dialled := ?_, subset := ?_, pending := ?_, done := ?_, sole := ?_ }
  · exact fun v hv => h.registered v (hconns.1 hv).1
  · intro v
    rw [hconns, ← h.phased v, Endpoint.forget, ExtTreeMap.mem_erase, ne_eq,
      LawfulEqOrd.compare_eq_iff_eq]
    exact ⟨fun hv => ⟨hv.2, fun heq => hv.1 heq.symm⟩, fun hv => ⟨fun heq => hv.2 heq.symm, hv.1⟩⟩
  · exact fun v hv hopen => hconns.2 ⟨h.alive v hv hopen, fun heq => hopen (heq ▸ hw)⟩
  · intro v hv
    obtain ⟨hv, hne⟩ := hconns.1 hv
    rw [← h.initiator v hv, Endpoint.forget, Finset.mem_erase]
    exact and_iff_right hne
  · intro v hv
    obtain ⟨hne, hv⟩ := Finset.mem_erase.1 hv
    exact hconns.2 ⟨h.dialled v hv, hne⟩
  · intro v l hl u hu
    by_cases hvw : v = w
    · subst hvw
      rw [Endpoint.forget, ExtTreeMap.getD_eq_getD_getElem?, ExtTreeMap.getElem?_map,
        ExtTreeMap.getElem?_erase_self] at hu
      cases hu
    · rw [hpredecessors hvw] at hu
      exact h.subset v l hl (List.mem_filter.1 hu).1
  · intro v l hl hv hnot u hu hu'
    obtain ⟨hv, hne⟩ := hconns.1 hv
    obtain ⟨hu', hne'⟩ := hconns.1 hu'
    rw [hphase hne] at hnot
    rw [hpredecessors hne]
    exact List.mem_filter.2 ⟨h.pending v l hl hv hnot u hu hu', by simpa using hne'⟩
  · exact fun v l hl hv u hu hu' => h.done v l hl (hready hv) u hu (hconns.1 hu').1
  · exact fun u v hu hv => h.sole u v (hready hu) (hready hv)

/-! ### Completing control -/

/-- The connection is ready and its list is taken. -/
def mark (e : Endpoint) (w : ℕ) : Endpoint :=
  { e with phases := e.phases.insert w .ready, predecessors := e.predecessors.erase w }

/-- Forgetting another connection does not depend on it. -/
theorem forget_mark (e : Endpoint) (hne : v ≠ w) : (e.mark w).forget v = (e.forget v).mark w := by
  have hphases : (e.phases.insert w ControlPhase.ready).erase v =
      (e.phases.erase v).insert w .ready := by
    ext u
    simp only [ExtTreeMap.getElem?_erase, ExtTreeMap.getElem?_insert, LawfulEqOrd.compare_eq_iff_eq]
    by_cases hvu : v = u
    · subst hvu
      simp [hne.symm]
    · simp [hvu]
  have hpredecessors : ((e.predecessors.erase w).erase v).map
        (fun _ ids => ids.filter fun id => id ≠ v) =
      ((e.predecessors.erase v).map fun _ ids => ids.filter fun id => id ≠ v).erase w := by
    ext u
    simp only [ExtTreeMap.getElem?_erase, ExtTreeMap.getElem?_map]
    by_cases hvu : compare v u = .eq <;> by_cases hwu : compare w u = .eq <;> simp [hvu, hwu]
  simp only [forget, mark, hphases, hpredecessors]

theorem foldl_forget_mark (e : Endpoint) {stale : List ℕ} (hw : w ∉ stale) :
    stale.foldl forget (e.mark w) = (stale.foldl forget e).mark w := by
  induction stale generalizing e with
  | nil => rfl
  | cons v stale ih =>
    obtain ⟨hne, hw⟩ := not_or.1 (List.mem_cons.not.1 hw)
    rw [List.foldl_cons, List.foldl_cons, forget_mark e (Ne.symm hne), ih (e.forget v) hw]

theorem Sound.foldl_forget (h : e.Sound wires closed s) {stale : List ℕ}
    (hstale : ∀ v ∈ stale, v ∈ closed) :
    (stale.foldl Endpoint.forget e).Sound wires closed s := by
  induction stale generalizing e with
  | nil => exact h
  | cons v stale ih =>
    exact ih (h.forget (hstale v (List.mem_cons_self ..))) fun u hu =>
      hstale u (List.mem_cons_of_mem _ hu)

theorem mem_conns_foldl_forget (e : Endpoint) (stale : List ℕ) :
    v ∈ (stale.foldl forget e).conns ↔ v ∈ e.conns ∧ v ∉ stale := by
  induction stale generalizing e with
  | nil => simp
  | cons u stale ih =>
    rw [List.foldl_cons, ih]
    simp [forget, and_assoc]

theorem inherited_foldl_forget (e : Endpoint) (stale : List ℕ) :
    (stale.foldl forget e).inherited = e.inherited := by
  induction stale generalizing e with
  | nil => rfl
  | cons u stale ih => rw [List.foldl_cons, ih, forget]

theorem numbers_foldl_forget (e : Endpoint) (stale : List ℕ) :
    (stale.foldl forget e).numbers = e.numbers := by
  induction stale generalizing e with
  | nil => rfl
  | cons u stale ih => rw [List.foldl_cons, ih, forget]

/-- A connection whose predecessors are gone becomes ready, once every other that is ready is
closed. -/
theorem Sound.mark (h : e.Sound wires closed s) (hw : w ∈ e.conns)
    (hgone : ∀ l, e.inherited[w]? = some l → ∀ v ∈ l, v ∉ e.conns)
    (hsole : ∀ u v, (e.mark w).phases[u]? = some .ready → (e.mark w).phases[v]? = some .ready →
      u ∉ closed → v ∉ closed → u = v) : (e.mark w).Sound wires closed s := by
  have hphase {v : ℕ} (hne : v ≠ w) : (e.mark w).phases[v]? = e.phases[v]? := by
    rw [Endpoint.mark, ExtTreeMap.getElem?_insert, if_neg (by simpa using hne.symm)]
  have hpredecessors {v : ℕ} (hne : v ≠ w) :
      (e.mark w).predecessors.getD v [] = e.predecessors.getD v [] := by
    rw [Endpoint.mark, ExtTreeMap.getD_eq_getD_getElem?, ExtTreeMap.getElem?_erase,
      if_neg (by simpa using hne.symm), ExtTreeMap.getD_eq_getD_getElem?]
  refine { h with phased := ?_, subset := ?_, pending := ?_, done := ?_, sole := hsole }
  · intro v
    rw [Endpoint.mark, ExtTreeMap.mem_insert, h.phased v, LawfulEqOrd.compare_eq_iff_eq]
    exact ⟨fun hv => hv.elim (fun heq => heq ▸ hw) id, .inr⟩
  · intro v l hl u hu
    by_cases hvw : v = w
    · subst hvw
      rw [Endpoint.mark, ExtTreeMap.getD_eq_getD_getElem?, ExtTreeMap.getElem?_erase_self] at hu
      cases hu
    · rw [hpredecessors hvw] at hu
      exact h.subset v l hl hu
  · intro v l hl hv hnot u hu hu'
    have hvw : v ≠ w := by
      rintro rfl
      exact hnot (by rw [Endpoint.mark, ExtTreeMap.getElem?_insert_self])
    rw [hphase hvw] at hnot
    rw [hpredecessors hvw]
    exact h.pending v l hl hv hnot u hu hu'
  · intro v l hl hready
    by_cases hvw : v = w
    · subst hvw
      exact hgone l hl
    · rw [hphase hvw] at hready
      exact h.done v l hl hready

theorem Sound.mem_conns (h : e.Sound wires closed s) {phase : ControlPhase}
    (hphase : e.phases[w]? = some phase) : w ∈ e.conns := by
  rw [← h.phased w, ← ExtTreeMap.isSome_getElem?_iff_mem, hphase]
  rfl

theorem mem_ready : w ∈ e.ready ↔ w ∈ e.conns ∧ e.phases[w]? = some .ready := by
  simp [ready]

/-- Among ready connections there is a winner. -/
theorem exists_winner (s : Side) (hw : w ∈ e.ready) : ∃ k, e.winner s = some k := by
  rw [← Option.ne_none_iff_exists', winner, Ne, List.argmax_eq_none]
  intro hnil
  by_cases hany : e.ready.any fun live => e.preferred s live
  · obtain ⟨v, hv, hpreferred⟩ := List.any_eq_true.1 hany
    exact List.not_mem_nil (hnil ▸ List.mem_filter.2 ⟨hv, by simp [hpreferred]⟩)
  · exact List.not_mem_nil (hnil ▸ List.mem_filter.2 ⟨hw, by simp [hany]⟩)

/-- Both devices prefer the wires the device with the smaller key has dialled. -/
theorem Sound.preferred_iff (h : e.Sound wires closed s) (hw : w ∈ e.conns) :
    e.preferred s w ↔ wires[w]? = some .low := by
  have hlength := h.known w (.inr (h.registered w hw))
  rw [preferred, beq_iff_eq, decide_eq_decide, h.initiator w hw]
  cases s with
  | low => simp
  | high =>
    obtain ⟨dialer, hdialer⟩ : ∃ dialer, wires[w]? = some dialer :=
      ⟨_, List.getElem?_eq_getElem hlength⟩
    rw [hdialer]
    cases dialer <;> simp

/-- What the winner has over any other ready connection. -/
theorem Sound.outranks (h : e.Sound wires closed s) {k : ℕ} (hk : k ∈ e.winner s)
    (hw : w ∈ e.ready) (hne : w ≠ k) : k ∈ e.ready ∧
      (wires[k]? = some .low ∧ wires[w]? = some .high ∨
        wires[k]? = wires[w]? ∧ e.numbers.getD w 0 < e.numbers.getD k 0) := by
  rw [winner] at hk
  have hmem := List.argmax_mem hk
  obtain ⟨hready, hchosen⟩ := List.mem_filter.1 hmem
  refine ⟨hready, ?_⟩
  have hdirection {x : ℕ} (hx : x ∈ e.ready) :
      wires[x]? = some .low ∨ wires[x]? = some .high := by
    have hlength := h.known x (.inr (h.registered x (mem_ready.1 hx).1))
    rw [List.getElem?_eq_getElem hlength]
    cases wires[x] <;> simp
  have hnumber (hcandidate : w ∈ e.ready.filter fun live =>
      !(e.ready.any fun live => e.preferred s live) || e.preferred s live) :
      e.numbers.getD w 0 < e.numbers.getD k 0 := by
    refine Nat.lt_of_le_of_ne (List.le_of_mem_argmax hcandidate hk) fun heq => hne ?_
    have hsome {x : ℕ} (hx : x ∈ e.ready) : e.numbers[x]? = some (e.numbers.getD x 0) := by
      have hnumbered := h.numbered x (h.registered x (mem_ready.1 hx).1)
      rw [ExtTreeMap.getElem?_eq_some_getElem hnumbered, ExtTreeMap.getD_eq_getD_getElem?,
        ExtTreeMap.getElem?_eq_some_getElem hnumbered]
      rfl
    exact h.distinct w k _ (hsome hw) (heq ▸ hsome hready)
  by_cases hpreferred : e.preferred s w
  · -- then the winner runs in the preferred direction too, and the number decides
    have hany : e.ready.any fun live => e.preferred s live := List.any_eq_true.2 ⟨w, hw, hpreferred⟩
    rw [hany] at hchosen
    have hlow := (h.preferred_iff (mem_ready.1 hw).1).1 hpreferred
    have hlow' := (h.preferred_iff (mem_ready.1 hready).1).1 (by simpa using hchosen)
    exact .inr ⟨hlow'.trans hlow.symm, hnumber (List.mem_filter.2 ⟨hw, by simp [hpreferred]⟩)⟩
  · have hhigh : wires[w]? = some .high :=
      (hdirection hw).resolve_left fun hlow =>
        hpreferred ((h.preferred_iff (mem_ready.1 hw).1).2 hlow)
    rcases hdirection hready with hlow | hhigh'
    · exact .inl ⟨hlow, hhigh⟩
    · -- nothing ready runs in the preferred direction, and the number decides
      have hnot : ¬ e.preferred s k := fun hk =>
        absurd ((h.preferred_iff (mem_ready.1 hready).1).1 hk) (by simp [hhigh'])
      have hnone : (e.ready.any fun live => e.preferred s live) = false := by
        simpa [hnot] using hchosen
      exact .inr ⟨hhigh'.trans hhigh.symm, hnumber (List.mem_filter.2 ⟨hw, by simp [hnone]⟩)⟩

end Endpoint

/-! ## Both devices -/

namespace Network

variable {g g' : Network} {s : Side} {v w : ℕ}

@[simp]
theorem wires_put (g : Network) (s : Side) (e : Endpoint) : (g.put s e).wires = g.wires := rfl

@[simp]
theorem closed_put (g : Network) (s : Side) (e : Endpoint) : (g.put s e).closed = g.closed := rfl

@[simp]
theorem ends_put_self (g : Network) (s : Side) (e : Endpoint) : (g.put s e).ends s = e :=
  Function.update_self ..

theorem ends_put_of_ne (g : Network) {s s' : Side} (h : s' ≠ s) (e : Endpoint) :
    (g.put s e).ends s' = g.ends s' :=
  Function.update_of_ne h ..

/-- What both devices and the wires between them keep to. -/
structure Tracked (g : Network) : Prop where
  sound : ∀ s, (g.ends s).Sound g.wires g.closed s
  /-- A wire is closed only in favour of one that supersedes it on the device that closes it. -/
  favoured : ∀ w ∈ g.closed, ∃ s v, g.Supersedes s v w

/-- The ranking of a device never changes its mind about two wires. -/
theorem Supersedes.mono (h : g.Supersedes s w v)
    (hinherited : ∀ (x : ℕ) (l : List ℕ), (g.ends s).inherited[x]? = some l →
      (g'.ends s).inherited[x]? = some l ∧ (g'.ends s).numbers[x]? = (g.ends s).numbers[x]? ∧
        g'.wires[x]? = g.wires[x]?) : g'.Supersedes s w v := by
  obtain ⟨older, hv, newer, hw, hrank⟩ := h
  obtain ⟨hv', hnv, hwv⟩ := hinherited v older hv
  obtain ⟨hw', hnw, hww⟩ := hinherited w newer hw
  refine ⟨older, hv', newer, hw', hrank.imp_right fun ⟨hnot, houtranks⟩ => ⟨hnot, ?_⟩⟩
  rw [Outranks, hwv, hww, ExtTreeMap.getD_eq_getD_getElem?, ExtTreeMap.getD_eq_getD_getElem?, hnv,
    hnw, ← ExtTreeMap.getD_eq_getD_getElem?, ← ExtTreeMap.getD_eq_getD_getElem?]
  exact houtranks

/-- One device moves and no wire is closed. -/
theorem Tracked.put (h : g.Tracked) {e : Endpoint} (he : e.Sound g.wires g.closed s)
    (hinherited : ∀ (x : ℕ) (l : List ℕ), (g.ends s).inherited[x]? = some l →
      e.inherited[x]? = some l ∧ e.numbers[x]? = (g.ends s).numbers[x]?) : (g.put s e).Tracked := by
  constructor
  · intro s'
    by_cases hs : s' = s
    · subst hs
      rw [ends_put_self]
      exact he
    · rw [ends_put_of_ne g hs]
      exact h.sound s'
  · intro x hx
    obtain ⟨s', v, hsupersedes⟩ := h.favoured x hx
    refine ⟨s', v, hsupersedes.mono fun y l hl => ?_⟩
    by_cases hs : s' = s
    · subst hs
      rw [ends_put_self]
      exact ⟨(hinherited y l hl).1, (hinherited y l hl).2, rfl⟩
    · rw [ends_put_of_ne g hs]
      exact ⟨hl, rfl, rfl⟩

theorem Tracked.complete (h : g.Tracked) (hphase : (g.ends s).phases[w]? = some .awaitKeyhive) :
    (g.complete s w).Tracked := by
  obtain ⟨l, hl⟩ : ∃ l, (g.ends s).inherited[w]? = some l := by
    rw [← Option.isSome_iff_exists, ExtTreeMap.isSome_getElem?_iff_mem]
    exact (h.sound s).registered w ((h.sound s).mem_conns hphase)
  obtain ⟨stale, hstale⟩ : ∃ stale, stale =
    (g.ends s).conns.filter fun live => live ∈ (g.ends s).predecessors.getD w [] := ⟨_, rfl⟩
  have hsub {x : ℕ} (hx : x ∈ stale) : x ∈ l ∧ x ∈ (g.ends s).conns := by
    rw [hstale, List.mem_filter, decide_eq_true_iff] at hx
    exact ⟨(h.sound s).subset w l hl hx.2, hx.1⟩
  have hself : w ∉ stale := fun hw => ((h.sound s).earlier w l hl).1 (hsub hw).1
  -- the list is gone through first, and the phase is set after it
  obtain ⟨e, he⟩ : ∃ e, e = (stale.foldl Endpoint.forget (g.ends s)).mark w := ⟨_, rfl⟩
  have hsupersede : (g.ends s).supersede w = (e, stale) := by
    rw [he, ← Endpoint.foldl_forget_mark _ hself, hstale]
    rfl
  obtain ⟨closed, hclosed⟩ : ∃ closed,
    closed = g.closed ∪ stale.toFinset ∪ (e.losers s w).toFinset := ⟨_, rfl⟩
  have hcomplete : g.complete s w = { g.put s e with closed } := by
    simp only [Network.complete, hsupersede, hclosed]
  have hgrows : g.closed ⊆ closed := by
    rw [hclosed, Finset.union_assoc]
    exact Finset.subset_union_left
  have hforgotten : (stale.foldl Endpoint.forget (g.ends s)).Sound g.wires closed s :=
    ((h.sound s).mono hgrows).foldl_forget fun x hx => by simp [hclosed, hx]
  have hw : w ∈ (stale.foldl Endpoint.forget (g.ends s)).conns :=
    (Endpoint.mem_conns_foldl_forget _ _).2 ⟨(h.sound s).mem_conns hphase, hself⟩
  have hready {x : ℕ} (hx : e.phases[x]? = some .ready) : x ∈ e.ready := by
    refine Endpoint.mem_ready.2 ⟨?_, hx⟩
    rw [he] at hx ⊢
    by_cases hxw : x = w
    · exact hxw ▸ hw
    · rw [Endpoint.mark, ExtTreeMap.getElem?_insert, if_neg (by simpa using Ne.symm hxw)] at hx
      exact hforgotten.mem_conns hx
  have hconns : w ∈ e.conns := by
    rw [he]
    exact hw
  obtain ⟨k, hk⟩ := Endpoint.exists_winner s
    (Endpoint.mem_ready.2 ⟨hconns, by rw [he, Endpoint.mark, ExtTreeMap.getElem?_insert_self]⟩)
  have hlosers : e.losers s w = e.ready.filter fun live => live ≠ k := by
    simp [Endpoint.losers, hconns, hk]
  have hwinner {x : ℕ} (hx : e.phases[x]? = some .ready) (hopen : x ∉ closed) : x = k := by
    by_contra hne
    refine hopen ?_
    rw [hclosed, hlosers]
    simp [hready hx, hne]
  have hsound : e.Sound g.wires closed s := by
    rw [he]
    refine hforgotten.mark hw (fun l' hl' x hx hlive => ?_) ?_
    · rw [Endpoint.inherited_foldl_forget, hl] at hl'
      cases hl'
      obtain ⟨hlive, hnot⟩ := (Endpoint.mem_conns_foldl_forget _ _).1 hlive
      refine hnot ?_
      rw [hstale, List.mem_filter, decide_eq_true_iff]
      refine ⟨hlive, (h.sound s).pending w l hl ((h.sound s).mem_conns hphase) ?_ x hx hlive⟩
      rw [hphase]
      simp
    · rw [← he]
      exact fun u v hu hv hu' hv' => (hwinner hu hu').trans (hwinner hv hv').symm
  have hinherited : e.inherited = (g.ends s).inherited := by
    rw [he, Endpoint.mark, Endpoint.inherited_foldl_forget]
  have hnumbers : e.numbers = (g.ends s).numbers := by
    rw [he, Endpoint.mark, Endpoint.numbers_foldl_forget]
  rw [hcomplete]
  constructor
  · intro s'
    by_cases hs : s' = s
    · subst hs
      show ((g.put s' e).ends s').Sound g.wires closed s'
      rw [ends_put_self]
      exact hsound
    · show ((g.put s e).ends s').Sound g.wires closed s'
      rw [ends_put_of_ne g hs]
      exact (h.sound s').mono hgrows
  · intro x hx
    have hends : ({ g.put s e with closed } : Network).ends s = e := ends_put_self g s e
    have hregistered {y : ℕ} (hy : y ∈ e.conns) : ∃ older, e.inherited[y]? = some older := by
      rw [← Option.isSome_iff_exists, ExtTreeMap.isSome_getElem?_iff_mem]
      exact hsound.registered y hy
    have hx : x ∈ g.closed ∪ stale.toFinset ∪ (e.losers s w).toFinset := hclosed ▸ hx
    simp only [Finset.mem_union, List.mem_toFinset] at hx
    rcases hx with (hx | hx) | hx
    · -- closed before
      obtain ⟨s', v, hsupersedes⟩ := h.favoured x hx
      refine ⟨s', v, hsupersedes.mono fun y older holder => ?_⟩
      by_cases hs : s' = s
      · subst hs
        rw [hends, hinherited, hnumbers]
        exact ⟨holder, rfl, rfl⟩
      · exact ⟨by rw [← holder]; exact congrArg (·.inherited[y]?) (ends_put_of_ne g hs e),
          congrArg (·.numbers[y]?) (ends_put_of_ne g hs e), rfl⟩
    · -- it was there when the attempt began
      obtain ⟨hxl, hlive⟩ := hsub hx
      obtain ⟨older, holder⟩ : ∃ older, (g.ends s).inherited[x]? = some older := by
        rw [← Option.isSome_iff_exists, ExtTreeMap.isSome_getElem?_iff_mem]
        exact (h.sound s).registered x hlive
      refine ⟨s, w, older, ?_, l, ?_, .inl hxl⟩
      · rw [hends, hinherited, holder, Option.mem_def]
      · rw [hends, hinherited, hl, Option.mem_def]
    · -- it lost to the winner
      rw [hlosers, List.mem_filter, decide_eq_true_iff] at hx
      obtain ⟨hkready, houtranks⟩ := hsound.outranks hk hx.1 hx.2
      obtain ⟨hxlive, hxready⟩ := Endpoint.mem_ready.1 hx.1
      obtain ⟨older, holder⟩ := hregistered hxlive
      obtain ⟨newer, hnewer⟩ := hregistered (Endpoint.mem_ready.1 hkready).1
      refine ⟨s, k, older, by rw [hends, holder, Option.mem_def], newer,
        by rw [hends, hnewer, Option.mem_def], .inr ⟨?_, ?_⟩⟩
      · exact fun hkx => hsound.done x older holder hxready k hkx (Endpoint.mem_ready.1 hkready).1
      · rw [Outranks, hends]
        exact houtranks

/-- A step keeps to it. -/
theorem tracked_step (g : Network) (l : Label) (h : g.Tracked) : (g.step l).Tracked := by
  cases l with
  | dial dialer =>
    refine ⟨fun s => (h.sound s).dial dialer, fun x hx => ?_⟩
    obtain ⟨s, v, hsupersedes⟩ := h.favoured x hx
    refine ⟨s, v, hsupersedes.mono fun y l hl => ⟨hl, rfl, ?_⟩⟩
    have hy : y ∈ (g.ends s).inherited := by
      rw [← ExtTreeMap.isSome_getElem?_iff_mem, hl]
      rfl
    exact List.getElem?_append_left ((h.sound s).known y (.inr hy))
  | call s w =>
    simp only [step]
    split
    next hnew => exact h.put ((h.sound s).call hnew.1 hnew.2.2) fun x l hl => ⟨hl, rfl⟩
    next => exact h
  | attach s w =>
    simp only [step]
    split
    next hnew =>
      refine h.put ((h.sound s).attach w) fun x l hl => ⟨hl, ?_⟩
      have hx : x ∈ (g.ends s).inherited := by
        rw [← ExtTreeMap.isSome_getElem?_iff_mem, hl]
        rfl
      have hne : w ≠ x := fun heq => hnew.2 (heq ▸ (h.sound s).numbered x hx)
      rw [ExtTreeMap.getElem?_insert, if_neg (by simpa using hne)]
    next => exact h
  | authenticate s w =>
    simp only [step]
    split
    next => exact h
    next attempt hattempt =>
      split
      next hnumbers =>
        have hmem : w ∈ (g.ends s).attempts := by
          rw [← ExtTreeMap.isSome_getElem?_iff_mem, hattempt]
          rfl
        have hnumber : w ∈ (g.ends s).numbers := by
          cases s with
          | low => exact hnumbers.1
          | high => exact hnumbers.2
        refine h.put ((h.sound s).register hattempt hnumber) fun x l hl => ⟨?_, rfl⟩
        have hx : x ∈ (g.ends s).inherited := by
          rw [← ExtTreeMap.isSome_getElem?_iff_mem, hl]
          rfl
        have hne : w ≠ x := fun heq => (h.sound s).unregistered w hmem (heq ▸ hx)
        rw [Endpoint.register, ExtTreeMap.getElem?_insert, if_neg (by simpa using hne), hl]
      next => exact h
  | syncUs s w =>
    simp only [step]
    split
    next hphase => exact h.put ((h.sound s).syncUs hphase) fun x l hl => ⟨hl, rfl⟩
    next => exact h
  | syncKeyhive s w =>
    simp only [step]
    split
    next hphase => exact h.complete hphase
    next => exact h
  | notice s w =>
    simp only [step]
    split
    next hclosed => exact h.put ((h.sound s).forget hclosed.1) fun x l hl => ⟨hl, rfl⟩
    next => exact h

theorem tracked_run (ls : List Label) : (Transition.run step {} ls).Tracked :=
  Transition.run_preserves tracked_step ⟨fun s => Endpoint.sound_empty s, by simp⟩ ls

/-- A wire is closed only in favour of one that supersedes it on the device that closes it. -/
theorem supersedes_of_closed (ls : List Label) (hw : w ∈ (Transition.run step {} ls).closed) :
    ∃ s v, (Transition.run step {} ls).Supersedes s v w :=
  (tracked_run ls).favoured w hw

/-! ## When nothing is left to do -/

/-- What a device has registered is a wire. -/
theorem Tracked.lt_length (h : g.Tracked) {l : List ℕ} (hl : (g.ends s).inherited[w]? = some l) :
    w < g.wires.length := by
  refine (h.sound s).known w (.inr ?_)
  rw [← ExtTreeMap.isSome_getElem?_iff_mem, hl]
  rfl

/-- A wire nobody has closed is a ready connection of both devices. -/
theorem Tracked.ready_of_quiet (h : g.Tracked) (hquiet : g.Quiet) (hw : w < g.wires.length)
    (hopen : w ∉ g.closed) (s : Side) : (g.ends s).phases[w]? = some .ready := by
  have hattached (s : Side) : w ∈ (g.ends s).numbers := by
    by_cases hattempt : w ∈ (g.ends s).attempts
    · by_contra hnot
      exact hquiet (.attach s w) ⟨hw, hattempt, hnot⟩
    · by_contra hnot
      exact hquiet (.call s w) ⟨hw, hattempt, fun hin => hnot ((h.sound s).numbered w hin)⟩
  have hregistered : w ∈ (g.ends s).inherited := by
    by_contra hnot
    by_cases hattempt : w ∈ (g.ends s).attempts
    · exact hquiet (.authenticate s w) ⟨hw, hopen, hattempt, hattached .low, hattached .high⟩
    · exact hquiet (.call s w) ⟨hw, hattempt, hnot⟩
  have hphase : w ∈ (g.ends s).phases :=
    ((h.sound s).phased w).2 ((h.sound s).alive w hregistered hopen)
  obtain ⟨phase, hphase⟩ := Option.isSome_iff_exists.1 (ExtTreeMap.isSome_getElem?_iff_mem.2 hphase)
  cases phase with
  | awaitUs => exact (hquiet (.syncUs s w) ⟨hw, hopen, hphase⟩).elim
  | awaitKeyhive => exact (hquiet (.syncKeyhive s w) ⟨hw, hopen, hphase⟩).elim
  | ready => exact hphase

theorem coherent_empty : Coherent {} :=
  ⟨id, fun s w v ⟨_, hv, _⟩ => by simp at hv⟩

/-- The devices still do not rank the wires in a circle. Of all steps only `authenticate` adds to
the ranking. -/
def Agreeing (g : Network) (l : Label) : Prop :=
  (g.step l).Coherent

/-- In every run in which the two devices never rank wires in a circle, once a wire was dialled and
nothing is left to do, both devices retain exactly one connection and it is the same wire. -/
theorem retained_alike (ls : List Label) (hmeets : Transition.Meets step Agreeing {} ls)
    (hdialled : (Transition.run step {} ls).wires ≠ [])
    (hquiet : (Transition.run step {} ls).Quiet) :
    ∃ w, ∀ s, ((Transition.run step {} ls).ends s).conns = [w] := by
  have htracked := tracked_run ls
  have hcoherent : (Transition.run step {} ls).Coherent :=
    Transition.run_preserves_of_meets (fun (g : Network) l (hstep : (g.step l).Coherent) _ => hstep)
      hmeets coherent_empty
  generalize Transition.run step {} ls = g at *
  obtain ⟨rank, hrank⟩ := hcoherent
  -- the wire that ranks highest is closed by nobody
  obtain ⟨m, hm, hmax⟩ := Finset.exists_max_image (Finset.range g.wires.length) rank
    (Finset.nonempty_range_iff.2 fun hnil => hdialled (List.length_eq_zero_iff.1 hnil))
  have hopen : m ∉ g.closed := by
    intro hclosed
    obtain ⟨s, v, hsupersedes⟩ := htracked.favoured m hclosed
    obtain ⟨_, _, _, hv, _⟩ := id hsupersedes
    have hle := hmax v (Finset.mem_range.2 (htracked.lt_length hv))
    exact absurd (hrank s v m hsupersedes) (by omega)
  have hready := htracked.ready_of_quiet hquiet (Finset.mem_range.1 hm) hopen
  refine ⟨m, fun s => ?_⟩
  have honly (x : ℕ) (hx : x ∈ (g.ends s).conns) : x = m := by
    have hlength := (htracked.sound s).known x (.inr ((htracked.sound s).registered x hx))
    have hxopen : x ∉ g.closed := fun hclosed => hquiet (.notice s x) ⟨hlength, hclosed, hx⟩
    exact (htracked.sound s).sole x m (htracked.ready_of_quiet hquiet hlength hxopen s) (hready s)
      hxopen hopen
  have hmem := (htracked.sound s).mem_conns (hready s)
  have hnodup := (htracked.sound s).nodup
  rw [List.eq_replicate_of_mem honly] at hnodup hmem ⊢
  have hlength : ((g.ends s).conns).length = 1 := by
    have hle := List.nodup_replicate.1 hnodup
    have hpos := List.length_pos_of_mem hmem
    rw [List.length_replicate] at hpos
    omega
  rw [hlength]
  rfl

/-! ## Two dials in one direction -/

instance (g : Network) : (l : Label) → Decidable (g.Due l)
  | .dial _ => inferInstanceAs (Decidable False)
  | .call .. | .attach .. | .authenticate .. | .syncUs .. | .syncKeyhive .. | .notice .. =>
    inferInstanceAs (Decidable (_ ∧ _))

/-- What one device can have left to do on one wire. -/
def duties (s : Side) (w : ℕ) : List Label :=
  [.call s w, .attach s w, .authenticate s w, .syncUs s w, .syncKeyhive s w, .notice s w]

theorem quiet_of_duties
    (h : ∀ s ∈ [Side.low, .high], ∀ w < g.wires.length, ∀ l ∈ duties s w, ¬ g.Due l) :
    g.Quiet := by
  have hside (s : Side) : s ∈ [Side.low, .high] := by
    cases s <;> simp
  intro l hl
  cases l with
  | dial s => exact hl
  | call s w | attach s w | authenticate s w | syncUs s w | syncKeyhive s w | notice s w =>
    exact h s (hside s) w hl.1 _ (by simp [duties]) hl

/-- Both devices go through both wires, the other device taking up the second one first if
`swapped`. -/
def sampleRun (swapped : Bool) : List Label :=
  let wires := if swapped then [1, 0] else [0, 1]
  [.dial .low, .dial .low, .call .low 0, .attach .low 0, .call .low 1, .attach .low 1] ++
    wires.flatMap (fun w => [.call .high w, .attach .high w]) ++
    [Side.low, .high].flatMap (fun s => [.authenticate s 0, .authenticate s 1]) ++
    [Side.low, .high].flatMap (fun s =>
      [0, 1].flatMap fun w => [.syncUs s w, .syncKeyhive s w]) ++
    [Side.low, .high].flatMap fun s => [.notice s 0, .notice s 1]

/-- Two wires dialled by one device and taken up in the opposite order by the other close each
other. -/
theorem crossed_closings :
    ¬ ∀ ls : List Label, (Transition.run step {} ls).wires ≠ [] →
    (Transition.run step {} ls).Quiet →
      ∃ w, ∀ s, ((Transition.run step {} ls).ends s).conns = [w] := by
  intro h
  obtain ⟨w, hw⟩ := h (sampleRun true) (by decide +kernel) (quiet_of_duties (by decide +kernel))
  have hnil : ((Transition.run step {} (sampleRun true)).ends .low).conns = [] := by
    decide +kernel
  rw [hw .low] at hnil
  cases hnil

/-- Later wires supersede earlier ones only. -/
def Ascending (g : Network) : Prop :=
  ∀ s ∈ [Side.low, .high], ∀ w < g.wires.length, ∀ v < g.wires.length, g.Supersedes s w v → v < w

instance (g : Network) (s : Side) (w v : ℕ) : Decidable (g.Outranks s w v) :=
  inferInstanceAs (Decidable (_ ∨ _))

instance (g : Network) (s : Side) (w v : ℕ) : Decidable (g.Supersedes s w v) :=
  inferInstanceAs (Decidable (∃ older ∈ (g.ends s).inherited[v]?,
    ∃ newer ∈ (g.ends s).inherited[w]?, v ∈ newer ∨ w ∉ older ∧ g.Outranks s w v))

instance (g : Network) : Decidable g.Ascending :=
  inferInstanceAs (Decidable (∀ s ∈ [Side.low, .high], _))

theorem meets_of_ascending (h : g.Tracked) {ls : List Label}
    (hmeets : Transition.Meets step (fun g l => (g.step l).Ascending) g ls) :
    Transition.Meets step Agreeing g ls := by
  induction ls generalizing g with
  | nil => trivial
  | cons l ls ih =>
    have hstep := tracked_step g l h
    refine ⟨⟨id, fun s w v hsupersedes => ?_⟩, ih hstep hmeets.2⟩
    obtain ⟨_, hv, _, hw, _⟩ := id hsupersedes
    exact hmeets.1 s (by cases s <;> simp) w (hstep.lt_length hw) v (hstep.lt_length hv) hsupersedes

/-- Taken up in the order in which they were dialled, the second one stays. -/
theorem retained_alike_sampleRun :
    ∃ w, ∀ s, ((Transition.run step {} (sampleRun false)).ends s).conns = [w] := by
  have hmeets : Transition.Meets step (fun g l => (g.step l).Ascending) {} (sampleRun false) := by
    decide +kernel
  exact retained_alike (sampleRun false)
    (meets_of_ascending ⟨fun s => Endpoint.sound_empty s, by simp⟩ hmeets) (by decide +kernel)
    (quiet_of_duties (by decide +kernel))

end Network

end Polyvisor
