import Mathlib.Data.List.Basic
import Mathlib.Tactic.Common

/-!
# Procedures that leave a trace

A procedure that may fail at any of its steps, and what it has done by then. The trace is kept by a
failure.

* `Course`: the monad, with `emit` for one event and `lift` for a step that leaves none.
* `Guards`: in a trace every event of one kind has one of another before it. `guards_cons` decides
  it event by event.
-/

/-- A sequence that goes through has gone through step by step. -/
theorem except_bind_eq_ok {ε α β : Type} {x : Except ε α} {f : α → Except ε β} {b : β} :
    x >>= f = .ok b ↔ ∃ a, x = .ok a ∧ f a = .ok b := by
  rcases x with e | a
  · exact iff_of_false (fun h => nomatch h) fun ⟨_, h, _⟩ => nomatch h
  · exact ⟨fun h => ⟨a, rfl, h⟩, fun ⟨_, h, h'⟩ => Except.ok.inj h ▸ h'⟩

/-- What a procedure has left on its trace, and how it ended. -/
structure Course (E ε α : Type) where
  trace : List E
  outcome : Except ε α

namespace Course

variable {E ε α β : Type}

/-- An event. -/
def emit (e : E) : Course E ε Unit := ⟨[e], .ok ()⟩

/-- A step that leaves nothing on the trace. -/
def lift (outcome : Except ε α) : Course E ε α := ⟨[], outcome⟩

/-- The end of the procedure. -/
def fail (error : ε) : Course E ε α := ⟨[], .error error⟩

instance : Monad (Course E ε) where
  pure a := ⟨[], .ok a⟩
  bind x f :=
    match x.outcome with
    | .error e => ⟨x.trace, .error e⟩
    | .ok a => ⟨x.trace ++ (f a).trace, (f a).outcome⟩

@[simp]
theorem trace_pure (a : α) : (pure a : Course E ε α).trace = [] := rfl

@[simp]
theorem trace_fail (error : ε) : (fail error : Course E ε α).trace = [] := rfl

@[simp]
theorem trace_emit (e : E) : (emit e : Course E ε Unit).trace = [e] := rfl

@[simp]
theorem fail_bind (error : ε) (f : α → Course E ε β) :
    (fail error : Course E ε α) >>= f = fail error := rfl

@[simp]
theorem pure_bind (a : α) (f : α → Course E ε β) : (pure a : Course E ε α) >>= f = f a := rfl

@[simp]
theorem lift_error_bind (error : ε) (f : α → Course E ε β) :
    (lift (.error error) : Course E ε α) >>= f = fail error := rfl

@[simp]
theorem lift_ok_bind (a : α) (f : α → Course E ε β) :
    (lift (.ok a) : Course E ε α) >>= f = f a := rfl

@[simp]
theorem mk_error_bind (trace : List E) (error : ε) (f : α → Course E ε β) :
    (⟨trace, .error error⟩ : Course E ε α) >>= f = ⟨trace, .error error⟩ := rfl

@[simp]
theorem trace_mk_ok_bind (trace : List E) (a : α) (f : α → Course E ε β) :
    ((⟨trace, .ok a⟩ : Course E ε α) >>= f).trace = trace ++ (f a).trace := rfl

@[simp]
theorem trace_emit_bind (e : E) (f : Unit → Course E ε β) :
    ((emit e : Course E ε Unit) >>= f).trace = e :: (f ()).trace := rfl

end Course

/-! ## What comes first -/

section Guards

variable {E : Type} {guard event : E → Prop} {trace : List E}

/-- Every event of the one kind has one of the other before it. -/
def Guards (guard event : E → Prop) (trace : List E) : Prop :=
  ∀ before e after, trace = before ++ e :: after → event e → ∃ g ∈ before, guard g

@[simp]
theorem guards_nil : Guards guard event [] := by
  intro before e after heq
  simp at heq

@[simp]
theorem guards_cons {x : E} :
    Guards guard event (x :: trace) ↔ ¬ event x ∧ (guard x ∨ Guards guard event trace) := by
  constructor
  · intro h
    refine ⟨fun hx => ?_, ?_⟩
    · obtain ⟨g, hg, -⟩ := h [] x trace rfl hx
      exact absurd hg List.not_mem_nil
    by_cases hguard : guard x
    · exact .inl hguard
    refine .inr fun before e after heq he => ?_
    obtain ⟨g, hg, hg'⟩ := h (x :: before) e after (by rw [heq, List.cons_append]) he
    rcases List.mem_cons.1 hg with rfl | hg
    · exact absurd hg' hguard
    · exact ⟨g, hg, hg'⟩
  · rintro ⟨hx, hrest⟩ before e after heq he
    rcases before with _ | ⟨y, before⟩
    · obtain ⟨rfl, -⟩ := List.cons.inj heq
      exact absurd he hx
    obtain ⟨rfl, rfl⟩ := List.cons.inj heq
    rcases hrest with hguard | hrest
    · exact ⟨x, List.mem_cons_self, hguard⟩
    · obtain ⟨g, hg, hguard⟩ := hrest before e after rfl he
      exact ⟨g, List.mem_cons_of_mem _ hg, hguard⟩

end Guards
