import Mathlib.Data.List.Basic
import Mathlib.Data.List.Infix

/-!
# Bounded backlogs

A queue between one writer and one reader. It keeps at most `limit` items and drops the oldest one
beyond that. A reader that finds it empty waits, and is handed the next item as it comes.

## Main results

* `Lawful.offer`, `Lawful.next`: both ends keep that what was offered has left or is queued, in its
  order, and that nothing is dropped before it is the oldest of more than the limit.
-/

variable {α : Type*}

/-- A queue with its reader, and what has come of the items. -/
structure Backlog (α : Type*) where
  queue : List α := []
  /-- Whether the reader waits. -/
  waiting : Bool := false
  /-- What was offered. No code reads it. -/
  heard : List α := []
  /-- What has left, and whether the reader took it. No code reads it. -/
  gone : List (α × Bool) := []
  deriving DecidableEq, Repr

/-- What a reader gets for a call. -/
inductive Backlog.Answer (α : Type*) where
  | took (a : α)
  | parked
  /-- A reader waits already. -/
  | busy
  deriving DecidableEq, Repr

namespace Backlog

/-- The writer's end. -/
def offer (limit : ℕ) (b : Backlog α) (a : α) : Backlog α :=
  let b := { b with heard := b.heard ++ [a] }
  if b.waiting then { b with waiting := false, gone := b.gone ++ [(a, true)] }
  else if limit < (b.queue ++ [a]).length then { b with
    queue := (b.queue ++ [a]).tail
    gone := b.gone ++ (b.queue ++ [a]).head?.toList.map (·, false) }
  else { b with queue := b.queue ++ [a] }

/-- The reader's end. -/
def next (b : Backlog α) : Backlog α × Answer α :=
  match b.queue with
  | a :: queue => ({ b with queue, gone := b.gone ++ [(a, true)] }, .took a)
  | [] => if b.waiting then (b, .busy) else ({ b with waiting := true }, .parked)

/-- Everything offered is in the queue or has left it, in order; the queue is within the limit, and
empty while the reader waits; and nothing was dropped before `limit` newer items had come. -/
structure Lawful (limit : ℕ) (b : Backlog α) : Prop where
  whole : b.gone.map Prod.fst ++ b.queue = b.heard
  bounded : b.queue.length ≤ limit
  empty : b.waiting → b.queue = []
  oldest : ∀ n a, b.gone[n]? = some (a, false) → n + limit < b.heard.length

variable {limit : ℕ} {b : Backlog α}

theorem lawful_new : Lawful limit ({} : Backlog α) :=
  { whole := rfl, bounded := Nat.zero_le _, empty := fun _ => rfl, oldest := by simp }

/-- What an offer does to a waiting reader, to a queue with room and to a full one. -/
theorem offer_cases (limit : ℕ) (b : Backlog α) (a : α) :
    (b.waiting ∧ b.offer limit a = { b with
        heard := b.heard ++ [a], waiting := false, gone := b.gone ++ [(a, true)] }) ∨
      (b.waiting = false ∧ b.queue.length < limit ∧
        b.offer limit a = { b with heard := b.heard ++ [a], queue := b.queue ++ [a] }) ∨
      (b.waiting = false ∧ limit ≤ b.queue.length ∧
        ∃ old rest, b.queue ++ [a] = old :: rest ∧
          b.offer limit a = { b with
            heard := b.heard ++ [a], queue := rest, gone := b.gone ++ [(old, false)] }) := by
  unfold offer
  cases hwaiting : b.waiting with
  | true => exact .inl ⟨rfl, by simp⟩
  | false =>
    by_cases hroom : b.queue.length < limit
    · refine .inr (.inl ⟨rfl, hroom, ?_⟩)
      simp [Nat.not_lt.2 (Nat.succ_le_of_lt hroom)]
    · have hfull : limit ≤ b.queue.length := Nat.not_lt.1 hroom
      refine .inr (.inr ⟨rfl, hfull, ?_⟩)
      obtain ⟨old, rest, hqueue⟩ : ∃ old rest, b.queue ++ [a] = old :: rest :=
        List.exists_cons_of_ne_nil (by simp)
      refine ⟨old, rest, hqueue, ?_⟩
      have hlength : limit < (old :: rest).length := by
        rw [← hqueue, List.length_append, List.length_singleton]
        omega
      simp [hqueue, Nat.lt_of_lt_of_eq hlength (List.length_cons)]

@[simp]
theorem heard_offer (limit : ℕ) (b : Backlog α) (a : α) :
    (b.offer limit a).heard = b.heard ++ [a] := by
  simp only [offer]
  split_ifs <;> rfl

@[simp]
theorem heard_next (b : Backlog α) : b.next.1.heard = b.heard := by
  unfold next
  split
  · rfl
  · split_ifs <;> rfl

theorem Lawful.offer (h : Lawful limit b) (a : α) : Lawful limit (b.offer limit a) := by
  obtain ⟨hwaiting, heq⟩ | ⟨hwaiting, hroom, heq⟩ | ⟨hwaiting, hfull, old, rest, hqueue, heq⟩ :=
    offer_cases limit b a
  · have hempty : b.queue = [] := h.empty hwaiting
    have hwhole : b.gone.map Prod.fst = b.heard := by simpa [hempty] using h.whole
    rw [heq]
    refine ⟨?_, h.bounded, fun _ => hempty, ?_⟩
    · simp [hempty, hwhole]
    · intro n x hn
      -- the item that is handed over is not dropped
      have hold : b.gone[n]? = some (x, false) := by
        rw [List.getElem?_append] at hn
        split_ifs at hn with hlt
        · exact hn
        · simp [List.getElem?_singleton] at hn
      have := h.oldest n x hold
      simp only [List.length_append, List.length_singleton]
      omega
  · rw [heq]
    refine ⟨?_, ?_, fun hw => ?_, fun n x hn => ?_⟩
    · simp [← h.whole]
    · simp only [List.length_append, List.length_singleton]
      omega
    · simp [hwaiting] at hw
    · have := h.oldest n x hn
      simp only [List.length_append, List.length_singleton]
      omega
  · have hlength : b.queue.length + 1 = rest.length + 1 := by
      simpa using congrArg List.length hqueue
    have hheard : b.gone.length + b.queue.length = b.heard.length := by
      rw [← h.whole, List.length_append, List.length_map]
    rw [heq]
    refine ⟨?_, ?_, fun hw => ?_, fun n x hn => ?_⟩
    · calc (b.gone ++ [(old, false)]).map Prod.fst ++ rest
          = b.gone.map Prod.fst ++ (old :: rest) := by simp
        _ = b.gone.map Prod.fst ++ (b.queue ++ [a]) := by rw [hqueue]
        _ = b.heard ++ [a] := by rw [← h.whole, List.append_assoc]
    · have := h.bounded
      show rest.length ≤ limit
      omega
    · simp [hwaiting] at hw
    · -- the one that is dropped now has the whole queue behind it
      simp only [List.length_append, List.length_singleton]
      rw [List.getElem?_append] at hn
      split_ifs at hn with hlt
      · have := h.oldest n x hn
        omega
      · have hn' : n - b.gone.length < [(old, false)].length :=
          (List.getElem?_eq_some_iff.1 hn).1
        simp only [List.length_singleton] at hn'
        omega

theorem Lawful.next (h : Lawful limit b) : Lawful limit b.next.1 := by
  unfold Backlog.next
  split
  next a queue hqueue =>
    refine ⟨?_, ?_, fun hw => ?_, fun n x hn => ?_⟩
    · simp [← h.whole, hqueue]
    · have hbounded := h.bounded
      rw [hqueue, List.length_cons] at hbounded
      show queue.length ≤ limit
      omega
    · exact absurd (h.empty hw) (by simp [hqueue])
    · rw [List.getElem?_append] at hn
      split_ifs at hn with hlt
      · exact h.oldest n x hn
      · simp [List.getElem?_singleton] at hn
  next hqueue =>
    split_ifs
    · exact h
    · exact ⟨h.whole, h.bounded, fun _ => hqueue, h.oldest⟩

end Backlog
