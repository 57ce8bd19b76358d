import Polyvisor.Engine.Storage

/-!
# The items of one document

`SnapshotStorage::inline_items`: the stored items of a tree, if what `bincode` makes of their list
stays within a budget. The size is added up item by item before anything is copied, and the first
item that goes over the budget ends the count.

## Main results

* `inlineItems_eq_some`: when the items are answered.
-/

namespace Polyvisor

namespace StoreItem

/-- `bincode::serialized_size` of an item: two ids, two byte strings with their lengths, and the
number of the kind. -/
def serializedSize (item : StoreItem Bytes) : ℕ :=
  32 + 32 + (8 + item.signed.length) + (8 + item.blob.length) + 4

end StoreItem

/-- What `u64::checked_add` refuses. -/
def inlineOverflow : String := "inline item size overflow"

/-- The count of `inline_items`: whether the items stay within the budget. -/
def countInline (budget : ℕ) : ℕ → List (StoreItem Bytes) → Except String Bool
  | _, [] => .ok true
  | size, item :: rest =>
    if 2 ^ 64 ≤ size + item.serializedSize then .error inlineOverflow
    else if budget < size + item.serializedSize then .ok false
    else countInline budget (size + item.serializedSize) rest

namespace SnapshotStorage

variable (s : SnapshotStorage Bytes) (t : TreeId)

/-- The items of a tree, commits first. -/
def storedItems : List (StoreItem Bytes) :=
  (s.tree t).commits.toList.map (fun (id, signed, blob) => ⟨t, id, signed.bytes, blob, .commit⟩) ++
    (s.tree t).fragments.toList.map fun (head, signed, blob) =>
      ⟨t, head, signed.bytes, blob, .fragment⟩

/-- `inline_items`. The empty list takes eight bytes, which are not compared with the budget. -/
def inlineItems (budget : ℕ) : Except String (Option (List (StoreItem Bytes))) :=
  (countInline budget 8 (s.storedItems t)).map fun fits =>
    if fits then some (s.storedItems t) else none

end SnapshotStorage

variable {budget : ℕ}

/-- The count goes to the end exactly if the whole stays within the budget. -/
theorem countInline_eq_true (hbudget : budget < 2 ^ 64) {size : ℕ} (items : List (StoreItem Bytes))
    (hsize : size ≤ budget) : countInline budget size items = .ok true ↔
      size + (items.map StoreItem.serializedSize).sum ≤ budget := by
  induction items generalizing size with
  | nil => exact iff_of_true rfl hsize
  | cons item rest ih =>
    rw [countInline, List.map_cons, List.sum_cons, ← Nat.add_assoc]
    split_ifs with hover hlarge
    · refine iff_of_false (fun h => nomatch h) ?_
      omega
    · refine iff_of_false (fun h => nomatch Except.ok.inj h) ?_
      omega
    · exact ih (by omega)

/-- What the items of a tree take. -/
def SnapshotStorage.inlineSize (s : SnapshotStorage Bytes) (t : TreeId) : ℕ :=
  8 + ((s.storedItems t).map StoreItem.serializedSize).sum

/-- The items are answered exactly if they are within the budget; they are all there are. -/
theorem inlineItems_eq_some (hbudget : budget < 2 ^ 64) (hempty : 8 ≤ budget)
    {s : SnapshotStorage Bytes} {t : TreeId} {items : List (StoreItem Bytes)} :
    s.inlineItems t budget = .ok (some items) ↔
      items = s.storedItems t ∧ s.inlineSize t ≤ budget := by
  have hcount := countInline_eq_true hbudget (s.storedItems t) hempty
  rw [SnapshotStorage.inlineSize, ← hcount, SnapshotStorage.inlineItems]
  rcases countInline budget 8 (s.storedItems t) with e | ⟨_ | _⟩
  · exact iff_of_false (fun h => nomatch h) fun h => nomatch h.2
  · exact iff_of_false (fun h => nomatch Except.ok.inj h) fun h => nomatch Except.ok.inj h.2
  · constructor
    · intro h
      exact ⟨(Option.some.inj (Except.ok.inj h)).symm, rfl⟩
    · rintro ⟨rfl, -⟩
      rfl

end Polyvisor
