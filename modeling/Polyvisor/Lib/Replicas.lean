import Polyvisor.Lib.Multivalue

/-!
# Replicas of a map that keeps every concurrent write

Each author has a replica. It writes in batches, one change a batch, and sends what it has; whoever
receives what was sent merges it, at any time, in any order and any number of times.

* `getLast_insertionSort_congr`: the newest of some writes depends on which they are.
* `Replicas.lawful_start`, `Replicas.lawful_step`: throughout a run, an author's replica has all its
  changes, and a write is named by its id.
* `Replicas.converge`: replicas that have the same changes show the same.
-/

namespace Multivalue

variable {A K V : Type*}

/-! ## The newest write -/

section Newest

variable [LE A]

/-- The order of writes: by counter, then by author. -/
def Write.Before (u w : Write A K V) : Prop :=
  u.counter < w.counter ∨ u.counter = w.counter ∧ u.author ≤ w.author

variable [Std.IsLinearOrder A]

theorem Write.before_total (u w : Write A K V) : u.Before w ∨ w.Before u := by
  obtain hlt | heq | hgt := Nat.lt_trichotomy u.counter w.counter
  · exact .inl (.inl hlt)
  · exact (Std.le_total (a := u.author) (b := w.author)).imp (.inr ⟨heq, ·⟩) (.inr ⟨heq.symm, ·⟩)
  · exact .inr (.inl hgt)

theorem Write.Before.trans {u v w : Write A K V} (h : u.Before v) (h' : v.Before w) :
    u.Before w := by
  obtain hlt | ⟨heq, hle⟩ := h <;> obtain hlt' | ⟨heq', hle'⟩ := h'
  · exact .inl (hlt.trans hlt')
  · exact .inl (heq' ▸ hlt)
  · exact .inl (heq ▸ hlt')
  · exact .inr ⟨heq.trans heq', Std.le_trans hle hle'⟩

/-- Neither of two writes is before the other only if they have one id. -/
theorem Write.Before.antisymm {u w : Write A K V} (h : u.Before w) (h' : w.Before u) :
    u.id = w.id := by
  obtain hlt | ⟨heq, hle⟩ := h <;> obtain hlt' | ⟨heq', hle'⟩ := h'
  · omega
  · omega
  · omega
  · exact Prod.ext heq (Std.le_antisymm hle hle')

instance : Std.Total (Write.Before (A := A) (K := K) (V := V)) := ⟨Write.before_total⟩

instance : IsTrans (Write A K V) Write.Before := ⟨fun _ _ _ => Write.Before.trans⟩

variable [DecidableLE A]

instance (u w : Write A K V) : Decidable (u.Before w) :=
  inferInstanceAs (Decidable (_ ∨ _))

/-- The last of the sorted writes is after all of them. -/
theorem before_getLast {writes : List (Write A K V)} {w : Write A K V}
    (hw : (writes.insertionSort Write.Before).getLast? = some w) :
    w ∈ writes ∧ ∀ u ∈ writes, u.Before w := by
  obtain ⟨front, hfront⟩ := List.getLast?_eq_some_iff.1 hw
  have hsorted : (front ++ [w]).Pairwise Write.Before :=
    hfront ▸ List.pairwise_insertionSort Write.Before writes
  have hmem (u : Write A K V) : u ∈ writes ↔ u ∈ front ++ [w] := by
    rw [← hfront, List.mem_insertionSort]
  refine ⟨(hmem w).2 (by simp), fun u hu => ?_⟩
  obtain hu | hu := List.mem_append.1 ((hmem u).1 hu)
  · exact (List.pairwise_append.1 hsorted).2.2 u hu w List.mem_cons_self
  · rw [List.mem_singleton.1 hu]
    exact (Write.before_total w w).elim id id

/-- The last of the sorted writes depends on which they are, not on their order. -/
theorem getLast_insertionSort_congr {writes writes' : List (Write A K V)}
    (hsame : ∀ w, w ∈ writes ↔ w ∈ writes')
    (hnamed : ∀ u ∈ writes, ∀ w ∈ writes, u.id = w.id → u = w) :
    (writes.insertionSort Write.Before).getLast? =
    (writes'.insertionSort Write.Before).getLast? := by
  have hempty : writes.insertionSort Write.Before = [] ↔
      writes'.insertionSort Write.Before = [] := by
    simp only [List.eq_nil_iff_forall_not_mem, List.mem_insertionSort, hsame]
  cases hlast : (writes.insertionSort Write.Before).getLast? with
  | none =>
    rw [List.getLast?_eq_none_iff, hempty] at hlast
    rw [hlast]
    rfl
  | some w =>
    cases hlast' : (writes'.insertionSort Write.Before).getLast? with
    | none =>
      rw [List.getLast?_eq_none_iff, ← hempty] at hlast'
      simp [hlast'] at hlast
    | some w' =>
      obtain ⟨hmem, hmax⟩ := before_getLast hlast
      obtain ⟨hmem', hmax'⟩ := before_getLast hlast'
      have hid : w.id = w'.id :=
        (hmax' w ((hsame w).1 hmem)).antisymm (hmax w' ((hsame w').2 hmem'))
      rw [hnamed w hmem w' ((hsame w').2 hmem') hid]

section Top

omit [Std.IsLinearOrder A]
variable [DecidableEq A] [DecidableEq K]

namespace History

/-- The newest write a key shows. -/
def top (h : History A K V) (key : K) : Option (Write A K V) :=
  ((h.shown key).insertionSort Write.Before).getLast?

theorem newest_eq_top (h : History A K V) (key : K) : h.newest key = (h.top key).bind Write.value :=
  rfl

variable {h : History A K V} {key : K} {w : Write A K V}

theorem mem_shown_of_top (htop : h.top key = some w) : w ∈ h.shown key :=
  (List.mem_insertionSort _).1 (List.mem_of_getLast? htop)

theorem top_eq_none : h.top key = none ↔ h.shown key = [] := by
  rw [top, List.getLast?_eq_none_iff]
  simp only [List.eq_nil_iff_forall_not_mem, List.mem_insertionSort]

/-- A key that shows one write has it for its newest. -/
theorem top_of_shown (hshown : h.shown key = [w]) : h.top key = some w := by
  rw [top, hshown]
  rfl

theorem top_congr {g : History A K V} {key' : K} (hshown : h.shown key = g.shown key') :
    h.top key = g.top key' := by
  rw [top, top, hshown]

end History

end Top

end Newest

/-! ## Batches -/

/-- What an author wrote at once; `number` counts the author's changes. -/
structure Change (A K V : Type*) where
  author : A
  number : ℕ
  writes : List (Write A K V)
  deriving DecidableEq

/-- What a replica has: the changes, and the history they make. -/
structure Doc (A K V : Type*) where
  changes : List (Change A K V) := []
  history : History A K V := .empty

theorem Doc.length_congr {d e : Doc A K V} (hnodup : d.changes.Nodup) (hnodup' : e.changes.Nodup)
    (hsame : ∀ c, c ∈ d.changes ↔ c ∈ e.changes) : d.changes.length = e.changes.length :=
  ((List.perm_ext_iff_of_nodup hnodup hnodup').2 hsame).length_eq

variable [DecidableEq A] [DecidableEq K]

namespace History

/-- A batch of writes, one after the other. -/
def writeAll (h : History A K V) (author : A) (batch : List (K × Option V)) : History A K V :=
  batch.foldl (fun h write => h.write author write.1 write.2) h

/-- The writes that a batch adds. -/
def added (h : History A K V) (author : A) : List (K × Option V) → List (Write A K V)
  | [] => []
  | write :: rest =>
    h.written author write.1 write.2 :: (h.write author write.1 write.2).added author rest

variable {h : History A K V} {author : A} {batch : List (K × Option V)} {w : Write A K V}

theorem mem_writes_write {key : K} {value : Option V} :
    w ∈ (h.write author key value).writes ↔ w = h.written author key value ∨ w ∈ h.writes :=
  List.mem_cons

theorem mem_writes_writeAll :
    w ∈ (h.writeAll author batch).writes ↔ w ∈ h.writes ∨ w ∈ h.added author batch := by
  induction batch generalizing h with
  | nil => simp [writeAll, added]
  | cons write rest ih =>
    have hrest := ih (h := h.write author write.1 write.2)
    rw [added, List.mem_cons]
    refine hrest.trans ?_
    rw [mem_writes_write]
    tauto

theorem author_of_mem_added (hw : w ∈ h.added author batch) : w.author = author := by
  induction batch generalizing h with
  | nil => simp [added] at hw
  | cons write rest ih =>
    obtain rfl | hw := List.mem_cons.1 hw
    · rfl
    · exact ih hw

theorem key_of_mem_added (hw : w ∈ h.added author batch) : w.key ∈ batch.map Prod.fst := by
  induction batch generalizing h with
  | nil => simp [added] at hw
  | cons write rest ih =>
    rw [List.map_cons, List.mem_cons]
    obtain rfl | hw := List.mem_cons.1 hw
    · exact .inl rfl
    · exact .inr (ih hw)

theorem next_write (key : K) (value : Option V) : h.next < (h.write author key value).next :=
  (h.write author key value).counter_lt_next _ (mem_writes_write.2 (.inl rfl))

/-- A key that a batch does not write shows what it showed. -/
theorem shown_writeAll_of_notMem {key : K} (hkey : key ∉ batch.map Prod.fst) :
    (h.writeAll author batch).shown key = h.shown key := by
  induction batch generalizing h with
  | nil => rfl
  | cons write rest ih =>
    rw [List.map_cons, List.mem_cons, not_or] at hkey
    refine (ih hkey.2).trans (shown_write_of_ne hkey.1)

/-- A key that is written shows the write alone, and one that is removed shows nothing. -/
theorem shown_write_self (key : K) (value : Option V) :
    (h.write author key value).shown key =
      if value.isSome then [h.written author key value] else [] := by
  let p (w : Write A K V) : Bool := w.key = key ∧ w.value.isSome ∧
    ∀ u ∈ (h.write author key value).writes, ¬ u.Hides w
  have hshown (w : Write A K V) : w ∈ (h.write author key value).shown key ↔
      w ∈ (h.write author key value).writes ∧ p w := List.mem_filter
  have hrest : h.writes.filter p = [] := by
    refine List.filter_eq_nil_iff.2 fun w hw hp => ?_
    obtain ⟨rfl, -⟩ | ⟨-, hne⟩ :=
      mem_shown_write.1 ((hshown w).2 ⟨List.mem_cons_of_mem _ hw, hp⟩)
    · have := h.counter_lt_next _ hw
      simp [written] at this
    · exact hne rfl
  have hnew : p (h.written author key value) ↔ value.isSome := by
    have hboth := (hshown (h.written author key value)).symm.trans mem_shown_write
    simpa [mem_writes_write] using hboth
  show (h.written author key value :: h.writes).filter p = _
  by_cases hvalue : value.isSome
  · rw [List.filter_cons_of_pos (hnew.2 hvalue), hrest, if_pos hvalue]
  · rw [List.filter_cons_of_neg (fun hp => hvalue (hnew.1 hp)), hrest, if_neg hvalue]

/-- A key that a batch writes first, and no more, shows what was written. -/
theorem shown_writeAll_cons {key : K} {value : Option V} (hrest : key ∉ batch.map Prod.fst) :
    (h.writeAll author ((key, value) :: batch)).shown key =
      if value.isSome then [h.written author key value] else [] :=
  (shown_writeAll_of_notMem hrest).trans (shown_write_self key value)

/-- A key that a batch gives a value, once, has it. -/
theorem newest_writeAll [LE A] [DecidableLE A] {key : K} {v : V}
    (hnodup : (batch.map Prod.fst).Nodup) (hmem : (key, some v) ∈ batch) :
    (h.writeAll author batch).newest key = some v := by
  induction batch generalizing h with
  | nil => simp at hmem
  | cons write rest ih =>
    rw [List.map_cons, List.nodup_cons] at hnodup
    obtain rfl | hmem := List.mem_cons.1 hmem
    · rw [newest_eq, shown_writeAll_cons hnodup.1]
      rfl
    · exact ih hnodup.2 hmem

/-- What a batch adds counts on from what was there. -/
theorem next_le_of_mem_added (hw : w ∈ h.added author batch) : h.next ≤ w.counter := by
  induction batch generalizing h with
  | nil => simp [added] at hw
  | cons write rest ih =>
    obtain rfl | hw := List.mem_cons.1 hw
    · exact le_rfl
    · exact (next_write _ _).le.trans (ih hw)

/-- Every write of a history has an id of its own. -/
def Named (h : History A K V) : Prop :=
  ∀ u ∈ h.writes, ∀ w ∈ h.writes, u.id = w.id → u = w

theorem Named.write (hnamed : h.Named) (key : K) (value : Option V) :
    (h.write author key value).Named := by
  have hfresh : ∀ u ∈ h.writes, u.id ≠ (h.written author key value).id := by
    intro u hu hid
    have := h.counter_lt_next u hu
    have hcounter : u.counter = h.next := congrArg Prod.fst hid
    omega
  intro u hu w hw hid
  obtain rfl | hu := mem_writes_write.1 hu <;> obtain rfl | hw := mem_writes_write.1 hw
  · rfl
  · exact absurd hid.symm (hfresh w hw)
  · exact absurd hid (hfresh u hu)
  · exact hnamed u hu w hw hid

theorem Named.writeAll (hnamed : h.Named) (batch : List (K × Option V)) :
    (h.writeAll author batch).Named := by
  induction batch generalizing h with
  | nil => exact hnamed
  | cons write rest ih => exact ih (hnamed.write _ _)

end History

/-! ## One replica -/

namespace Doc

/-- How many changes an author has made here. -/
def count (d : Doc A K V) (author : A) : ℕ :=
  d.changes.countP (·.author = author)

/-- The change by which an author writes a batch. -/
def change (d : Doc A K V) (author : A) (batch : List (K × Option V)) : Change A K V :=
  ⟨author, d.count author, d.history.added author batch⟩

def commit (d : Doc A K V) (author : A) (batch : List (K × Option V)) : Doc A K V :=
  { changes := d.changes ++ [d.change author batch]
    history := d.history.writeAll author batch }

def merge [DecidableEq V] (d e : Doc A K V) : Doc A K V :=
  { changes := d.changes ++ e.changes.filter (· ∉ d.changes)
    history := d.history.merge e.history }

/-- Giving a key the one value that it holds writes nothing. -/
def put [DecidableEq V] (d : Doc A K V) (key : K) (value : V) : List (K × Option V) :=
  if d.history.values key = [value] then [] else [(key, some value)]

/-- Without a write there is no change. -/
def transact (d : Doc A K V) (author : A) (batch : List (K × Option V)) : Doc A K V :=
  if batch = [] then d else d.commit author batch

theorem history_transact (d : Doc A K V) (author : A) (batch : List (K × Option V)) :
    (d.transact author batch).history = d.history.writeAll author batch := by
  rw [transact]
  split_ifs with h
  · rw [h]
    rfl
  · rfl

theorem mem_put [DecidableEq V] {d : Doc A K V} {key : K} {value : V} {write : K × Option V}
    (h : write ∈ d.put key value) : write = (key, some value) := by
  rw [put] at h
  split_ifs at h
  · simp at h
  · exact List.mem_singleton.1 h

/-- After a `put` the key holds the value. -/
theorem newest_put [DecidableEq V] [LE A] [DecidableLE A] (d : Doc A K V) (author : A) (key : K)
    (value : V) : (d.history.writeAll author (d.put key value)).newest key = some value := by
  rw [put]
  split_ifs with h
  · refine History.newest_eq_some (v := value) ?_ ?_
    · show value ∈ d.history.values key
      rw [h]
      exact List.mem_cons_self
    · intro u hu
      change u ∈ d.history.values key at hu
      rw [h] at hu
      exact List.mem_singleton.1 hu
  · refine History.newest_eq_some (v := value) (History.mem_values_write.2 rfl) fun u hu => ?_
    exact (Option.some.inj (History.mem_values_write.1 hu)).symm

/-- The history is what the changes make of it, and its writes have ids of their own. -/
structure Lawful (d : Doc A K V) : Prop where
  writes : ∀ w, w ∈ d.history.writes ↔ ∃ c ∈ d.changes, w ∈ c.writes
  authors : ∀ c ∈ d.changes, ∀ w ∈ c.writes, w.author = c.author
  nodup : d.changes.Nodup
  named : d.history.Named

variable {d e : Doc A K V} {author : A} {batch : List (K × Option V)} {c : Change A K V}

omit [DecidableEq A] [DecidableEq K] in
theorem lawful_empty : Lawful ({} : Doc A K V) :=
  ⟨by simp [History.empty], by simp, List.nodup_nil, by simp [History.Named, History.empty]⟩

theorem mem_changes_commit :
    c ∈ (d.commit author batch).changes ↔ c ∈ d.changes ∨ c = d.change author batch := by
  simp [commit]

theorem mem_changes_merge [DecidableEq V] :
    c ∈ (d.merge e).changes ↔ c ∈ d.changes ∨ c ∈ e.changes := by
  rw [merge, List.mem_append, List.mem_filter, decide_eq_true_iff]
  tauto

/-- A new change is numbered as none of the author's was. -/
theorem Lawful.commit (h : d.Lawful) (hnew : ∀ c ∈ d.changes, c.author = author →
    c.number < d.count author) (batch : List (K × Option V)) : (d.commit author batch).Lawful where
  writes w := by
    simp only [Doc.commit, History.mem_writes_writeAll, h.writes w, List.mem_append,
      List.mem_singleton, or_and_right, exists_or, exists_eq_left]
    rfl
  authors c hc w hw := by
    obtain hc | rfl := mem_changes_commit.1 hc
    · exact h.authors c hc w hw
    · exact History.author_of_mem_added hw
  nodup := by
    refine List.nodup_append.2 ⟨h.nodup, List.nodup_singleton _, fun c hc c' hc' => ?_⟩
    rw [List.mem_singleton.1 hc']
    rintro rfl
    exact Nat.lt_irrefl _ (hnew _ hc rfl)
  named := h.named.writeAll batch

/-- Two replicas merge where a write that both know is one write. -/
theorem Lawful.merge [DecidableEq V] (h : d.Lawful) (h' : e.Lawful)
    (hboth : ∀ u ∈ d.history.writes, ∀ w ∈ e.history.writes, u.id = w.id → u = w) :
    (d.merge e).Lawful where
  writes w := by
    show w ∈ (d.history.merge e.history).writes ↔ _
    simp only [History.mem_writes_merge, h.writes w, h'.writes w, mem_changes_merge, or_and_right,
      exists_or]
  authors c hc w hw := by
    obtain hc | hc := mem_changes_merge.1 hc
    · exact h.authors c hc w hw
    · exact h'.authors c hc w hw
  nodup := by
    refine List.nodup_append.2 ⟨h.nodup, h'.nodup.filter _, fun c hc c' hc' => ?_⟩
    rintro rfl
    exact of_decide_eq_true (List.mem_filter.1 hc').2 hc
  named u hu w hw hid := by
    obtain hu | hu := History.mem_writes_merge.1 hu <;>
      obtain hw | hw := History.mem_writes_merge.1 hw
    · exact h.named u hu w hw hid
    · exact hboth u hu w hw hid
    · exact (hboth w hw u hu hid.symm).symm
    · exact h'.named u hu w hw hid

/-- What a replica shows depends on its changes alone. -/
theorem Lawful.shown_congr (h : d.Lawful) (h' : e.Lawful)
    (hsame : ∀ c, c ∈ d.changes ↔ c ∈ e.changes) {key : K} {w : Write A K V} :
    w ∈ d.history.shown key ↔ w ∈ e.history.shown key := by
  have hwrites (w : Write A K V) : w ∈ d.history.writes ↔ w ∈ e.history.writes := by
    simp only [h.writes, h'.writes, hsame]
  simp only [History.mem_shown, hwrites]

theorem Lawful.top_congr [LE A] [DecidableLE A] [Std.IsLinearOrder A] (h : d.Lawful)
    (h' : e.Lawful) (hsame : ∀ c, c ∈ d.changes ↔ c ∈ e.changes) (key : K) :
    d.history.top key = e.history.top key := by
  refine getLast_insertionSort_congr (fun w => h.shown_congr h' hsame) fun u hu w hw => ?_
  exact h.named u (History.mem_shown.1 hu).1 w (History.mem_shown.1 hw).1

end Doc

/-! ## Replicas -/

/-- The replica of each author, and what was sent. -/
structure Replicas (A K V : Type*) where
  docs : A → Doc A K V := fun _ => {}
  sent : List (Doc A K V) := []

/-- What a replica does. -/
inductive Replicas.Event (A K V : Type*) where
  | commit (a : A) (batch : List (K × Option V))
  /-- It sends what it has. -/
  | send (a : A)
  /-- It merges something that was sent. -/
  | deliver (a : A) (i : ℕ)

namespace Replicas

def step [DecidableEq V] (s : Replicas A K V) : Event A K V → Replicas A K V
  | .commit a batch => { s with docs := Function.update s.docs a ((s.docs a).commit a batch) }
  | .send a => { s with sent := s.sent ++ [s.docs a] }
  | .deliver a i =>
    match s.sent[i]? with
    | none => s
    | some d => { s with docs := Function.update s.docs a ((s.docs a).merge d) }

/-- A replica's document becomes another one. -/
def setDoc (s : Replicas A K V) (a : A) (d : Doc A K V) : Replicas A K V :=
  { s with docs := Function.update s.docs a d }

/-- A transaction is a commit, or nothing. -/
theorem setDoc_transact [DecidableEq V] (s : Replicas A K V) (a : A) (batch : List (K × Option V)) :
    s.setDoc a ((s.docs a).transact a batch) =
      if batch = [] then s else s.step (.commit a batch) := by
  rw [setDoc, Doc.transact]
  split_ifs
  · rw [Function.update_eq_self]
  · rfl

/-- The documents there are. -/
def Has (s : Replicas A K V) (d : Doc A K V) : Prop :=
  (∃ a, d = s.docs a) ∨ d ∈ s.sent

/-- Every document is lawful, its changes are their authors', and an author numbers its own. -/
structure Lawful (s : Replicas A K V) : Prop where
  doc : ∀ d, s.Has d → d.Lawful
  home : ∀ d, s.Has d → ∀ c ∈ d.changes, c ∈ (s.docs c.author).changes
  numbered : ∀ a, ∀ c ∈ (s.docs a).changes, c.author = a → c.number < (s.docs a).count a

variable {s : Replicas A K V}

omit [DecidableEq K] in
/-- A write that two documents know is one write. -/
theorem Lawful.named (h : s.Lawful) {d e : Doc A K V} (hd : s.Has d) (he : s.Has e)
    {u w : Write A K V} (hu : u ∈ d.history.writes) (hw : w ∈ e.history.writes)
    (hid : u.id = w.id) :
    u = w := by
  obtain ⟨c, hc, huc⟩ := ((h.doc d hd).writes u).1 hu
  obtain ⟨c', hc', hwc⟩ := ((h.doc e he).writes w).1 hw
  have hcu : u.author = c.author := (h.doc d hd).authors c hc u huc
  have hcw : w.author = c'.author := (h.doc e he).authors c' hc' w hwc
  have hsame : c.author = c'.author := hcu.symm.trans ((congrArg Prod.snd hid).trans hcw)
  -- both are in the replica of their author
  have hhome : s.Has (s.docs c.author) := .inl ⟨_, rfl⟩
  have hu' : u ∈ (s.docs c.author).history.writes :=
    ((h.doc _ hhome).writes u).2 ⟨c, h.home d hd c hc, huc⟩
  have hw' : w ∈ (s.docs c.author).history.writes :=
    ((h.doc _ hhome).writes w).2 ⟨c', hsame ▸ h.home e he c' hc', hwc⟩
  exact (h.doc _ hhome).named u hu' w hw' hid

omit [DecidableEq K] in
/-- A replica's document becomes one that extends it, by changes that their authors have. -/
theorem Lawful.update (h : s.Lawful) {a : A} {d : Doc A K V} (hd : d.Lawful)
    (hkeeps : ∀ c ∈ (s.docs a).changes, c ∈ d.changes)
    (hnew : ∀ c ∈ d.changes, c.author ≠ a → c ∈ (s.docs c.author).changes)
    (hnumbered : ∀ c ∈ d.changes, c.author = a → c.number < d.count a) :
    (Lawful { s with docs := Function.update s.docs a d }) := by
  have hgrows (b : A) {c : Change A K V} (hc : c ∈ (s.docs b).changes) :
      c ∈ (Function.update s.docs a d b).changes := by
    by_cases hb : b = a
    · subst hb
      rw [Function.update_self]
      exact hkeeps c hc
    · rwa [Function.update_of_ne hb]
  -- a document there is was there before, or is the new one
  have hhas (e : Doc A K V) (he : Has { s with docs := Function.update s.docs a d } e) :
      e = d ∨ s.Has e := by
    obtain ⟨b, rfl⟩ | he := he
    · by_cases hb : b = a
      · subst hb
        exact .inl (Function.update_self b d s.docs)
      · exact .inr (.inl ⟨b, Function.update_of_ne hb d s.docs⟩)
    · exact .inr (.inr he)
  refine ⟨fun e he => ?_, fun e he c hc => ?_, fun b c hc hb => ?_⟩
  · obtain rfl | he := hhas e he
    · exact hd
    · exact h.doc e he
  · obtain rfl | he := hhas e he
    · by_cases hauthor : c.author = a
      · show c ∈ (Function.update s.docs a e c.author).changes
        rwa [hauthor, Function.update_self]
      · exact hgrows _ (hnew c hc hauthor)
    · exact hgrows _ (h.home e he c hc)
  · change c ∈ (Function.update s.docs a d b).changes at hc
    show c.number < (Function.update s.docs a d b).count b
    by_cases hba : b = a
    · subst hba
      rw [Function.update_self] at hc ⊢
      exact hnumbered c hc hb
    · rw [Function.update_of_ne hba] at hc ⊢
      exact h.numbered b c hc hb

theorem Lawful.commit (h : s.Lawful) (a : A) (batch : List (K × Option V)) :
    (Lawful { s with docs := Function.update s.docs a ((s.docs a).commit a batch) }) := by
  have hhas : s.Has (s.docs a) := .inl ⟨a, rfl⟩
  refine h.update ((h.doc _ hhas).commit (h.numbered a) batch) (fun c hc => ?_)
    (fun c hc hne => ?_) fun c hc hauthor => ?_
  · exact Doc.mem_changes_commit.2 (.inl hc)
  · obtain hc | rfl := Doc.mem_changes_commit.1 hc
    · exact h.home _ hhas c hc
    · exact absurd rfl hne
  · have hcount : ((s.docs a).commit a batch).count a = (s.docs a).count a + 1 := by
      simp [Doc.commit, Doc.count, Doc.change, List.countP_append]
    rw [hcount]
    obtain hc | rfl := Doc.mem_changes_commit.1 hc
    · exact Nat.lt_succ_of_lt (h.numbered a c hc hauthor)
    · exact Nat.lt_succ_self _

theorem Lawful.deliver [DecidableEq V] (h : s.Lawful) (a : A) {d : Doc A K V} (hd : s.Has d) :
    (Lawful { s with docs := Function.update s.docs a ((s.docs a).merge d) }) := by
  have hhas : s.Has (s.docs a) := .inl ⟨a, rfl⟩
  refine h.update ((h.doc _ hhas).merge (h.doc d hd) fun u hu w hw => ?_) (fun c hc => ?_)
    (fun c hc hne => ?_) fun c hc hauthor => ?_
  · exact h.named hhas hd hu hw
  · exact Doc.mem_changes_merge.2 (.inl hc)
  · obtain hc | hc := Doc.mem_changes_merge.1 hc
    · exact h.home _ hhas c hc
    · exact h.home d hd c hc
  · -- the author's own changes were there
    have hcount : ((s.docs a).merge d).count a = (s.docs a).count a := by
      rw [Doc.count, Doc.merge, List.countP_append, Doc.count, Nat.add_eq_left,
        List.countP_eq_zero]
      intro own hown
      obtain ⟨hmem, hnew⟩ := List.mem_filter.1 hown
      rw [decide_eq_true_iff] at hnew ⊢
      rintro rfl
      exact hnew (h.home d hd own hmem)
    rw [hcount]
    obtain hc | hc := Doc.mem_changes_merge.1 hc
    · exact h.numbered a c hc hauthor
    · exact h.numbered a c (hauthor ▸ h.home d hd c hc) hauthor

theorem lawful_step [DecidableEq V] (s : Replicas A K V) (ev : Event A K V) (h : s.Lawful) :
    (s.step ev).Lawful := by
  cases ev with
  | commit a batch => exact h.commit a batch
  | send a =>
    have hhas (d : Doc A K V) (hd : (s.step (.send a)).Has d) : s.Has d := by
      obtain hd | hd := hd
      · exact .inl hd
      · obtain hd | hd := List.mem_append.1 hd
        · exact .inr hd
        · exact .inl ⟨a, List.mem_singleton.1 hd⟩
    exact ⟨fun d hd => h.doc d (hhas d hd), fun d hd => h.home d (hhas d hd), h.numbered⟩
  | deliver a i =>
    simp only [step]
    split
    next => exact h
    next d hd => exact h.deliver a (.inr (List.mem_of_getElem? hd))

omit [DecidableEq K] in
theorem lawful_start : Lawful ({} : Replicas A K V) := by
  have hempty (d : Doc A K V) (hd : Has {} d) : d = {} := by
    obtain ⟨a, hd⟩ | hd := hd
    · exact hd
    · exact absurd hd List.not_mem_nil
  refine ⟨fun d hd => ?_, fun d hd => ?_, by simp⟩
  · rw [hempty d hd]
    exact Doc.lawful_empty
  · rw [hempty d hd]
    simp

/-- Documents that have the same changes show the same. -/
theorem converge [DecidableEq V] [LE A] [DecidableLE A] [Std.IsLinearOrder A]
    (h : s.Lawful) {d e : Doc A K V} (hd : s.Has d) (he : s.Has e)
    (hsame : ∀ c, c ∈ d.changes ↔ c ∈ e.changes) :
    d.changes.length = e.changes.length ∧
      (∀ key w, w ∈ d.history.shown key ↔ w ∈ e.history.shown key) ∧
      ∀ key, d.history.top key = e.history.top key :=
  ⟨Doc.length_congr (h.doc d hd).nodup (h.doc e he).nodup hsame,
    fun _ _ => (h.doc d hd).shown_congr (h.doc e he) hsame,
    (h.doc d hd).top_congr (h.doc e he) hsame⟩

/-- A replica loses no change. -/
theorem length_le_step [DecidableEq V] (s : Replicas A K V) (ev : Event A K V) (a : A) :
    (s.docs a).changes.length ≤ ((s.step ev).docs a).changes.length := by
  have hupdate (b : A) (d : Doc A K V) (hle : (s.docs b).changes.length ≤ d.changes.length) :
      (s.docs a).changes.length ≤ (Function.update s.docs b d a).changes.length := by
    by_cases hab : a = b
    · subst hab
      rwa [Function.update_self]
    · rw [Function.update_of_ne hab]
  cases ev with
  | commit b batch => exact hupdate b _ (by simp [Doc.commit])
  | send b => exact le_rfl
  | deliver b i =>
    simp only [step]
    split
    · exact le_rfl
    · exact hupdate b _ (by simp [Doc.merge])

/-- A replica keeps its changes. -/
theorem mem_changes_step [DecidableEq V] (s : Replicas A K V) (ev : Event A K V) (a : A)
    {c : Change A K V} (hc : c ∈ (s.docs a).changes) : c ∈ ((s.step ev).docs a).changes := by
  have hupdate (b : A) (d : Doc A K V) (hle : ∀ c ∈ (s.docs b).changes, c ∈ d.changes) :
      c ∈ (Function.update s.docs b d a).changes := by
    by_cases hab : a = b
    · subst hab
      rw [Function.update_self]
      exact hle c hc
    · rwa [Function.update_of_ne hab]
  cases ev with
  | commit b batch => exact hupdate b _ fun c hc => Doc.mem_changes_commit.2 (.inl hc)
  | send b => exact hc
  | deliver b i =>
    simp only [step]
    split
    · exact hc
    · exact hupdate b _ fun c hc => Doc.mem_changes_merge.2 (.inl hc)

/-! ## What holds of every write -/

/-- A property of every write there is. -/
def Every (s : Replicas A K V) (P : Write A K V → Prop) : Prop :=
  ∀ d, s.Has d → ∀ w ∈ d.history.writes, P w

variable {P : Write A K V → Prop}

omit [DecidableEq A] [DecidableEq K] in
theorem every_start : Every ({} : Replicas A K V) P := by
  intro d hd w hw
  obtain ⟨a, rfl⟩ | hd := hd
  · simp [History.empty] at hw
  · simp at hd

omit [DecidableEq K] in
theorem Every.update (h : s.Every P) {a : A} {d : Doc A K V} (hd : ∀ w ∈ d.history.writes, P w) :
    (Every { s with docs := Function.update s.docs a d } P) := by
  intro e he
  obtain ⟨b, rfl⟩ | he := he
  · by_cases hb : b = a
    · subst hb
      simpa using hd
    · show ∀ w ∈ (Function.update s.docs a d b).history.writes, P w
      rw [Function.update_of_ne hb]
      exact h _ (.inl ⟨b, rfl⟩)
  · exact h e (.inr he)

/-- What holds of every write, and of those that are made, holds of every write again. -/
theorem Every.step [DecidableEq V] (h : s.Every P) (ev : Event A K V)
    (hnew : ∀ a batch, ev = .commit a batch → ∀ w ∈ (s.docs a).history.added a batch, P w) :
    (s.step ev).Every P := by
  cases ev with
  | commit a batch =>
    refine h.update fun w hw => ?_
    obtain hw | hw := History.mem_writes_writeAll.1 hw
    · exact h _ (.inl ⟨a, rfl⟩) w hw
    · exact hnew a batch rfl w hw
  | send a =>
    intro d hd
    obtain hd | hd := hd
    · exact h d (.inl hd)
    · obtain hd | hd := List.mem_append.1 hd
      · exact h d (.inr hd)
      · exact h d (.inl ⟨a, List.mem_singleton.1 hd⟩)
  | deliver a i =>
    simp only [Replicas.step]
    split
    next => exact h
    next d hd =>
      refine h.update fun w hw => ?_
      obtain hw | hw := History.mem_writes_merge.1 hw
      · exact h _ (.inl ⟨a, rfl⟩) w hw
      · exact h d (.inr (List.mem_of_getElem? hd)) w hw

end Replicas

end Multivalue
