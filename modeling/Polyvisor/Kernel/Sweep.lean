import Mathlib.Data.List.AList
import Polyvisor.Kernel.Destruction
import Polyvisor.Lib.Course

/-!
# The boot sweep

`rows`, `destroy` and `sweep` of `kernel/src/store.rs`, and `pointer` and `destroy` of
`kernel/src/checkpoint.rs`, over the storage that every device of the origin shares. Rows and
pointers are whatever bytes another tab left. Here an id is any text, and keys and paths are written
out as the source writes them.

Sums of `u64` wrap around, as they do in a release build; `keys` answers in no particular order.

## Main results

* `lookup_destroyAll`, `files_destroyAll`: what a sweep removes.
* `sweep_exact_iff`: when a sweep goes through and removes what it should.
-/

namespace Polyvisor.Sweep

open Destruction (indexKey Owned dekKey dekWrappedKey)

/-- `IndexRow`, as far as the sweep reads it. -/
structure IndexRow where
  id : String
  tier : Tier
  lastUsed : ℕ
  deriving DecidableEq

/-- The seams of the sweep: the formats of a row and of a pointer, and the held locks. -/
structure Seams where
  decodeRow : Bytes → Option IndexRow
  decodePointer : Bytes → Option Pointer
  isHeld : String → Bool

/-- The storage of the origin. -/
structure Storage where
  kv : AList fun _ : String => Bytes
  files : String → Option Bytes

/-- `LEASE_TTL_MS`. -/
def leaseTtlMs : ℕ := 2 * 60 * 1000

/-- `INDEX_PREFIX`. -/
def indexPrefix : String := "index/"

/-- `lock_name`. -/
def lockName (id : String) : String := "pm-device-" ++ id

/-- `namespace`. -/
def namespaceOf (id : String) : String := "/" ++ id

/-- `gen_dir`. -/
def genDir (id : String) (generation : ℕ) : String :=
  namespaceOf id ++ "/gen-" ++ toString generation

/-- `journal_path`. -/
def journalPath (id : String) (sequence : ℕ) : String :=
  namespaceOf id ++ "/engine/" ++ toString sequence

/-- `Platform::keys`. -/
def Storage.keys (s : Storage) (start : String) : List String :=
  s.kv.keys.filter fun key => start.toList <+: key.toList

/-! ## The sweep -/

variable (seams : Seams)

/-- `rows`. -/
def rows (s : Storage) : List IndexRow :=
  ((s.keys indexPrefix).mergeSort fun a b => decide (a ≤ b)).filterMap fun key =>
    (s.kv.lookup key).bind seams.decodeRow

/-- `pointer`. -/
def pointer (s : Storage) (id : String) : Except Error (Option Pointer) :=
  match s.kv.lookup (pointerKey id) with
  | none => .ok none
  | some bytes =>
    match seams.decodePointer bytes with
    | some pointer => .ok (some pointer)
    | none => .error ⟨.failed, "this device's commit pointer is invalid"⟩

/-- The files of a generation, which `remove_generation` removes. -/
def generationFiles (id : String) (generation : ℕ) : List String :=
  [genDir id generation ++ "/MANIFEST", genDir id generation ++ "/state"]

/-- The files `checkpoint::destroy` removes. A directory that is not empty stays. -/
def removals (id : String) (pointer : Pointer) : List String :=
  -- `destroy_engine`, from the first sequence to `head.saturating_add(1)`
  (List.range (min (pointer.engineHead + 1) (2 ^ 64 - 1))).map (fun n => journalPath id (n + 1)) ++
    (((List.range 4).map fun back => (pointer.generation + 1) % 2 ^ 64 - back).filter
      (0 < ·)).flatMap (generationFiles id)

/-- `destroy`. The row goes last. -/
def destroy (s : Storage) (id : String) : Except Error Storage := do
  let pointer := (← pointer seams s id).getD {}
  let files := (removals id pointer).foldl (fun files path => Function.update files path none)
    s.files
  let kv := (s.keys (devPrefix id)).foldl (fun kv key => kv.erase key) s.kv
  return { kv := kv.erase (indexKey id), files }

variable (ours : String) (now : ℕ)

/-- The loop of `sweep`, over the rows it has read. -/
def sweepRows : List IndexRow → Storage → Except Error (List String × Storage)
  | [], s => .ok ([], s)
  | row :: rest, s =>
    if row.id = ours ∨ row.tier ≠ .ephemeral then sweepRows rest s
    else if now - row.lastUsed ≤ leaseTtlMs then sweepRows rest s
    else if seams.isHeld (lockName row.id) then sweepRows rest s
    else do
      let s ← destroy seams s row.id
      let (swept, s) ← sweepRows rest s
      return (row.id :: swept, s)

/-- `sweep`. -/
def sweep (s : Storage) : Except Error (List String × Storage) :=
  sweepRows seams ours now (rows seams s) s

/-- The row is one of a device that is ephemeral, stale and unlocked and is not the booting one. -/
def Abandoned (row : IndexRow) : Prop :=
  row.id ≠ ours ∧ row.tier = .ephemeral ∧ leaseTtlMs < now - row.lastUsed ∧
    seams.isHeld (lockName row.id) = false

instance (row : IndexRow) : Decidable (Abandoned seams ours now row) :=
  inferInstanceAs (Decidable (_ ∧ _))

/-- The ids in the abandoned rows of a list. -/
def abandonedIds (read : List IndexRow) : List String :=
  (read.filter fun row => Abandoned seams ours now row).map IndexRow.id

/-- The ids in the abandoned rows, in the order of their keys. -/
def named (s : Storage) : List String :=
  abandonedIds seams ours now (rows seams s)

/-! ## What is to be swept -/

/-- A small record of a device or its row. -/
def RecordOf (id key : String) : Prop :=
  key = indexKey id ∨ ∃ name : String, '/' ∉ name.toList ∧ key = devPrefix id ++ name

/-- A file of a device. -/
def FileOf (id path : String) : Prop :=
  ∃ n, path = journalPath id n ∨ path ∈ generationFiles id n

/-- The device's own row is readable and abandoned. -/
def Condemned (s : Storage) (id : String) : Prop :=
  ∃ row, (s.kv.lookup (indexKey id)).bind seams.decodeRow = some row ∧
    Abandoned seams ours now { row with id }

/-- A sweep has destroyed the condemned devices and left everything of the others alone. -/
structure Swept (s : Storage) (ids : List String) (s' : Storage) : Prop where
  swept : ∀ id, id ∈ ids ↔ Condemned seams ours now s id
  gone : ∀ id, Condemned seams ours now s id → ∀ key, RecordOf id key → s'.kv.lookup key = none
  kept : ∀ id, ¬ Condemned seams ours now s id →
    (∀ key, RecordOf id key → s'.kv.lookup key = s.kv.lookup key) ∧
      ∀ path, FileOf id path → s'.files path = s.files path

/-- The sweep goes through and is exact. -/
def Exact (s : Storage) : Prop :=
  ∃ ids s', sweep seams ours now s = .ok (ids, s') ∧ Swept seams ours now s ids s'

/-- The pointer is absent, or it is one. -/
def Readable (s : Storage) (id : String) : Prop :=
  ∀ bytes, s.kv.lookup (pointerKey id) = some bytes → (seams.decodePointer bytes).isSome


/-! ## Paths -/

/-- What ends in digits after something else is cut in one way only. -/
theorem append_digits_inj {a b : List Char} {m n : ℕ} {c : Char} (hc : c.isDigit = false)
    (h : a ++ c :: (toString m).toList = b ++ c :: (toString n).toList) : a = b := by
  have hdigit (k : ℕ) : ∀ d ∈ (toString k).toList.reverse, d.isDigit = true := by
    intro d hd
    rw [List.mem_reverse, Nat.toString_eq_repr, Nat.toList_repr] at hd
    exact Nat.isDigit_of_mem_toDigits (by decide) (by decide) hd
  -- read from its end, the digits are what comes before the first character that is none
  have hdrop (a : List Char) (k : ℕ) :
      ((a ++ c :: (toString k).toList).reverse).dropWhile Char.isDigit = c :: a.reverse := by
    rw [List.reverse_append, List.reverse_cons, List.append_assoc, List.singleton_append,
      List.dropWhile_append_of_pos (hdigit k), List.dropWhile_cons_of_neg]
    simp [hc]
  have hreverse := congrArg (fun chars => chars.reverse.dropWhile Char.isDigit) h
  simp only [hdrop] at hreverse
  exact List.reverse_inj.1 (List.cons.inj hreverse).2

theorem toList_journalPath (id : String) (n : ℕ) : (journalPath id n).toList =
    ('/' :: id.toList ++ "/engine".toList) ++ '/' :: (toString n).toList := by
  simp [journalPath, namespaceOf, String.toList_append]

theorem toList_genDir (id : String) (n : ℕ) : (genDir id n).toList =
    ('/' :: id.toList ++ "/gen".toList) ++ '-' :: (toString n).toList := by
  simp [genDir, namespaceOf, String.toList_append]

theorem id_eq_of_journalPath_eq {id id' : String} {m n : ℕ}
    (h : journalPath id m = journalPath id' n) : id = id' := by
  have hlists := congrArg String.toList h
  rw [toList_journalPath, toList_journalPath] at hlists
  have hcut := append_digits_inj (by decide) hlists
  exact String.toList_inj.1 (List.cons.inj (List.append_cancel_right hcut)).2

theorem id_eq_of_genDir_eq {id id' : String} {m n : ℕ} (h : genDir id m = genDir id' n) :
    id = id' := by
  have hlists := congrArg String.toList h
  rw [toList_genDir, toList_genDir] at hlists
  have hcut := append_digits_inj (by decide) hlists
  exact String.toList_inj.1 (List.cons.inj (List.append_cancel_right hcut)).2

theorem append_right_inj {a b c : String} (h : a ++ c = b ++ c) : a = b := by
  have hlists := congrArg String.toList h
  rw [String.toList_append, String.toList_append] at hlists
  exact String.toList_inj.1 (List.append_cancel_right hlists)

theorem getLast?_journalPath (id : String) (n : ℕ) :
    ∃ c, (journalPath id n).toList.getLast? = some c ∧ c.isDigit = true := by
  have hne : (toString n).toList ≠ [] := by
    rw [Nat.toString_eq_repr, Nat.toList_repr]
    exact Nat.toDigits_ne_nil
  refine ⟨(toString n).toList.getLast hne, ?_, ?_⟩
  · rw [toList_journalPath, List.getLast?_append_of_ne_nil _ (List.cons_ne_nil _ _),
      List.getLast?_cons, List.getLast?_eq_some_getLast hne, Option.getD_some]
  · have hmem := List.getLast_mem hne
    simp only [Nat.toString_eq_repr, Nat.toList_repr] at hmem ⊢
    exact Nat.isDigit_of_mem_toDigits (by decide) (by decide) hmem

theorem getLast?_append {dir last : String} {c : Char} (hlast : last.toList.getLast? = some c) :
    (dir ++ last).toList.getLast? = some c := by
  rw [String.toList_append, List.getLast?_append, hlast, Option.some_or]

theorem manifest_ne_state (dir dir' : String) : dir ++ "/MANIFEST" ≠ dir' ++ "/state" := by
  intro h
  have hmanifest : (dir ++ "/MANIFEST").toList.getLast? = some 'T' := getLast?_append rfl
  rw [h, getLast?_append (c := 'e') rfl] at hmanifest
  exact absurd hmanifest (by decide)

theorem journalPath_notMem (id : String) (n : ℕ) (id' : String) (m : ℕ) :
    journalPath id n ∉ generationFiles id' m := by
  obtain ⟨c, hc, hdigit⟩ := getLast?_journalPath id n
  intro h
  simp only [generationFiles, List.mem_cons, List.not_mem_nil, or_false] at h
  rcases h with h | h
  · rw [h, getLast?_append (c := 'T') rfl] at hc
    obtain rfl := Option.some.inj hc
    exact absurd hdigit (by decide)
  · rw [h, getLast?_append (c := 'e') rfl] at hc
    obtain rfl := Option.some.inj hc
    exact absurd hdigit (by decide)

theorem id_eq_of_mem_generationFiles {id id' path : String} {m n : ℕ}
    (h : path ∈ generationFiles id m) (h' : path ∈ generationFiles id' n) : id = id' := by
  simp only [generationFiles, List.mem_cons, List.not_mem_nil, or_false] at h h'
  rcases h with rfl | rfl
  · rcases h' with h' | h'
    · exact id_eq_of_genDir_eq (append_right_inj h')
    · exact absurd h' (manifest_ne_state _ _)
  · rcases h' with h' | h'
    · exact absurd h'.symm (manifest_ne_state _ _)
    · exact id_eq_of_genDir_eq (append_right_inj h')

/-- A file belongs to one device. -/
theorem FileOf.id_eq {id id' path : String} (h : FileOf id path) (h' : FileOf id' path) :
    id = id' := by
  obtain ⟨m, rfl | hm⟩ := h
  · obtain ⟨n, hn | hn⟩ := h'
    · exact id_eq_of_journalPath_eq hn
    · exact absurd hn (journalPath_notMem _ _ _ _)
  · obtain ⟨n, rfl | hn⟩ := h'
    · exact absurd hm (journalPath_notMem _ _ _ _)
    · exact id_eq_of_mem_generationFiles hm hn

theorem fileOf_of_mem_removals {id path : String} {pointer : Pointer}
    (h : path ∈ removals id pointer) : FileOf id path := by
  rcases List.mem_append.1 h with h | h
  · obtain ⟨n, -, rfl⟩ := List.mem_map.1 h
    exact ⟨n + 1, .inl rfl⟩
  · obtain ⟨n, -, hn⟩ := List.mem_flatMap.1 h
    exact ⟨n, .inr hn⟩

/-! ## Destroying one device -/

variable {seams : Seams} {s s' : Storage} {id key path : String}

theorem foldl_update_none (files : String → Option Bytes) (paths : List String) (path : String) :
    paths.foldl (fun files path => Function.update files path none) files path =
      if path ∈ paths then none else files path := by
  induction paths generalizing files with
  | nil => simp
  | cons first rest ih =>
    rw [List.foldl_cons, ih]
    by_cases hfirst : path = first
    · simp [hfirst]
    · simp [hfirst]

theorem lookup_foldl_erase (kv : AList fun _ : String => Bytes) (keys : List String)
    (key : String) : (keys.foldl (fun kv key => kv.erase key) kv).lookup key =
      if key ∈ keys then none else kv.lookup key := by
  induction keys generalizing kv with
  | nil => simp
  | cons first rest ih =>
    rw [List.foldl_cons, ih]
    by_cases hfirst : key = first
    · subst hfirst
      simp
    · simp [hfirst, AList.lookup_erase_ne]

theorem mem_keys {start : String} :
    key ∈ s.keys start ↔ key ∈ s.kv ∧ start.toList <+: key.toList := by
  rw [Storage.keys, List.mem_filter, AList.mem_keys, decide_eq_true_eq]

theorem pointer_eq_ok {found : Option Pointer} (h : pointer seams s id = .ok found) :
    Readable seams s id := by
  intro bytes hbytes
  rw [pointer, hbytes] at h
  dsimp only at h
  split at h
  next heq => exact Option.isSome_of_eq_some heq
  · exact (nomatch h)

theorem Readable.pointer_eq (h : Readable seams s id) :
    ∃ found, pointer seams s id = .ok found := by
  rcases hbytes : s.kv.lookup (pointerKey id) with _ | bytes
  · exact ⟨none, by rw [pointer, hbytes]⟩
  · obtain ⟨p, hp⟩ := Option.isSome_iff_exists.1 (h bytes hbytes)
    exact ⟨some p, by rw [pointer, hbytes]; dsimp only; rw [hp]⟩

theorem destroy_isOk_iff : (∃ s', destroy seams s id = .ok s') ↔ Readable seams s id := by
  constructor
  · rintro ⟨s', h⟩
    obtain ⟨found, hpointer, -⟩ := except_bind_eq_ok.1 h
    exact pointer_eq_ok hpointer
  · intro h
    obtain ⟨found, hpointer⟩ := h.pointer_eq
    exact ⟨_, except_bind_eq_ok.2 ⟨found, hpointer, rfl⟩⟩

theorem lookup_destroy (h : destroy seams s id = .ok s') (key : String) :
    s'.kv.lookup key = if Owned id key then none else s.kv.lookup key := by
  obtain ⟨found, -, h⟩ := except_bind_eq_ok.1 h
  obtain rfl := Except.ok.inj h
  dsimp only
  by_cases hrow : key = indexKey id
  · rw [hrow, AList.lookup_erase, if_pos (Destruction.owned_indexKey id)]
  rw [AList.lookup_erase_ne hrow, lookup_foldl_erase]
  by_cases howned : Owned id key
  · rw [if_pos howned]
    -- what is not there is not removed, and is not there afterwards
    by_cases hmem : key ∈ s.kv
    · rw [if_pos (mem_keys.2 ⟨hmem, howned.resolve_right hrow⟩)]
    · rw [AList.lookup_eq_none.2 hmem, ite_self]
  · rw [if_neg howned, if_neg fun hmem => howned (.inl (mem_keys.1 hmem).2)]

theorem files_destroy {found : Option Pointer} (hpointer : pointer seams s id = .ok found)
    (h : destroy seams s id = .ok s') (path : String) :
    s'.files path = if path ∈ removals id (found.getD {}) then none else s.files path := by
  obtain ⟨found', hpointer', h⟩ := except_bind_eq_ok.1 h
  obtain rfl := Except.ok.inj (hpointer.symm.trans hpointer')
  obtain rfl := Except.ok.inj h
  exact foldl_update_none _ _ _

/-! ## Destroying one after the other -/

/-- A list of ids, destroyed in its order. -/
def destroyAll (seams : Seams) (s : Storage) (ids : List String) : Except Error Storage :=
  ids.foldlM (destroy seams) s

theorem destroyAll_cons (id : String) (ids : List String) : destroyAll seams s (id :: ids) =
    destroy seams s id >>= fun t => destroyAll seams t ids :=
  List.foldlM_cons

theorem destroyAll_cons_eq_ok {ids : List String} :
    destroyAll seams s (id :: ids) = .ok s' ↔
      ∃ t, destroy seams s id = .ok t ∧ destroyAll seams t ids = .ok s' := by
  rw [destroyAll_cons, except_bind_eq_ok]

theorem owned_pointerKey_iff {id' : String} :
    Owned id (pointerKey id') ↔ (devPrefix id).toList <+: (pointerKey id').toList :=
  or_iff_left (Destruction.devPrefix_append_ne_indexKey id' "gen")

/-- Destroying a device deletes pointers, and a pointer that is gone is no obstacle. -/
theorem readable_destroy {id' : String} (h : destroy seams s id = .ok s') :
    Readable seams s' id' ↔
      Readable seams s id' ∨ (devPrefix id).toList <+: (pointerKey id').toList := by
  simp only [Readable, lookup_destroy h, owned_pointerKey_iff]
  by_cases hunder : (devPrefix id).toList <+: (pointerKey id').toList
  · simp [hunder]
  · simp [hunder]

theorem pointer_destroy {id' : String} (h : destroy seams s id = .ok s')
    (hunder : ¬ (devPrefix id).toList <+: (pointerKey id').toList) :
    pointer seams s' id' = pointer seams s id' := by
  rw [pointer, pointer, lookup_destroy h,
    if_neg fun howned => hunder (owned_pointerKey_iff.1 howned)]

theorem destroyAll_isOk_iff {ids : List String} : (∃ s', destroyAll seams s ids = .ok s') ↔
    ∀ before id after, ids = before ++ id :: after →
      Readable seams s id ∨ ∃ x ∈ before, (devPrefix x).toList <+: (pointerKey id).toList := by
  induction ids generalizing s with
  | nil =>
    refine iff_of_true ⟨s, rfl⟩ fun before id after h => ?_
    simp at h
  | cons first rest ih =>
    simp only [destroyAll_cons_eq_ok]
    constructor
    · rintro ⟨s', t, hfirst, hrest⟩ before id after heq
      rcases before with _ | ⟨x, before⟩
      · obtain ⟨rfl, -⟩ := List.cons.inj heq
        exact .inl (destroy_isOk_iff.1 ⟨t, hfirst⟩)
      obtain ⟨rfl, rfl⟩ := List.cons.inj heq
      rcases ih.1 ⟨s', hrest⟩ before id after rfl with hreadable | ⟨y, hy, hunder⟩
      · exact ((readable_destroy hfirst).1 hreadable).imp_right fun hunder =>
          ⟨first, List.mem_cons_self, hunder⟩
      · exact .inr ⟨y, List.mem_cons_of_mem _ hy, hunder⟩
    · intro h
      have hfirst := (h [] first rest rfl).resolve_right (by simp)
      obtain ⟨t, ht⟩ := destroy_isOk_iff.2 hfirst
      obtain ⟨s', hs'⟩ := (ih (s := t)).2 fun before id after heq => by
        rw [readable_destroy ht]
        rcases h (first :: before) id after (by rw [heq, List.cons_append]) with
          hreadable | ⟨x, hx, hunder⟩
        · exact .inl (.inl hreadable)
        · rcases List.mem_cons.1 hx with rfl | hx
          · exact .inl (.inr hunder)
          · exact .inr ⟨x, hx, hunder⟩
      exact ⟨s', t, ht, hs'⟩

/-- What is gone from the shared records is what the ids own. -/
theorem lookup_destroyAll {ids : List String} (h : destroyAll seams s ids = .ok s') (key : String) :
    s'.kv.lookup key = if ∃ id ∈ ids, Owned id key then none else s.kv.lookup key := by
  induction ids generalizing s with
  | nil =>
    obtain rfl := Except.ok.inj h
    simp
  | cons first rest ih =>
    obtain ⟨t, hfirst, hrest⟩ := destroyAll_cons_eq_ok.1 h
    rw [ih hrest, lookup_destroy hfirst]
    by_cases howned : Owned first key
    · simp [howned]
    · simp [howned]

/-- What is gone of the files belongs to the ids. -/
theorem files_destroyAll {ids : List String} (h : destroyAll seams s ids = .ok s') {path : String}
    (hpath : ∀ id ∈ ids, ¬ FileOf id path) : s'.files path = s.files path := by
  induction ids generalizing s with
  | nil =>
    obtain rfl := Except.ok.inj h
    rfl
  | cons first rest ih =>
    obtain ⟨t, hfirst, hrest⟩ := destroyAll_cons_eq_ok.1 h
    obtain ⟨hpath_first, hpath_rest⟩ := List.forall_mem_cons.1 hpath
    obtain ⟨found, hpointer⟩ := (destroy_isOk_iff.1 ⟨t, hfirst⟩).pointer_eq
    rw [ih hrest hpath_rest, files_destroy hpointer hfirst,
      if_neg fun hmem => hpath_first (fileOf_of_mem_removals hmem)]

/-- A file that is gone does not come back. -/
theorem files_destroyAll_of_none {ids : List String} (h : destroyAll seams s ids = .ok s')
    {path : String} (hpath : s.files path = none) : s'.files path = none := by
  induction ids generalizing s with
  | nil =>
    obtain rfl := Except.ok.inj h
    exact hpath
  | cons first rest ih =>
    obtain ⟨t, hfirst, hrest⟩ := destroyAll_cons_eq_ok.1 h
    obtain ⟨found, hpointer⟩ := (destroy_isOk_iff.1 ⟨t, hfirst⟩).pointer_eq
    refine ih hrest ?_
    rw [files_destroy hpointer hfirst, hpath, ite_self]

/-- The files that the pointer of a device names go with it, where no device before it takes the
pointer away. -/
theorem files_destroyAll_of_mem {ids : List String} (h : destroyAll seams s ids = .ok s')
    (hid : id ∈ ids)
    (hpointer_kept : ∀ x ∈ ids, x ≠ id → ¬ (devPrefix x).toList <+: (pointerKey id).toList)
    {found : Option Pointer} (hpointer : pointer seams s id = .ok found)
    (hpath : path ∈ removals id (found.getD {})) : s'.files path = none := by
  induction ids generalizing s with
  | nil => exact absurd hid List.not_mem_nil
  | cons first rest ih =>
    obtain ⟨t, hfirst, hrest⟩ := destroyAll_cons_eq_ok.1 h
    obtain ⟨hkept_first, hkept_rest⟩ := List.forall_mem_cons.1 hpointer_kept
    by_cases heq : first = id
    · subst heq
      refine files_destroyAll_of_none hrest ?_
      rw [files_destroy hpointer hfirst, if_pos hpath]
    · refine ih hrest ((List.mem_cons.1 hid).resolve_left (Ne.symm heq)) hkept_rest ?_
      rw [pointer_destroy hfirst (hkept_first heq), hpointer]

/-! ## The sweep removes what its rows name -/

variable {ours : String} {now : ℕ}

theorem sweepRows_eq (read : List IndexRow) (s : Storage) : sweepRows seams ours now read s =
    (destroyAll seams s (abandonedIds seams ours now read)).map
      (abandonedIds seams ours now read, ·) := by
  induction read generalizing s with
  | nil => rfl
  | cons row rest ih =>
    rw [sweepRows]
    by_cases habandoned : Abandoned seams ours now row
    · rw [abandonedIds, List.filter_cons_of_pos (by simpa using habandoned), List.map_cons,
        ← abandonedIds, destroyAll_cons]
      obtain ⟨hother, htier, hstale, hfree⟩ := habandoned
      rw [if_neg (by simp [hother, htier]), if_neg (by omega), if_neg (by simp [hfree])]
      rcases destroy seams s row.id with e | t
      · rfl
      show (sweepRows seams ours now rest t >>= _) = (destroyAll seams t _).map _
      rw [ih]
      rcases destroyAll seams t (abandonedIds seams ours now rest) with e | t'
      · rfl
      · rfl
    · rw [abandonedIds, List.filter_cons_of_neg (by simpa using habandoned), ← abandonedIds]
      -- one of the three tests leaves the row out
      split_ifs with hother hfresh hheld
      · exact ih s
      · exact ih s
      · exact ih s
      · rw [not_or, not_not] at hother
        rw [Bool.not_eq_true] at hheld
        exact absurd ⟨hother.1, hother.2, by omega, hheld⟩ habandoned

theorem sweep_eq_ok {ids : List String} : sweep seams ours now s = .ok (ids, s') ↔
    ids = named seams ours now s ∧ destroyAll seams s ids = .ok s' := by
  have hsweep : sweep seams ours now s =
      (destroyAll seams s (named seams ours now s)).map (named seams ours now s, ·) :=
    sweepRows_eq _ s
  rw [hsweep]
  constructor
  · intro h
    rcases hall : destroyAll seams s (named seams ours now s) with e | t
    · rw [hall] at h
      exact (nomatch h)
    · rw [hall] at h
      obtain ⟨rfl, rfl⟩ := Prod.mk.inj (Except.ok.inj h)
      exact ⟨rfl, hall⟩
  · rintro ⟨rfl, hall⟩
    rw [hall]
    rfl

/-! ## When a sweep is exact -/

theorem RecordOf.owned (h : RecordOf id key) : Owned id key := by
  rcases h with rfl | ⟨name, -, rfl⟩
  · exact Destruction.owned_indexKey id
  · exact Destruction.owned_append id name

theorem indexKey_inj {id id' : String} (h : indexKey id = indexKey id') : id = id' := by
  have hlists := congrArg String.toList h
  rw [indexKey, indexKey, String.toList_append, String.toList_append] at hlists
  exact String.toList_inj.1 (List.append_cancel_left hlists)

theorem RecordOf.eq_of_indexKey {id' : String} (h : RecordOf id' (indexKey id)) : id' = id := by
  rcases h with h | ⟨name, -, h⟩
  · exact (indexKey_inj h).symm
  · exact absurd h.symm (Destruction.devPrefix_append_ne_indexKey _ _)

/-- The sweep goes through, destroys exactly the devices that are ephemeral, stale and unlocked and
not the booting one, and changes nothing of any other, if and only if every pointer that it reads is
one, the ids in the rows are those of the devices that have the rows, and no record of a device that
stays lies under the prefix of one that goes. The files that the pointers name then go too. -/
theorem sweep_exact_iff (seams : Seams) (ours : String) (now : ℕ) (s : Storage) :
    (Exact seams ours now s ↔
      (∀ before id after, named seams ours now s = before ++ id :: after →
        Readable seams s id ∨ ∃ x ∈ before, (devPrefix x).toList <+: (pointerKey id).toList) ∧
      (∀ id, id ∈ named seams ours now s ↔ Condemned seams ours now s id) ∧
      ∀ x ∈ named seams ours now s, ∀ id key, RecordOf id key →
        (devPrefix x).toList <+: key.toList → key ∈ s.kv → Condemned seams ours now s id) ∧
    ∀ ids s', sweep seams ours now s = .ok (ids, s') → ∀ id ∈ ids,
      (∀ x ∈ ids, x ≠ id → ¬ (devPrefix x).toList <+: (pointerKey id).toList) →
        ∀ found, pointer seams s id = .ok found → ∀ path ∈ removals id (found.getD {}),
          s'.files path = none := by
  refine ⟨⟨?_, ?_⟩, ?_⟩
  · rintro ⟨ids, s', hsweep, hswept⟩
    obtain ⟨rfl, hall⟩ := sweep_eq_ok.1 hsweep
    refine ⟨destroyAll_isOk_iff.1 ⟨s', hall⟩, hswept.swept, ?_⟩
    intro x hx id key hrecord hunder hmem
    by_contra hstays
    -- the record of a device that stays would be gone with the records of `x`
    have hgone : s'.kv.lookup key = none := by
      rw [lookup_destroyAll hall, if_pos ⟨x, hx, .inl hunder⟩]
    rw [(hswept.kept id hstays).1 key hrecord] at hgone
    exact AList.lookup_eq_none.1 hgone hmem
  · rintro ⟨hreadable, hnamed, hapart⟩
    obtain ⟨s', hall⟩ := destroyAll_isOk_iff.2 hreadable
    refine ⟨_, s', sweep_eq_ok.2 ⟨rfl, hall⟩, hnamed, ?_, ?_⟩
    · intro id hcondemned key hrecord
      rw [lookup_destroyAll hall, if_pos ⟨id, (hnamed id).2 hcondemned, hrecord.owned⟩]
    · intro id hstays
      refine ⟨fun key hrecord => ?_, fun path hfile => ?_⟩
      · rw [lookup_destroyAll hall]
        split_ifs with howned
        · obtain ⟨x, hx, hunder | rfl⟩ := howned
          · symm
            exact AList.lookup_eq_none.2 fun hmem => hstays (hapart x hx id key hrecord hunder hmem)
          · obtain rfl := hrecord.eq_of_indexKey
            exact absurd ((hnamed id).1 hx) hstays
        · rfl
      · apply files_destroyAll hall
        intro x hx hfile'
        obtain rfl := hfile.id_eq hfile'
        exact absurd ((hnamed id).1 hx) hstays
  · intro ids s' hsweep id hid hkept found hpointer path hpath
    exact files_destroyAll_of_mem (sweep_eq_ok.1 hsweep).2 hid hkept hpointer hpath

/-! ## A pointer of another version -/

/-- The row of a device that was left behind. -/
def abandonedRow : Bytes :=
  ("\x7b\"id\":\"b\",\"petname\":\"\",\"tier\":\"ephemeral\",\"rest\":\"rests-open\"," ++
    "\"created\":0,\"last_used\":0\x7d").toUTF8.toList

/-- A pointer without its journal. -/
def shortPointer : Bytes := "\x7b\"generation\":1\x7d".toUTF8.toList

def exampleSeams : Seams where
  decodeRow bytes := if bytes = abandonedRow then some ⟨"b", .ephemeral, 0⟩ else none
  decodePointer _ := none
  isHeld _ := false

def exampleStorage : Storage where
  kv := ⟨[⟨"index/b", abandonedRow⟩, ⟨"dev/b/gen", shortPointer⟩], by simp⟩
  files _ := none

/-- A pointer that another version has written stops the sweep, and with it every boot. -/
theorem foreign_pointer_stops_sweep :
    sweep exampleSeams "a" 200000 exampleStorage =
      .error ⟨.failed, "this device's commit pointer is invalid"⟩ ∧
    ¬ Exact exampleSeams "a" 200000 exampleStorage := by
  have hkeys : exampleStorage.keys indexPrefix = ["index/b"] := by decide
  have hrows : rows exampleSeams exampleStorage = [⟨"b", .ephemeral, 0⟩] := by
    rw [rows, hkeys, List.mergeSort_singleton]
    have hrow : exampleStorage.kv.lookup "index/b" = some abandonedRow := by rfl
    have hdecoded : exampleSeams.decodeRow abandonedRow = some ⟨"b", .ephemeral, 0⟩ := if_pos rfl
    rw [List.filterMap_cons, hrow, Option.bind_some, hdecoded]
    rfl
  have hpointer : exampleStorage.kv.lookup (pointerKey "b") = some shortPointer := by rfl
  have hsweep : sweep exampleSeams "a" 200000 exampleStorage =
      .error ⟨.failed, "this device's commit pointer is invalid"⟩ := by
    have hdestroy : destroy exampleSeams exampleStorage "b" =
        .error ⟨.failed, "this device's commit pointer is invalid"⟩ := by
      rw [destroy, pointer, hpointer]
      rfl
    rw [sweep, hrows, sweepRows, if_neg (by decide), if_neg (by decide), if_neg (by decide),
      hdestroy]
    rfl
  refine ⟨hsweep, ?_⟩
  rintro ⟨ids, s', h, -⟩
  rw [hsweep] at h
  exact (nomatch h)

end Polyvisor.Sweep
