import Polyvisor.Kernel.Anchor
import Polyvisor.Kernel.Keep

/-!
# Destroying a device

`destroy` of `kernel/src/store.rs` and of `kernel/src/checkpoint.rs`, after any run of boots,
persists, keeps and unseals, each of which may stop after any single effect. No directory is listed:
`destroy` removes the files whose names follow from the pointer, and the small records that are
there under the device's prefix.

The three small records a `keep` changes and the lease are changed one at a time, between any two
other steps. A boot that goes through leaves a device open or sealed; one that stops on the way is
a crash.

## Main results

* `files_destroy`: `destroy` removes the files that the pointer covers, and no others.
* `inv_step`: the files there are stay covered by the pointer, in steps that are tidy.
* `destroy_leaves_nothing`: after a run of tidy steps `destroy` leaves nothing of the device.
-/

namespace Polyvisor.Destruction

open CrashStore Anchor
open Keep (IndexRow)

variable {B V S : Type}

/-! ## Names -/

/-- `index_key`. -/
def indexKey (id : String) : String := "index/" ++ id

/-- `dek_key`. -/
def dekKey (id : String) : String := devPrefix id ++ "dek"

/-- `dek_wrapped_key`. -/
def dekWrappedKey (id : String) : String := devPrefix id ++ "dek-wrapped"

/-- The keys of a device: its small records and its index row. -/
def Owned (id key : String) : Prop :=
  (devPrefix id).toList <+: key.toList ∨ key = indexKey id

instance (id key : String) : Decidable (Owned id key) :=
  inferInstanceAs (Decidable (_ ∨ _))

theorem owned_append (id name : String) : Owned id (devPrefix id ++ name) := by
  left
  rw [String.toList_append]
  exact List.prefix_append ..

theorem owned_pointerKey (id : String) : Owned id (pointerKey id) := owned_append id "gen"
theorem owned_dekKey (id : String) : Owned id (dekKey id) := owned_append id "dek"
theorem owned_dekWrappedKey (id : String) : Owned id (dekWrappedKey id) :=
  owned_append id "dek-wrapped"
theorem owned_indexKey (id : String) : Owned id (indexKey id) := .inr rfl

theorem append_ne_append (first : String) {a b : String} (h : a ≠ b) : first ++ a ≠ first ++ b := by
  intro heq
  have hlists := congrArg String.toList heq
  rw [String.toList_append, String.toList_append] at hlists
  exact h (String.toList_inj.1 (List.append_cancel_left hlists))

theorem pointerKey_ne_dekKey (id : String) : pointerKey id ≠ dekKey id :=
  append_ne_append _ (by decide)

theorem pointerKey_ne_dekWrappedKey (id : String) : pointerKey id ≠ dekWrappedKey id :=
  append_ne_append _ (by decide)

/-- The index is outside every device's prefix. -/
theorem devPrefix_append_ne_indexKey (id name : String) {id' : String} :
    devPrefix id ++ name ≠ indexKey id' := by
  intro heq
  have hlists := congrArg String.toList heq
  simp only [devPrefix, indexKey, String.toList_append] at hlists
  exact absurd (congrArg List.head? hlists) (by simp)

/-! ## Destroying -/

/-- What the device reads and writes with, but for its data key. -/
structure Seams (B V S : Type) where
  aead : Aead
  formats : Formats B V S
  id : String
  encodeRow : IndexRow → Bytes
  decodeRow : Bytes → Except Error IndexRow

def Seams.io (seams : Seams B V S) (dek : Dek) : Io B V S :=
  ⟨seams.aead, seams.formats, dek, seams.id⟩

/-- `pointer`, which needs no data key. -/
def Seams.pointer (seams : Seams B V S) (disk : Disk) : Except Error (Option Pointer) :=
  match disk.cells (pointerKey seams.id) with
  | none => .ok none
  | some bytes =>
    match seams.formats.decodePointer bytes with
    | some pointer => .ok (some pointer)
    | none => .error ⟨.failed, "this device's commit pointer is invalid"⟩

theorem pointer_io (seams : Seams B V S) (dek : Dek) (disk : Disk) :
    (seams.io dek).pointer disk = seams.pointer disk := rfl

/-- The files `destroy` removes under a pointer: the journal up to one past the head, and the
generations from one past the pointed one to two before it. -/
def removals (pointer : Pointer) : List DiskEffect :=
  (List.range (pointer.engineHead + 1)).map (fun n => .remove (.engine (n + 1))) ++
    (((List.range 4).map fun back => pointer.generation + 1 - back).filter (0 < ·)).flatMap
      Io.removeGeneration

/-- `destroy`. -/
def destroy (seams : Seams B V S) (disk : Disk) : Except Error Disk := do
  let pointer := (← seams.pointer disk).getD {}
  let disk := (removals pointer).foldl (fun s e => e.apply s) disk
  return { disk with
    cells := fun key => if Owned seams.id key then none else disk.cells key }

/-- The files a pointer covers. -/
def Covers (pointer : Pointer) : Path → Prop
  | .state n | .manifest n => 0 < n ∧ pointer.generation ≤ n + 2 ∧ n ≤ pointer.generation + 1
  | .engine n => 0 < n ∧ n ≤ pointer.engineHead + 1

instance (pointer : Pointer) (path : Path) : Decidable (Covers pointer path) :=
  match path with
  | .state _ | .manifest _ => inferInstanceAs (Decidable (_ ∧ _))
  | .engine _ => inferInstanceAs (Decidable (_ ∧ _))

/-- The paths that `removals` names. -/
def removed (pointer : Pointer) : List Path :=
  (List.range (pointer.engineHead + 1)).map (fun n => .engine (n + 1)) ++
    (((List.range 4).map fun back => pointer.generation + 1 - back).filter (0 < ·)).flatMap
      fun n => [.manifest n, .state n]

theorem removals_eq (pointer : Pointer) :
    removals pointer = (removed pointer).map Effect.remove := by
  simp only [removals, removed, List.map_append, List.map_map, List.map_flatMap]
  rfl

theorem mem_removed {pointer : Pointer} {path : Path} :
    path ∈ removed pointer ↔ Covers pointer path := by
  have hwindow : ∀ n, (∃ back < 4, pointer.generation + 1 - back = n) ∧ 0 < n ↔
      0 < n ∧ pointer.generation ≤ n + 2 ∧ n ≤ pointer.generation + 1 := by
    intro n
    constructor
    · rintro ⟨⟨back, hback, rfl⟩, hpos⟩
      omega
    · rintro ⟨hpos, hlow, hhigh⟩
      exact ⟨⟨pointer.generation + 1 - n, by omega, by omega⟩, hpos⟩
  rcases path with n | n | n
  · show _ ↔ 0 < n ∧ pointer.generation ≤ n + 2 ∧ n ≤ pointer.generation + 1
    rw [← hwindow]
    simp [removed]
  · show _ ↔ 0 < n ∧ pointer.generation ≤ n + 2 ∧ n ≤ pointer.generation + 1
    rw [← hwindow]
    simp [removed]
  · show _ ↔ 0 < n ∧ n ≤ pointer.engineHead + 1
    simp only [removed, List.mem_append, List.mem_map, List.mem_range, List.mem_flatMap,
      List.mem_cons, List.not_mem_nil, reduceCtorEq, or_false, and_false, exists_false]
    constructor
    · rintro ⟨k, hk, heq⟩
      obtain rfl := Path.engine.inj heq
      omega
    · rintro ⟨hpos, hle⟩
      exact ⟨n - 1, by omega, congrArg Path.engine (by omega)⟩

/-- Removing files removes these, and nothing else. -/
theorem foldl_remove (disk : Disk) (paths : List Path) :
    (paths.map (Effect.remove : Path → DiskEffect)).foldl (fun s e => e.apply s) disk =
      { disk with files := fun path => if path ∈ paths then none else disk.files path } := by
  induction paths generalizing disk with
  | nil => simp
  | cons first rest ih =>
    rw [List.map_cons, List.foldl_cons, ih]
    show (⟨_, disk.cells⟩ : Disk) = ⟨_, disk.cells⟩
    congr 1
    funext path
    by_cases hfirst : path = first
    · subst hfirst
      simp [Effect.apply, Store.put]
    · simp [Effect.apply, Store.put, hfirst]

/-- `destroy` removes the files that the pointer covers, and no others. -/
theorem files_destroy {seams : Seams B V S} {disk : Disk} {found : Option Pointer}
    (hpointer : seams.pointer disk = .ok found) :
    destroy seams disk = .ok {
      files := fun path => if Covers (found.getD {}) path then none else disk.files path
      cells := fun key => if Owned seams.id key then none else disk.cells key } := by
  simp only [destroy, hpointer, removals_eq, foldl_remove, mem_removed]
  rfl

/-! ## The device -/

/-- What an open device holds in memory. -/
structure Memory where
  dek : Dek
  pointer : Pointer

structure Device where
  disk : Disk
  memory : Option Memory := none

/-- What a boot draws, and what becomes of its effects: of those before the anchor is drawn or the
state is read, of those that draw an anchor, and of the lease. -/
structure BootInput (S : Type) where
  dek : Dek
  draw : Draw S
  records : List (Fate Bytes)
  lease : List (Fate Bytes)

/-- A change of the small records by `keep`, or the lease. -/
inductive SmallRecord where
  | wrapped (bytes : Bytes)
  | row (row : IndexRow)
  | deleteDek

inductive Label (B V S : Type) where
  /-- The process starts, wherever the one before it has stopped. -/
  | boot (input : BootInput S)
  /-- `unseal`, with the key that the passphrase unwraps. -/
  | unwrap (dek : Dek)
  | persist (attempt : Attempt B V S)
  | record (record : SmallRecord)

namespace Device

variable (seams : Seams B V S)

/-- The end of a boot: the lease, and then the device is up. -/
def lease (row : IndexRow) (fates : List (Fate Bytes)) (disk : Disk) (memory : Memory) : Device :=
  match execute disk [(.set (indexKey seams.id) (seams.encodeRow row) : DiskEffect)] fates with
  | (disk, .completed) => { disk, memory := some memory }
  | (disk, _) => { disk }

/-- `mint`: the data key, the row, and the first generation. -/
def mint (input : BootInput S) (disk : Disk) : Device :=
  match execute disk [(.set (dekKey seams.id) input.dek.key : DiskEffect),
      .set (indexKey seams.id) (seams.encodeRow {})] input.records with
  | (disk, .completed) =>
    match mintAnchor (seams.io input.dek) input.draw disk with
    | (disk, some (_, generation)) => lease seams {} input.lease disk ⟨input.dek, ⟨generation, 0⟩⟩
    | (disk, none) => { disk }
  | (disk, _) => { disk }

/-- The records `resume` changes on a device that rests under a passphrase: an unwrapped key that
is still there goes, and the lease is renewed. -/
def sealedRecords (row : IndexRow) (disk : Disk) : List DiskEffect :=
  (if (disk.cells (dekKey seams.id)).isSome then [.delete (dekKey seams.id)] else []) ++
    [.set (indexKey seams.id) (seams.encodeRow row)]

/-- `resume`. -/
def resume (row : IndexRow) (input : BootInput S) (disk : Disk) : Device :=
  match row.rest with
  | .passphrase =>
    if (disk.cells (dekWrappedKey seams.id)).isSome then
      { disk := (execute disk (sealedRecords seams row disk) input.records).1 }
    else { disk }
  | .restsOpen =>
    match (disk.cells (dekKey seams.id)).map Dek.decode with
    | some (.ok dek) =>
      match (seams.io dek).loadJournal disk with
      | .ok c =>
        match openOrMint (seams.io dek) input.draw row.tier c.pointer.generation c.snapshot
            disk with
        | (disk, some (.ok (_, generation, _))) =>
          lease seams row input.lease disk ⟨dek, ⟨generation, c.pointer.engineHead⟩⟩
        | (disk, _) => { disk }
      | .error _ => { disk }
    | _ => { disk }

def boot (input : BootInput S) (disk : Disk) : Device :=
  match disk.cells (indexKey seams.id) with
  | none => mint seams input disk
  | some bytes =>
    match seams.decodeRow bytes with
    | .ok row => resume seams row input disk
    | .error _ => { disk }

/-- `unseal`: `open_or_mint` refuses to draw an anchor here. -/
def unwrap (d : Device) (dek : Dek) : Device :=
  match d.memory, (seams.io dek).loadJournal d.disk with
  | none, .ok c => if c.snapshot.isSome then { d with memory := some ⟨dek, c.pointer⟩ } else d
  | _, _ => d

/-- `persist`. A crash leaves no memory. -/
def persist (d : Device) (attempt : Attempt B V S) : Device :=
  match d.memory with
  | none => d
  | some m =>
    let io := seams.io m.dek
    let after := (Machine.persist io ⟨d.disk, m.pointer⟩ attempt).1
    match (execute d.disk (io.writePersistence m.pointer attempt.persist).effects
        attempt.fates).2 with
    | .crashed => { disk := after.disk }
    | _ => { disk := after.disk, memory := some ⟨m.dek, after.memory⟩ }

def effect : SmallRecord → DiskEffect
  | .wrapped bytes => .set (dekWrappedKey seams.id) bytes
  | .row row => .set (indexKey seams.id) (seams.encodeRow row)
  | .deleteDek => .delete (dekKey seams.id)

def record (d : Device) (record : SmallRecord) : Device :=
  match d.memory with
  | none => d
  | some _ => { d with disk := (effect seams record).apply d.disk }

def step (d : Device) : Label B V S → Device
  | .boot input => boot seams input d.disk
  | .unwrap dek => d.unwrap seams dek
  | .persist attempt => d.persist seams attempt
  | .record record => d.record seams record

end Device

/-! ## What a persist names -/

/-- The effect touches a file only if `Q` holds of it, and no cell but `key`. -/
def Stays (Q : Path → Prop) (key : String) (e : DiskEffect) : Prop :=
  e.Avoids (fun path => ¬ Q path) (· ≠ key)

theorem stays_write {Q : Path → Prop} {key : String} {path : Path} (h : Q path) (content : Bytes)
    (error : Error) : Stays Q key (.write path content error) :=
  not_not.2 h

theorem stays_remove {Q : Path → Prop} {key : String} {path : Path} (h : Q path) :
    Stays Q key (.remove path) :=
  not_not.2 h

theorem stays_andThen {Q : Path → Prop} {key : String} {first second : Plan}
    (hfirst : ∀ e ∈ first.effects, Stays Q key e) (hsecond : ∀ e ∈ second.effects, Stays Q key e) :
    ∀ e ∈ (first.andThen second).effects, Stays Q key e := by
  intro e he
  rw [Plan.andThen] at he
  split at he
  · exact hfirst e he
  · exact (List.mem_append.1 he).elim (hfirst e) (hsecond e)

theorem stays_writeEngine {Q : Path → Prop} {key : String} (io : Io B V S) (nonce : Nonce)
    {sequence : ℕ} (delta : EngineDelta B V) (h : Q (.engine sequence)) :
    ∀ e ∈ (io.writeEngine nonce sequence delta).effects, Stays Q key e := by
  intro e he
  rw [Io.writeEngine] at he
  split at he
  · cases he
  · split at he
    · cases he
    · obtain rfl := List.mem_singleton.1 he
      exact stays_write h _ _

theorem stays_write_generation {Q : Path → Prop} (io : Io B V S) (nonce : Nonce) (pointer : Pointer)
    (snapshot : S) (hstate : ∀ n, 0 < n → pointer.generation ≤ n + 2 → n ≤ pointer.generation →
      Q (.state n) ∧ Q (.manifest n)) (hpos : 0 < pointer.generation) :
    ∀ e ∈ (io.write nonce pointer snapshot).effects, Stays Q (pointerKey io.id) e := by
  have hwritten := hstate pointer.generation hpos (by omega) le_rfl
  have hcleanup : ∀ e ∈ Io.cleanup pointer.generation, Stays Q (pointerKey io.id) e := by
    intro e he
    simp only [Io.cleanup, List.mem_flatMap, List.mem_filter, List.mem_cons, List.not_mem_nil,
      or_false, decide_eq_true_eq] at he
    obtain ⟨old, ⟨hold, hold_pos⟩, he⟩ := he
    have hremoved := hstate old hold_pos (by omega) (by omega)
    simp only [Io.removeGeneration, List.mem_cons, List.not_mem_nil, or_false] at he
    rcases he with rfl | rfl
    · exact stays_remove hremoved.2
    · exact stays_remove hremoved.1
  intro e he
  rw [Io.write] at he
  split at he
  · cases he
  split at he
  · cases he
  split at he
  · cases he
  · simp only [List.cons_append, List.nil_append, List.mem_cons] at he
    rcases he with rfl | rfl | rfl | he
    · exact stays_write hwritten.1 _ _
    · exact stays_write hwritten.2 _ _
    · exact not_not.2 rfl
    · exact hcleanup e he

/-- A persist touches only files that are covered by the pointer it starts from and by the one it
commits. -/
theorem stays_writePersistence (io : Io B V S) (memory : Pointer) (p : Persist B V S) :
    ∀ e ∈ (io.writePersistence memory p).effects,
      Stays (fun path => Covers memory path ∧ Covers (p.pointer memory) path) (pointerKey io.id)
        e := by
  rw [Io.writePersistence]
  apply stays_andThen
  · rcases hprepared : p.prepared with _ | delta
    · exact fun e he => by cases he
    · refine stays_writeEngine io _ delta ⟨?_, ?_⟩
      · simp only [Covers, Persist.pointer, hprepared, Option.isSome_some, if_true]
        omega
      · simp only [Covers, Persist.pointer, hprepared, Option.isSome_some, if_true]
        omega
  · rcases hmetadata : p.metadata with _ | snapshot
    · intro e he
      dsimp only at he
      split at he
      · obtain rfl := List.mem_singleton.1 he
        exact not_not.2 rfl
      · cases he
    · refine stays_write_generation io _ _ _ (fun n hpos hlow hhigh => ?_) ?_
      · simp only [Covers, Persist.pointer, hmetadata, Option.isSome_some, if_true] at hlow hhigh ⊢
        omega
      · simp only [Persist.pointer, hmetadata, Option.isSome_some, if_true]
        omega

/-! ## What the disk holds -/

/-- The disk commits `p`, and its files are covered by it. -/
structure Held (seams : Seams B V S) (disk : Disk) (p : Pointer) : Prop where
  pointer : ∃ found, seams.pointer disk = .ok found ∧ p = found.getD {}
  files : ∀ path, disk.files path ≠ none → Covers p path

/-- What the device left alone: every key that is not its own. -/
def Foreign (seams : Seams B V S) (start disk : Disk) : Prop :=
  ∀ key, ¬ Owned seams.id key → disk.cells key = start.cells key

/-- Without a row there is no pointer. -/
def Rowed (seams : Seams B V S) (disk : Disk) : Prop :=
  disk.cells (indexKey seams.id) = none → disk.cells (pointerKey seams.id) = none

structure Kept (seams : Seams B V S) (start disk : Disk) : Prop where
  held : ∃ p, Held seams disk p
  foreign : Foreign seams start disk
  rowed : Rowed seams disk

structure Inv (seams : Seams B V S) (start : Disk) (d : Device) : Prop where
  disk : Kept seams start d.disk
  /-- An open device counts from what it can load. -/
  memory : ∀ m ∈ d.memory, ∃ c,
    Machine.Holds (seams.io m.dek) (Machine.mk d.disk m.pointer) c
  row : d.memory.isSome → (d.disk.cells (indexKey seams.id)).isSome

variable {seams : Seams B V S} {start disk disk' : Disk}

/-- A change of cells that leaves the pointer and the files. -/
theorem held_of_agree {p : Pointer} (h : Held seams disk p)
    (hagree : Agree (fun _ => True) (· = pointerKey seams.id) disk disk') : Held seams disk' p := by
  obtain ⟨found, hfound, hp⟩ := h.pointer
  refine ⟨⟨found, ?_, hp⟩, fun path hpath => h.files path ?_⟩
  · rw [← hfound, Seams.pointer, Seams.pointer, hagree.cells _ rfl]
  · rwa [hagree.files path trivial] at hpath

theorem holds_of_agree {dek : Dek} {p : Pointer} {c : Committed B V S}
    (h : Machine.Holds (seams.io dek) (Machine.mk disk p) c)
    (hagree : Agree (fun _ => True) (· = pointerKey seams.id) disk disk') :
    Machine.Holds (seams.io dek) (Machine.mk disk' p) c := by
  refine ⟨((seams.io dek).loadJournal_eq_ok_iff disk' c).2 ?_, h.memory⟩
  exact (seams.io dek).loadJournal_agree ⟨fun path _ => hagree.files path trivial, hagree.cells⟩
    (((seams.io dek).loadJournal_eq_ok_iff disk c).1 h.disk)

/-- What is on a disk is covered by whatever a program leaves committed, if the program stays within
it and what was there before is. -/
theorem held_execute {es : List DiskEffect} {fates : List (Fate Bytes)} {p : Pointer}
    {Q : Path → Prop} {key : String} (hstays : ∀ e ∈ es, Stays Q key e)
    (hQ : ∀ path, Q path → Covers p path)
    (hbefore : ∀ path, disk.files path ≠ none → ¬ Q path → Covers p path)
    (hpointer : ∃ found, seams.pointer (execute disk es fates).1 = .ok found ∧ p = found.getD {}) :
    Held seams (execute disk es fates).1 p := by
  refine ⟨hpointer, fun path hpath => ?_⟩
  by_cases hcovered : Q path
  · exact hQ path hcovered
  · have hagree : Agree (fun path => ¬ Q path) (· ≠ key) disk (execute disk es fates).1 :=
      execute_agree hstays fates
    rw [hagree.files path hcovered] at hpath
    exact hbefore path hpath hcovered

/-! ## Small records -/

/-- An effect on a small record that is not the pointer, and does not take the row away. -/
structure Small (seams : Seams B V S) (e : DiskEffect) : Prop where
  avoids : e.Avoids (fun _ => True) fun key => key = pointerKey seams.id ∨ ¬ Owned seams.id key
  row : e ≠ .delete (indexKey seams.id)

theorem small_set_row (seams : Seams B V S) (bytes : Bytes) :
    Small seams (.set (indexKey seams.id) bytes) where
  avoids h := h.elim (fun heq => devPrefix_append_ne_indexKey _ _ heq.symm)
    fun hforeign => hforeign (owned_indexKey _)
  row h := nomatch h

theorem small_set_dek (seams : Seams B V S) (bytes : Bytes) :
    Small seams (.set (dekKey seams.id) bytes) where
  avoids h := h.elim (fun heq => pointerKey_ne_dekKey _ heq.symm)
    fun hforeign => hforeign (owned_dekKey _)
  row h := nomatch h

theorem small_delete_dek (seams : Seams B V S) : Small seams (.delete (dekKey seams.id)) where
  avoids h := h.elim (fun heq => pointerKey_ne_dekKey _ heq.symm)
    fun hforeign => hforeign (owned_dekKey _)
  row h := devPrefix_append_ne_indexKey _ _ (Effect.delete.inj h)

theorem small_effect (seams : Seams B V S) (record : SmallRecord) :
    Small seams (Device.effect seams record) := by
  rcases record with bytes | row | _
  · refine ⟨fun h => ?_, fun h => nomatch h⟩
    exact h.elim (fun heq => pointerKey_ne_dekWrappedKey _ heq.symm)
      fun hforeign => hforeign (owned_dekWrappedKey _)
  · exact small_set_row seams _
  · exact small_delete_dek seams

/-- A program of such effects leaves the files and the pointer. -/
theorem agree_of_small (disk : Disk) {es : List DiskEffect} (hes : ∀ e ∈ es, Small seams e)
    (fates : List (Fate Bytes)) :
    Agree (fun _ => True) (fun key => key = pointerKey seams.id ∨ ¬ Owned seams.id key) disk
      (execute disk es fates).1 :=
  execute_agree (fun e he => (hes e he).avoids) fates

theorem kept_of_small {es : List DiskEffect} (h : Kept seams start disk)
    (hes : ∀ e ∈ es, Small seams e) (fates : List (Fate Bytes)) :
    Kept seams start (execute disk es fates).1 := by
  have hagree := agree_of_small disk hes fates
  obtain ⟨p, hheld⟩ := h.held
  refine ⟨⟨p, held_of_agree hheld ⟨hagree.files, ?_⟩⟩, ?_, ?_⟩
  · exact fun key hkey => hagree.cells key (.inl hkey)
  · exact fun key hkey => (hagree.cells key (.inr hkey)).trans (h.foreign key hkey)
  · intro hnone
    rw [hagree.cells _ (.inl rfl)]
    refine h.rowed (Option.not_isSome_iff_eq_none.1 fun hsome => ?_)
    have hstill := isSome_execute (fun e he => (hes e he).row) fates hsome
    rw [hnone] at hstill
    exact nomatch hstill

/-! ## Steps -/

theorem boot_disk (io : Io B V S) (m : Machine) (disk : Disk) : (m.boot io disk).disk = disk := by
  unfold Machine.boot
  split <;> rfl

theorem persist_disk (io : Io B V S) (m : Machine) (a : Attempt B V S) :
    (m.persist io a).1.disk =
      (execute m.disk (io.writePersistence m.memory a.persist).effects a.fates).1 := by
  rw [Machine.persist]
  split
  · next hexec =>
    rw [hexec]
    split <;> rfl
  · next hexec => rw [hexec]
  · next hexec =>
    rw [hexec]
    exact boot_disk io m _

theorem isSome_row_of_agree (hagree : Agree (fun _ => False) (· ≠ pointerKey seams.id) disk disk')
    (hrow : (disk.cells (indexKey seams.id)).isSome) :
    (disk'.cells (indexKey seams.id)).isSome := by
  rwa [hagree.cells _ fun heq => devPrefix_append_ne_indexKey _ _ heq.symm]

section Persist

variable {dek : Dek} {memory : Pointer} {c : Committed B V S}

/-- A persist of an open device leaves covered files, and whatever becomes of it the counters are
those a load reads. One of the metadata needs the generation two back to be gone. -/
theorem kept_persist (haead : seams.aead.Lawful) (hformats : seams.formats.Lawful)
    (h : Kept seams start disk) (hrow : (disk.cells (indexKey seams.id)).isSome)
    (hholds : Machine.Holds (seams.io dek) (Machine.mk disk memory) c) (a : Attempt B V S)
    (hgone : a.persist.metadata.isSome → ∀ n, n + 2 = memory.generation →
      disk.files (.state n) = none ∧ disk.files (.manifest n) = none) :
    let after := ((Machine.mk disk memory).persist (seams.io dek) a).1
    Kept seams start after.disk ∧ (after.disk.cells (indexKey seams.id)).isSome ∧
      ∃ c', after.Holds (seams.io dek) c' := by
  intro after
  obtain ⟨d, hd, hcases, -⟩ := Machine.persist_step haead hformats hholds a
  have hdisk : after.disk = (execute disk ((seams.io dek).writePersistence memory
      a.persist).effects a.fates).1 := persist_disk ..
  have hstays := stays_writePersistence (seams.io dek) memory a.persist
  obtain ⟨found', hfound', hd'⟩ := (((seams.io dek).loadJournal_eq_ok_iff _ d).1 hd.disk).pointer
  obtain ⟨p, hheld⟩ := h.held
  have hp : p = memory := by
    obtain ⟨found, hfound, hc⟩ := (((seams.io dek).loadJournal_eq_ok_iff _ c).1 hholds.disk).pointer
    obtain ⟨found₀, hfound₀, rfl⟩ := hheld.pointer
    rw [pointer_io, hfound₀] at hfound
    obtain rfl := Except.ok.inj hfound
    exact hc.symm.trans hholds.memory.symm
  subst hp
  have hagree : Agree (fun _ => False) (· ≠ pointerKey seams.id) disk after.disk := by
    rw [hdisk]
    have hfull := execute_agree (s := disk) hstays a.fates
    exact ⟨fun _ hfalse => hfalse.elim, hfull.cells⟩
  refine ⟨⟨⟨d.pointer, ?_⟩, ?_, ?_⟩, isSome_row_of_agree hagree hrow, d, hd⟩
  · rw [hdisk] at hfound' ⊢
    refine held_execute hstays (fun path hpath => ?_) (fun path hpath _ => ?_)
      ⟨found', hfound', hd'⟩
    · rcases hcases with rfl | rfl
      · rw [← hholds.memory]
        exact hpath.1
      · show Covers (a.persist.pointer c.pointer) path
        rw [← hholds.memory]
        exact hpath.2
    · have hcovered := hheld.files path hpath
      rcases hcases with rfl | rfl
      · rw [← hholds.memory]
        exact hcovered
      · show Covers (a.persist.pointer c.pointer) path
        rw [← hholds.memory]
        -- a generation that moved on leaves out what was two back
        rcases hmetadata : a.persist.metadata with _ | snapshot
        · rcases path with n | n | n <;>
            simp only [Covers, Persist.pointer, hmetadata, Option.isSome_none] at hcovered ⊢
          · exact hcovered
          · exact hcovered
          · omega
        · have hnone := hgone (by rw [hmetadata]; rfl)
          rcases path with n | n | n <;>
            simp only [Covers, Persist.pointer, hmetadata, Option.isSome_some, if_true]
              at hcovered ⊢
          · have hne : n + 2 ≠ p.generation := fun heq => hpath (hnone n heq).1
            omega
          · have hne : n + 2 ≠ p.generation := fun heq => hpath (hnone n heq).2
            omega
          · omega
  · intro key hkey
    have hne : key ≠ pointerKey seams.id := fun heq => hkey (heq ▸ owned_pointerKey _)
    exact (hagree.cells key hne).trans (h.foreign key hkey)
  · intro hnone
    have hstill := isSome_row_of_agree hagree hrow
    rw [hnone] at hstill
    cases hstill

end Persist

theorem mintAnchor_disk (io : Io B V S) (draw : Draw S) (disk : Disk) :
    (mintAnchor io draw disk).1 =
      ((Machine.mk disk {}).persist io ⟨draw.persist, draw.fates⟩).1.disk := by
  rw [persist_disk, writePersistence_draw, mintAnchor]
  dsimp only
  split <;> next hexec => rw [hexec]

/-- An anchor that is drawn where nothing is committed. -/
theorem kept_mintAnchor (haead : seams.aead.Lawful) (hformats : seams.formats.Lawful) {dek : Dek}
    {c : Committed B V S} (h : Kept seams start disk)
    (hrow : (disk.cells (indexKey seams.id)).isSome)
    (hload : (seams.io dek).loadJournal disk = .ok c) (hpointer : c.pointer = {}) (draw : Draw S) :
    Kept seams start (mintAnchor (seams.io dek) draw disk).1 ∧
      ∀ snapshot generation, (mintAnchor (seams.io dek) draw disk).2 = some (snapshot, generation) →
        ∃ c', Machine.Holds (seams.io dek)
          (Machine.mk (mintAnchor (seams.io dek) draw disk).1 ⟨generation, 0⟩) c' := by
  have hholds : Machine.Holds (seams.io dek) (Machine.mk disk {}) c := ⟨hload, hpointer.symm⟩
  obtain ⟨hkept, -, -⟩ := kept_persist haead hformats h hrow hholds ⟨draw.persist, draw.fates⟩
    fun _ n hn => absurd hn (Nat.succ_ne_zero _)
  refine ⟨by rwa [mintAnchor_disk], fun snapshot generation hsome => ?_⟩
  obtain ⟨c', hc', -⟩ := alone_mintAnchor haead hformats
    (((seams.io dek).loadJournal_eq_ok_iff disk c).1 hload) hpointer draw
    (Prod.ext rfl hsome : mintAnchor (seams.io dek) draw disk = (_, some (snapshot, generation)))
  exact ⟨c', hc'⟩

/-- A device whose process has stopped. -/
theorem inv_stopped (h : Kept seams start disk) : Inv seams start { disk } where
  disk := h
  memory _ hm := nomatch hm
  row hsome := nomatch hsome

theorem inv_lease (h : Kept seams start disk) (row : IndexRow) (fates : List (Fate Bytes))
    {m : Memory} {c : Committed B V S}
    (hholds : Machine.Holds (seams.io m.dek) (Machine.mk disk m.pointer) c) :
    Inv seams start (Device.lease seams row fates disk m) := by
  have hsmall : ∀ e ∈ [(.set (indexKey seams.id) (seams.encodeRow row) : DiskEffect)],
      Small seams e := by
    intro e he
    obtain rfl := List.mem_singleton.1 he
    exact small_set_row seams _
  have hkept := kept_of_small h hsmall fates
  have hagree := agree_of_small disk hsmall fates
  rw [Device.lease]
  split
  · next after hexec =>
    rw [hexec] at hkept hagree
    refine ⟨hkept, fun held hheld => ?_, fun _ => ?_⟩
    · obtain rfl := Option.mem_some.1 hheld
      exact ⟨c, holds_of_agree hholds ⟨hagree.files, fun key hkey => hagree.cells key (.inl hkey)⟩⟩
    · have hset : after.cells (indexKey seams.id) = _ :=
        cells_of_completed (List.forall_mem_nil _) hexec
      rw [hset]
      rfl
  · next after ending hexec =>
    rw [hexec] at hkept
    exact inv_stopped hkept

/-- A persist of the metadata does not start while files of the generation two before the pointed
one are there, and a boot of a device without a generation finds no journal. -/
def Device.Tidy (seams : Seams B V S) (d : Device) : Label B V S → Prop
  | .boot _ => ∀ found, seams.pointer d.disk = .ok found → (found.getD {}).generation = 0 →
    (found.getD {}).engineHead = 0
  | .persist a => ∀ m ∈ d.memory, a.persist.metadata.isSome → ∀ n, n + 2 = m.pointer.generation →
    d.disk.files (.state n) = none ∧ d.disk.files (.manifest n) = none
  | _ => True

/-- A disk without a pointer loads as nothing. -/
theorem loadJournal_of_no_pointer (dek : Dek) (h : disk.cells (pointerKey seams.id) = none) :
    (seams.io dek).loadJournal disk = .ok {} := by
  rw [Io.loadJournal_eq_ok_iff]
  refine ⟨⟨none, ?_, rfl⟩, rfl, fun hne => absurd rfl hne, rfl⟩
  rw [pointer_io, Seams.pointer, h]

theorem inv_mint (haead : seams.aead.Lawful) (hformats : seams.formats.Lawful)
    (h : Kept seams start disk) (hnone : disk.cells (indexKey seams.id) = none)
    (input : BootInput S) : Inv seams start (Device.mint seams input disk) := by
  have hsmall : ∀ e ∈ [(.set (dekKey seams.id) input.dek.key : DiskEffect),
      .set (indexKey seams.id) (seams.encodeRow {})], Small seams e := by
    intro e he
    simp only [List.mem_cons, List.not_mem_nil, or_false] at he
    rcases he with rfl | rfl
    · exact small_set_dek seams _
    · exact small_set_row seams _
  have hkept := kept_of_small h hsmall input.records
  have hagree := agree_of_small disk hsmall input.records
  rw [Device.mint]
  split
  · next after hexec =>
    rw [hexec] at hkept hagree
    have hrow : (after.cells (indexKey seams.id)).isSome := by
      have hfirst : ∀ e ∈ [(.set (dekKey seams.id) input.dek.key : DiskEffect)], e.Noticed := by
        intro e he
        obtain rfl := List.mem_singleton.1 he
        trivial
      have hset : after.cells (indexKey seams.id) = _ := cells_of_completed hfirst hexec
      rw [hset]
      rfl
    have hload : (seams.io input.dek).loadJournal after = .ok {} := by
      refine loadJournal_of_no_pointer _ ?_
      rw [hagree.cells _ (.inl rfl)]
      exact h.rowed hnone
    obtain ⟨hanchored, hholds⟩ := kept_mintAnchor haead hformats hkept hrow hload rfl input.draw
    split
    · next anchored snapshot generation hmint =>
      rw [hmint] at hanchored hholds
      obtain ⟨c, hc⟩ := hholds snapshot generation rfl
      exact inv_lease hanchored _ _ hc
    · next anchored hmint =>
      rw [hmint] at hanchored
      exact inv_stopped hanchored
  · next after ending hexec =>
    rw [hexec] at hkept
    exact inv_stopped hkept

/-- What `open_or_mint` leaves, if no journal is behind a device without a generation. -/
theorem kept_openOrMint (haead : seams.aead.Lawful) (hformats : seams.formats.Lawful) {dek : Dek}
    {c : Committed B V S} (h : Kept seams start disk)
    (hrow : (disk.cells (indexKey seams.id)).isSome)
    (hload : (seams.io dek).loadJournal disk = .ok c)
    (hempty : c.pointer.generation = 0 → c.pointer.engineHead = 0) (draw : Draw S) (tier : Tier) :
    Kept seams start
        (openOrMint (seams.io dek) draw tier c.pointer.generation c.snapshot disk).1 ∧
      ∀ snapshot generation minted,
        (openOrMint (seams.io dek) draw tier c.pointer.generation c.snapshot disk).2 =
          some (.ok (snapshot, generation, minted)) →
        ∃ c', Machine.Holds (seams.io dek) (Machine.mk
          (openOrMint (seams.io dek) draw tier c.pointer.generation c.snapshot disk).1
          ⟨generation, c.pointer.engineHead⟩) c' := by
  rcases hsnapshot : c.snapshot with _ | stored
  · rw [openOrMint]
    by_cases hlegal : tier = .ephemeral ∧ c.pointer.generation = 0
    · rw [if_pos hlegal]
      have hhead := hempty hlegal.2
      have hpointer : c.pointer = {} := by
        rcases hp : c.pointer with ⟨generation, head⟩
        rw [hp] at hlegal hhead
        obtain ⟨-, rfl⟩ := hlegal
        obtain rfl : head = 0 := hhead
        rfl
      obtain ⟨hkept, hholds⟩ := kept_mintAnchor haead hformats h hrow hload hpointer draw
      rcases hmint : mintAnchor (seams.io dek) draw disk with
        ⟨after, _ | ⟨snapshot, generation⟩⟩ <;> rw [hmint] at hkept hholds
      · exact ⟨hkept, fun _ _ _ hsome => by cases hsome⟩
      · refine ⟨hkept, fun snapshot' generation' minted hsome => ?_⟩
        obtain ⟨rfl, rfl, rfl⟩ : snapshot = snapshot' ∧ generation = generation' ∧
            true = minted := by
          simpa using hsome
        rw [hhead]
        exact hholds snapshot generation rfl
    · rw [if_neg hlegal]
      exact ⟨h, fun _ _ _ hsome => by cases hsome⟩
  · refine ⟨h, fun snapshot generation minted hsome => ?_⟩
    obtain ⟨-, rfl, -⟩ : stored = snapshot ∧ c.pointer.generation = generation ∧
        false = minted := by
      simpa [openOrMint] using hsome
    exact ⟨c, hload, rfl⟩

theorem inv_resume (haead : seams.aead.Lawful) (hformats : seams.formats.Lawful)
    (h : Kept seams start disk) (hrow : (disk.cells (indexKey seams.id)).isSome)
    (hempty : ∀ found, seams.pointer disk = .ok found → (found.getD {}).generation = 0 →
      (found.getD {}).engineHead = 0) (row : IndexRow) (input : BootInput S) :
    Inv seams start (Device.resume seams row input disk) := by
  unfold Device.resume
  split
  · split
    · have hsmall : ∀ e ∈ Device.sealedRecords seams row disk, Small seams e := by
        intro e he
        rw [Device.sealedRecords] at he
        rcases List.mem_append.1 he with hdelete | hset
        · split at hdelete
          · obtain rfl := List.mem_singleton.1 hdelete
            exact small_delete_dek seams
          · exact nomatch hdelete
        · obtain rfl := List.mem_singleton.1 hset
          exact small_set_row seams _
      exact inv_stopped (kept_of_small h hsmall _)
    · exact inv_stopped h
  · split
    · next dek hdek =>
      split
      · next c hload =>
        have hempty' : c.pointer.generation = 0 → c.pointer.engineHead = 0 := by
          have hloads := ((seams.io dek).loadJournal_eq_ok_iff disk c).1 hload
          obtain ⟨found, hfound, hc⟩ := hloads.pointer
          rw [hc]
          exact hempty found hfound
        obtain ⟨hkept, hholds⟩ := kept_openOrMint haead hformats h hrow hload hempty' input.draw
          row.tier
        split
        · next after snapshot generation minted hopened =>
          rw [hopened] at hkept hholds
          obtain ⟨c', hc'⟩ := hholds snapshot generation minted rfl
          exact inv_lease hkept _ _ hc'
        · next after ending hnot hopened =>
          rw [hopened] at hkept
          exact inv_stopped hkept
      · exact inv_stopped h
    · exact inv_stopped h

theorem inv_boot (haead : seams.aead.Lawful) (hformats : seams.formats.Lawful) {d : Device}
    (h : Inv seams start d) (input : BootInput S)
    (htidy : d.Tidy seams (.boot input : Label B V S)) :
    Inv seams start (Device.boot seams input d.disk) := by
  rw [Device.boot]
  split
  · next hnone => exact inv_mint haead hformats h.disk hnone input
  · next bytes hsome =>
    split
    · next row _ =>
      exact inv_resume haead hformats h.disk (by rw [hsome]; rfl) htidy row input
    · exact inv_stopped h.disk

theorem inv_unwrap {d : Device} (h : Inv seams start d) (dek : Dek) :
    Inv seams start (d.unwrap seams dek) := by
  rw [Device.unwrap]
  split
  · next c hmemory hload =>
    split
    · next hsome =>
      refine ⟨h.disk, fun m hm => ?_, fun _ => ?_⟩
      · obtain rfl := Option.mem_some.1 hm
        exact ⟨c, hload, rfl⟩
      · -- there is a pointer, and so there is a row
        rw [← Option.not_isNone, Bool.not_eq_true', ← Bool.not_eq_true, Option.isNone_iff_eq_none]
        intro hnone
        rw [loadJournal_of_no_pointer dek (h.disk.rowed hnone)] at hload
        obtain rfl := Except.ok.inj hload
        exact nomatch hsome
    · exact h
  · exact h

theorem inv_persist (haead : seams.aead.Lawful) (hformats : seams.formats.Lawful) {d : Device}
    (h : Inv seams start d) (a : Attempt B V S) (htidy : d.Tidy seams (.persist a)) :
    Inv seams start (d.persist seams a) := by
  rw [Device.persist]
  split
  · exact h
  · next m hmemory =>
    obtain ⟨c, hholds⟩ := h.memory m hmemory
    have hrow := h.row (by rw [hmemory]; rfl)
    obtain ⟨hkept, hstill, hafter⟩ := kept_persist haead hformats h.disk hrow hholds a
      (htidy m hmemory)
    dsimp only
    split
    · exact inv_stopped hkept
    · refine ⟨hkept, fun held hheld => ?_, fun _ => hstill⟩
      obtain rfl := Option.mem_some.1 hheld
      exact hafter

theorem inv_record {d : Device} (h : Inv seams start d) (record : SmallRecord) :
    Inv seams start (d.record seams record) := by
  rw [Device.record]
  split
  · exact h
  · next m hmemory =>
    -- a single change that goes through is a program of one effect
    have hsmall : ∀ e ∈ [Device.effect seams record], Small seams e := by
      intro e he
      obtain rfl := List.mem_singleton.1 he
      exact small_effect seams record
    have hkept := kept_of_small h.disk hsmall [.done]
    have hagree := agree_of_small d.disk hsmall [.done]
    have hrow := h.row (by rw [hmemory]; rfl)
    refine ⟨hkept, fun held hheld => ?_, fun _ => ?_⟩
    · obtain ⟨c, hholds⟩ := h.memory held hheld
      exact ⟨c, holds_of_agree hholds ⟨hagree.files, fun key hkey => hagree.cells key (.inl hkey)⟩⟩
    · exact isSome_execute (fun e he => (hsmall e he).row) [.done] hrow

theorem inv_step (haead : seams.aead.Lawful) (hformats : seams.formats.Lawful) {d : Device}
    (l : Label B V S) (htidy : d.Tidy seams l) (h : Inv seams start d) :
    Inv seams start (d.step seams l) := by
  rcases l with input | dek | a | record
  · exact inv_boot haead hformats h input htidy
  · exact inv_unwrap h dek
  · exact inv_persist haead hformats h a htidy
  · exact inv_record h record

/-! ## Runs -/

/-- A disk on which the device has never been. -/
structure Fresh (seams : Seams B V S) (disk : Disk) : Prop where
  files : ∀ path, disk.files path = none
  cells : ∀ key, Owned seams.id key → disk.cells key = none

/-- Nothing of the device is left, and what is not its own is as it was at the start. -/
structure Gone (seams : Seams B V S) (start disk : Disk) : Prop where
  files : ∀ path, disk.files path = none
  cells : ∀ key, disk.cells key = if Owned seams.id key then none else start.cells key

theorem inv_fresh (h : Fresh seams disk) : Inv seams disk { disk } := by
  refine inv_stopped ⟨⟨{}, ⟨none, ?_, rfl⟩, fun path hpath => absurd (h.files path) hpath⟩,
    fun _ _ => rfl, fun _ => h.cells _ (owned_pointerKey _)⟩
  rw [Seams.pointer, h.cells _ (owned_pointerKey _)]

/-- After a run of boots, unseals, persists and changes of the small records whose steps are all
tidy, `destroy` leaves nothing of the device. -/
theorem destroy_leaves_nothing (haead : seams.aead.Lawful) (hformats : seams.formats.Lawful)
    (hfresh : Fresh seams disk) {labels : List (Label B V S)}
    (htidy : Transition.Meets (Device.step seams) (Device.Tidy seams) { disk } labels) :
    ∃ left, destroy seams (Transition.run (Device.step seams) { disk } labels).disk = .ok left ∧
      Gone seams disk left := by
  have hinv := Transition.run_preserves_of_meets (fun _ l => inv_step haead hformats l) htidy
    (inv_fresh hfresh)
  obtain ⟨p, ⟨found, hfound, rfl⟩, hfiles⟩ := hinv.disk.held
  refine ⟨_, files_destroy hfound, fun path => ?_, fun key => ?_⟩
  · by_cases hcovers : Covers (found.getD {}) path
    · exact if_pos hcovers
    · refine (if_neg hcovers).trans (not_not.1 fun hpath => hcovers (hfiles path hpath))
  · by_cases hkey : Owned seams.id key
    · exact (if_pos hkey).trans (if_pos hkey).symm
    · exact (if_neg hkey).trans ((hinv.disk.foreign key hkey).trans (if_neg hkey).symm)

/-- The device `d`, whose rows all say that it rests open. -/
def exampleSeams : Seams Unit Unit Bytes where
  aead := tagAead
  formats := unaryFormats
  id := "d"
  encodeRow _ := [1]
  decodeRow _ := .ok {}

/-- A boot in which nothing fails. -/
def goodBoot : Label Unit Unit Bytes :=
  .boot ⟨zeroDek, exampleDraw (List.replicate 3 .done), List.replicate 2 .done, [.done]⟩

/-- A persist of the metadata that goes as far as its fates do. -/
def persistUntil (effects : ℕ) : Label Unit Unit Bytes :=
  .persist ⟨⟨some [1, 2], none, zeroNonce, zeroNonce⟩, List.replicate effects .done⟩

/-- Two persists stop right after they moved the pointer, and a third one goes through. -/
def twoCrashes : Disk :=
  (Transition.run (Device.step exampleSeams) { disk := emptyDisk }
    [goodBoot, persistUntil 3, goodBoot, persistUntil 3, goodBoot, persistUntil 7]).disk

/-- The first generation is still there after `destroy`. -/
theorem generation_left_behind :
    ∃ left, destroy exampleSeams twoCrashes = .ok left ∧
      (left.files (.state 1)).isSome ∧ ¬ Gone exampleSeams emptyDisk left := by
  have hleft : ((destroy exampleSeams twoCrashes).toOption.map fun disk =>
      (disk.files (.state 1)).isSome) = some true := by
    decide +kernel
  rcases hdestroy : destroy exampleSeams twoCrashes with e | left <;> rw [hdestroy] at hleft
  · exact nomatch hleft
  · have hsome : (left.files (.state 1)).isSome = true := Option.some.inj hleft
    refine ⟨left, rfl, hsome, fun hgone => ?_⟩
    rw [hgone.files] at hsome
    exact nomatch hsome

/-- One persist stops right after it moved the pointer, and the device boots again. -/
theorem destroy_leaves_nothing_after_crash :
    ∃ left, destroy exampleSeams (Transition.run (Device.step exampleSeams) { disk := emptyDisk }
        [goodBoot, persistUntil 3, goodBoot]).disk = .ok left ∧
      Gone exampleSeams emptyDisk left := by
  have hmemory : (((Device.mk emptyDisk none).step exampleSeams goodBoot).memory.map fun m =>
      m.pointer) = some ⟨1, 0⟩ := by
    decide +kernel
  have hpointer : (exampleSeams.pointer (Transition.run (Device.step exampleSeams)
      { disk := emptyDisk } [goodBoot, persistUntil 3]).disk).toOption = some (some ⟨2, 0⟩) := by
    decide +kernel
  refine destroy_leaves_nothing tagAead_lawful unaryFormats_lawful ⟨fun _ => rfl, fun _ _ => rfl⟩
    ⟨fun found hfound _ => ?_, fun m hm _ n hn => ?_, fun found hfound _ => ?_, trivial⟩
  · obtain rfl := Except.ok.inj hfound
    rfl
  · rw [Option.mem_def.1 hm] at hmemory
    have hgeneration : m.pointer = ⟨1, 0⟩ := Option.some.inj hmemory
    rw [hgeneration] at hn
    exact absurd hn (by simp)
  · replace hfound : exampleSeams.pointer (Transition.run (Device.step exampleSeams)
        { disk := emptyDisk } [goodBoot, persistUntil 3]).disk = .ok found := hfound
    rw [hfound] at hpointer
    obtain rfl := Option.some.inj hpointer
    rfl

end Polyvisor.Destruction
