import Mathlib.Data.List.Dedup
import Polyvisor.Engine.Item
import Polyvisor.Lib.Multivalue

/-!
# Documents whose state is their root map

What `contacts-model` and `visor-model` use of an automerge document: the registers of its root map,
which keep every concurrent write. A text is its UTF-8 bytes, so that texts sort as the source's
strings do. Each model says how the text of a key is read.
-/

namespace Polyvisor

/-- `automerge::Value`, as far as the crates tell values apart. -/
inductive Value where
  | bytes (value : Bytes)
  | text (value : Bytes)
  | int (value : ℤ)
  | other
  deriving DecidableEq

/-- `scalar_bytes`. -/
def Value.bytes? : Value → Option Bytes
  | .bytes value => some value
  | _ => none

/-- `Value::to_str`. -/
def Value.text? : Value → Option Bytes
  | .text value => some value
  | _ => none

/-- A `Document` whose keys are read as `K`. -/
structure RootMap (K : Type) where
  actor : Bytes
  history : Multivalue.History Bytes K Value

variable {K : Type} [DecidableEq K]

namespace RootMap

/-- `Document::empty`. -/
def empty (actor : Bytes) : RootMap K := ⟨actor, .empty⟩

/-- `Transaction::put` at the root. Writing the one value a key holds is no operation. -/
def put (doc : RootMap K) (key : K) (value : Value) : RootMap K :=
  if doc.history.values key = [value] then doc
  else { doc with history := doc.history.write doc.actor key (some value) }

/-- `put` of every pair in turn. -/
def putAll (doc : RootMap K) (fields : List (K × Value)) : RootMap K :=
  fields.foldl (fun doc field => doc.put field.1 field.2) doc

/-- `Transaction::delete` of a key that the map lists. -/
def delete (doc : RootMap K) (key : K) : RootMap K :=
  if doc.history.shown key = [] then doc
  else { doc with history := doc.history.write doc.actor key none }

/-- `Document::merge_snapshot`. -/
def mergeSnapshot (doc source : RootMap K) : RootMap K :=
  { doc with history := doc.history.merge source.history }

end RootMap

/-- A list as a `BTreeSet` holds it. -/
def asSet (items : List Bytes) : List Bytes :=
  items.dedup.insertionSort (· ≤ ·)

/-- `all_root_bytes`. -/
def allRootBytes (doc : RootMap K) (key : K) : List Bytes :=
  asSet ((doc.history.values key).filterMap Value.bytes?)

/-- `root_string`. -/
def rootString (doc : RootMap K) (key : K) : Option Bytes :=
  (doc.history.newest key).bind Value.text?

theorem mem_asSet {items : List Bytes} {item : Bytes} : item ∈ asSet items ↔ item ∈ items := by
  rw [asSet, List.mem_insertionSort, List.mem_dedup]

theorem mem_allRootBytes {doc : RootMap K} {key : K} {bytes : Bytes} :
    bytes ∈ allRootBytes doc key ↔ .bytes bytes ∈ doc.history.values key := by
  rw [allRootBytes, mem_asSet, List.mem_filterMap]
  constructor
  · rintro ⟨value, hvalue, hbytes⟩
    rcases value with value | value | value | _
    · obtain rfl := Option.some.inj hbytes
      exact hvalue
    · exact nomatch hbytes
    · exact nomatch hbytes
    · exact nomatch hbytes
  · exact fun h => ⟨_, h, rfl⟩

namespace RootMap

theorem mem_values_put {doc : RootMap K} {key : K} {value v : Value} :
    v ∈ (doc.put key value).history.values key ↔ v = value := by
  rw [put]
  split
  · next hheld => rw [hheld, List.mem_singleton]
  · rw [Multivalue.History.mem_values_write, Option.some_inj, eq_comm]

theorem mem_values_put_of_ne {doc : RootMap K} {key key' : K} {value v : Value}
    (hne : key' ≠ key) :
    v ∈ (doc.put key value).history.values key' ↔ v ∈ doc.history.values key' := by
  rw [put]
  split
  · rfl
  · exact Multivalue.History.mem_values_write_of_ne hne

theorem putAll_cons (doc : RootMap K) (field : K × Value) (rest : List (K × Value)) :
    doc.putAll (field :: rest) = (doc.put field.1 field.2).putAll rest := rfl

theorem mem_values_putAll_of_not_mem {doc : RootMap K} {fields : List (K × Value)} {key : K}
    {v : Value} (hkey : ∀ field ∈ fields, key ≠ field.1) :
    v ∈ (doc.putAll fields).history.values key ↔ v ∈ doc.history.values key := by
  induction fields generalizing doc with
  | nil => rfl
  | cons field rest ih =>
    rw [putAll_cons]
    rw [ih fun field' hfield' => hkey field' (List.mem_cons_of_mem _ hfield'),
      mem_values_put_of_ne (hkey field List.mem_cons_self)]

theorem not_mem_values_delete {doc : RootMap K} {key : K} {v : Value} :
    v ∉ (doc.delete key).history.values key := by
  rw [delete]
  split
  · next hempty =>
    intro hv
    obtain ⟨w, hw, -⟩ := Multivalue.History.mem_values.1 hv
    exact List.ne_nil_of_mem hw hempty
  · rw [Multivalue.History.mem_values_write]
    intro h
    cases h

theorem mem_values_delete_of_ne {doc : RootMap K} {key key' : K} {v : Value}
    (hne : key' ≠ key) :
    v ∈ (doc.delete key).history.values key' ↔ v ∈ doc.history.values key' := by
  rw [delete]
  split
  · rfl
  · exact Multivalue.History.mem_values_write_of_ne hne

@[simp]
theorem put_actor (doc : RootMap K) (key : K) (value : Value) :
    (doc.put key value).actor = doc.actor := by
  rw [put]
  split <;> rfl

@[simp]
theorem putAll_actor (doc : RootMap K) (fields : List (K × Value)) :
    (doc.putAll fields).actor = doc.actor := by
  induction fields generalizing doc with
  | nil => rfl
  | cons field rest ih => exact (ih _).trans (put_actor ..)

/-- What was put is what is read. -/
theorem newest_put (doc : RootMap K) (key : K) (value : Value) :
    (doc.put key value).history.newest key = some value :=
  Multivalue.History.newest_eq_some (mem_values_put.2 rfl) fun _ => mem_values_put.1

theorem newest_put_of_ne {doc : RootMap K} {key key' : K} {value : Value} (hne : key' ≠ key) :
    (doc.put key value).history.newest key' = doc.history.newest key' := by
  rw [put]
  split
  · rfl
  · exact Multivalue.History.newest_write_of_ne hne

/-! ## Removals -/

/-- `keys(ROOT)`. -/
def keys (doc : RootMap K) : List K :=
  (doc.history.writes.map Multivalue.Write.key).filter fun key => doc.history.shown key ≠ []

/-- `delete` of every key in turn. -/
def deleteAll (doc : RootMap K) (keys : List K) : RootMap K :=
  keys.foldl delete doc

theorem mem_keys {doc : RootMap K} {key : K} :
    key ∈ doc.keys ↔ doc.history.shown key ≠ [] := by
  rw [keys, List.mem_filter, decide_eq_true_iff]
  refine ⟨fun h => h.2, fun h => ⟨?_, h⟩⟩
  obtain ⟨w, hw⟩ := List.exists_mem_of_ne_nil _ h
  obtain ⟨hmem, hkey, -⟩ := Multivalue.History.mem_shown.1 hw
  exact List.mem_map.2 ⟨w, hmem, hkey⟩

@[simp]
theorem delete_actor (doc : RootMap K) (key : K) : (doc.delete key).actor = doc.actor := by
  rw [delete]
  split <;> rfl

theorem shown_delete (doc : RootMap K) (key : K) : (doc.delete key).history.shown key = [] := by
  rw [delete]
  split
  · next hnil => exact hnil
  · refine List.eq_nil_iff_forall_not_mem.2 fun w hw => ?_
    rcases Multivalue.History.mem_shown_write.1 hw with ⟨-, -, hsome⟩ | ⟨-, hne⟩
    · exact Bool.noConfusion hsome
    · exact hne rfl

theorem shown_delete_of_ne {doc : RootMap K} {key key' : K} (hne : key' ≠ key) :
    (doc.delete key).history.shown key' = doc.history.shown key' := by
  rw [delete]
  split
  · rfl
  · exact Multivalue.History.shown_write_of_ne hne

theorem shown_put_of_ne {doc : RootMap K} {key key' : K} {value : Value} (hne : key' ≠ key) :
    (doc.put key value).history.shown key' = doc.history.shown key' := by
  rw [put]
  split
  · rfl
  · exact Multivalue.History.shown_write_of_ne hne

theorem deleteAll_cons (doc : RootMap K) (key : K) (rest : List K) :
    doc.deleteAll (key :: rest) = (doc.delete key).deleteAll rest := rfl

theorem shown_deleteAll (doc : RootMap K) (keys : List K) (key : K) :
    (doc.deleteAll keys).history.shown key =
      if key ∈ keys then [] else doc.history.shown key := by
  induction keys generalizing doc with
  | nil => rfl
  | cons head rest ih =>
    rw [deleteAll_cons, ih]
    by_cases hrest : key ∈ rest
    · rw [if_pos hrest, if_pos (List.mem_cons_of_mem _ hrest)]
    · rw [if_neg hrest]
      by_cases hhead : key = head
      · rw [if_pos (hhead ▸ List.mem_cons_self), hhead, shown_delete]
      · rw [if_neg (List.not_mem_cons_of_ne_of_not_mem hhead hrest), shown_delete_of_ne hhead]

theorem shown_putAll_of_not_mem {doc : RootMap K} {fields : List (K × Value)} {key : K}
    (hkey : key ∉ fields.map Prod.fst) :
    (doc.putAll fields).history.shown key = doc.history.shown key := by
  induction fields generalizing doc with
  | nil => rfl
  | cons field rest ih =>
    rw [List.map_cons, List.mem_cons, not_or] at hkey
    rw [putAll_cons, ih hkey.2, shown_put_of_ne hkey.1]

theorem put_of_held {doc : RootMap K} {key : K} {value : Value}
    (h : doc.history.values key = [value]) : doc.put key value = doc :=
  if_pos h

/-- A key that is put to only the value it holds stays as it was. -/
theorem shown_putAll_of_held {doc : RootMap K} {fields : List (K × Value)} {key : K}
    (h : ∀ field ∈ fields, field.1 = key → doc.history.values key = [field.2]) :
    (doc.putAll fields).history.shown key = doc.history.shown key := by
  induction fields generalizing doc with
  | nil => rfl
  | cons field rest ih =>
    obtain ⟨hfield, hrest⟩ := List.forall_mem_cons.1 h
    rw [putAll_cons]
    by_cases heq : field.1 = key
    · rw [heq, put_of_held (hfield heq)]
      exact ih hrest
    · have hshown : (doc.put field.1 field.2).history.shown key = doc.history.shown key :=
        shown_put_of_ne (Ne.symm heq)
      rw [← hshown]
      refine ih fun later hlater hkey => ?_
      rw [Multivalue.History.values, hshown]
      exact hrest later hlater hkey

/-- After a removal the history also hides what it showed. -/
theorem not_hides_delete {doc : RootMap K} {key : K} {w : Multivalue.Write Bytes K Value} :
    (∀ u ∈ (doc.delete key).history.writes, ¬ u.Hides w) ↔
      (∀ u ∈ doc.history.writes, ¬ u.Hides w) ∧
        (w.key = key → w.id ∉ (doc.history.shown key).map Multivalue.Write.id) := by
  rw [delete]
  split
  · next hnil =>
    rw [hnil]
    simp
  · simp only [Multivalue.History.write, List.forall_mem_cons]
    rw [and_comm]
    refine and_congr_right fun _ => ⟨fun hnot hkey hmem => hnot ⟨hkey.symm, hmem⟩, ?_⟩
    rintro hnot ⟨hkey, hmem⟩
    exact hnot hkey.symm hmem

/-! ## Histories that grow -/

theorem mem_writes_put {doc : RootMap K} {key : K} {value : Value}
    {w : Multivalue.Write Bytes K Value} (hw : w ∈ doc.history.writes) :
    w ∈ (doc.put key value).history.writes := by
  rw [put]
  split
  · exact hw
  · exact List.mem_cons_of_mem _ hw

theorem mem_writes_delete {doc : RootMap K} {key : K} {w : Multivalue.Write Bytes K Value}
    (hw : w ∈ doc.history.writes) : w ∈ (doc.delete key).history.writes := by
  rw [delete]
  split
  · exact hw
  · exact List.mem_cons_of_mem _ hw

theorem mem_writes_deleteAll {doc : RootMap K} {keys : List K}
    {w : Multivalue.Write Bytes K Value} (hw : w ∈ doc.history.writes) :
    w ∈ (doc.deleteAll keys).history.writes := by
  induction keys generalizing doc with
  | nil => exact hw
  | cons key rest ih => exact ih (mem_writes_delete hw)

/-- Since `doc` the key was put to something else. -/
def Rewritten (doc cur : RootMap K) (key : K) : Prop :=
  ∃ w ∈ cur.history.shown key, w ∉ doc.history.writes

/-- What puts make of a document. A key that does not show what it did was put to something else,
and if the document is another one, there is such a key. -/
structure Grows (doc cur : RootMap K) : Prop where
  writes : ∀ w ∈ doc.history.writes, w ∈ cur.history.writes
  keys : ∀ key, cur.history.shown key = doc.history.shown key ∨ Rewritten doc cur key
  same : cur = doc ∨ ∃ key, Rewritten doc cur key

section Grows

variable {doc mid cur : RootMap K} {key : K} {value : Value} {fields : List (K × Value)}

theorem Rewritten.shown_ne (h : Rewritten doc cur key) :
    cur.history.shown key ≠ doc.history.shown key := by
  obtain ⟨w, hw, hnew⟩ := h
  intro heq
  rw [heq] at hw
  exact hnew (Multivalue.History.mem_shown.1 hw).1

theorem Rewritten.ne (h : Rewritten doc cur key) : cur ≠ doc :=
  fun heq => h.shown_ne (by rw [heq])

theorem Grows.refl (doc : RootMap K) : Grows doc doc :=
  ⟨fun _ hw => hw, fun _ => .inl rfl, .inl rfl⟩

/-- What was put since a later document was put since an earlier one. -/
theorem Grows.rewritten (h : Grows doc mid) (hnew : Rewritten mid cur key) :
    Rewritten doc cur key := by
  obtain ⟨w, hw, hnew⟩ := hnew
  exact ⟨w, hw, fun hold => hnew (h.writes w hold)⟩

/-- What was put stays, or is put once more. -/
theorem Rewritten.grows (h : Rewritten doc mid key) (hmid : Grows doc mid)
    (hgrows : Grows mid cur) :
    Rewritten doc cur key := by
  rcases hgrows.keys key with hsame | hnew
  · obtain ⟨w, hw, hnew⟩ := h
    exact ⟨w, hsame ▸ hw, hnew⟩
  · exact hmid.rewritten hnew

theorem Grows.trans (h : Grows doc mid) (h' : Grows mid cur) : Grows doc cur where
  writes w hw := h'.writes w (h.writes w hw)
  keys key := by
    rcases h'.keys key with hsame | hnew
    · rw [hsame]
      exact (h.keys key).imp_right fun hnew => hnew.grows h h'
    · exact .inr (h.rewritten hnew)
  same := by
    rcases h'.same with rfl | ⟨key, hnew⟩
    · exact h.same
    · exact .inr ⟨key, h.rewritten hnew⟩

/-- A document that is the first one again was it all along. -/
theorem Grows.eq_of_eq (h : Grows doc mid) (h' : Grows mid cur) (heq : cur = doc) : mid = doc := by
  rcases h.same with hsame | ⟨key, hnew⟩
  · exact hsame
  · exact absurd heq (hnew.grows h h').ne

/-- To put what is not there already writes. -/
theorem rewritten_put (h : ∀ w ∈ doc.history.writes, w ∈ cur.history.writes)
    (hvalue : cur.history.values key ≠ [value]) : Rewritten doc (cur.put key value) key := by
  rw [put, if_neg hvalue]
  refine ⟨_, Multivalue.History.mem_shown_write.2 (.inl ⟨rfl, rfl, rfl⟩), fun hold => ?_⟩
  have hlt := cur.history.counter_lt_next _ (h _ hold)
  exact Nat.lt_irrefl _ hlt

theorem grows_put (doc : RootMap K) (key : K) (value : Value) : Grows doc (doc.put key value) := by
  by_cases hvalue : doc.history.values key = [value]
  · rw [put_of_held hvalue]
    exact Grows.refl doc
  · have hnew := rewritten_put (fun _ hw => hw) hvalue
    refine ⟨fun w hw => mem_writes_put hw, fun other => ?_, .inr ⟨key, hnew⟩⟩
    by_cases heq : other = key
    · rw [heq]
      exact .inr hnew
    · exact .inl (shown_put_of_ne heq)

theorem grows_putAll (doc : RootMap K) (fields : List (K × Value)) :
    Grows doc (doc.putAll fields) := by
  induction fields generalizing doc with
  | nil => exact Grows.refl doc
  | cons field rest ih => exact (grows_put doc field.1 field.2).trans (ih _)

/-- A key that was put held the value before, or was put to something else. -/
theorem Grows.held_or_rewritten (h : Grows doc cur) {field : K × Value} (hfield : field ∈ fields) :
    doc.history.values field.1 = [field.2] ∨ Rewritten doc (cur.putAll fields) field.1 := by
  induction fields generalizing cur with
  | nil => exact absurd hfield List.not_mem_nil
  | cons first rest ih =>
    rw [putAll_cons]
    rcases List.mem_cons.1 hfield with rfl | hrest
    · have hlater := grows_putAll (cur.put field.1 field.2) rest
      by_cases hvalue : cur.history.values field.1 = [field.2]
      · rw [put_of_held hvalue] at hlater ⊢
        refine (h.keys field.1).imp (fun hsame => ?_) fun hnew => hnew.grows h hlater
        rw [← hvalue, Multivalue.History.values, Multivalue.History.values, hsame]
      · exact .inr ((rewritten_put h.writes hvalue).grows (h.trans (grows_put ..)) hlater)
    · exact ih (h.trans (grows_put ..)) hrest

/-- Puts that change nothing find their values there. -/
theorem putAll_eq_self_iff :
    doc.putAll fields = doc ↔ ∀ field ∈ fields, doc.history.values field.1 = [field.2] := by
  constructor
  · intro hsame field hfield
    refine ((Grows.refl doc).held_or_rewritten hfield).resolve_right fun hnew => ?_
    exact hnew.ne hsame
  · intro hheld
    induction fields with
    | nil => rfl
    | cons field rest ih =>
      obtain ⟨hfield, hrest⟩ := List.forall_mem_cons.1 hheld
      rw [putAll_cons, put_of_held hfield]
      exact ih hrest

end Grows

/-- What was merged already adds nothing. -/
theorem mergeSnapshot_of_subset {doc source : RootMap K}
    (hsub : ∀ w ∈ source.history.writes, w ∈ doc.history.writes) :
    doc.mergeSnapshot source = doc := by
  rw [mergeSnapshot, Multivalue.History.merge_of_subset hsub]

end RootMap

/-! ## Sets and readings -/

/-- A set is known by its members. -/
theorem asSet_congr {items items' : List Bytes} (h : ∀ item, item ∈ items ↔ item ∈ items') :
    asSet items = asSet items' := by
  have hdedup : items.dedup.Perm items'.dedup :=
    (List.perm_ext_iff_of_nodup (List.nodup_dedup _) (List.nodup_dedup _)).2 fun item => by
      rw [List.mem_dedup, List.mem_dedup, h item]
  have hperm : (asSet items).Perm (asSet items') :=
    (List.perm_insertionSort _ _).trans (hdedup.trans (List.perm_insertionSort _ _).symm)
  exact hperm.eq_of_pairwise' (List.pairwise_insertionSort _ _) (List.pairwise_insertionSort _ _)

theorem nodup_asSet (items : List Bytes) : (asSet items).Nodup :=
  (List.perm_insertionSort _ _).nodup_iff.2 (List.nodup_dedup _)

theorem filter_asSet (p : Bytes → Bool) (items : List Bytes) :
    (asSet items).filter p = asSet (items.filter p) := by
  have hperm : ((asSet items).filter p).Perm (asSet (items.filter p)) :=
    (List.perm_ext_iff_of_nodup ((nodup_asSet _).filter p) (nodup_asSet _)).2 fun item => by
      simp only [List.mem_filter, mem_asSet]
  exact hperm.eq_of_pairwise' ((List.pairwise_insertionSort _ _).filter p)
    (List.pairwise_insertionSort _ _)

/-- What is made of a set depends on the members of which something is made. -/
theorem filterMap_asSet_congr {α : Type} {g : Bytes → Option α} {items items' : List Bytes}
    (h : ∀ item, (g item).isSome → (item ∈ items ↔ item ∈ items')) :
    (asSet items).filterMap g = (asSet items').filterMap g := by
  have hfilter (list : List Bytes) :
      list.filterMap g = (list.filter fun item => (g item).isSome).filterMap g := by
    rw [List.filterMap_filter]
    refine List.filterMap_congr fun item _ => ?_
    rcases hitem : g item with _ | a
    · simp
    · simp
  rw [hfilter, hfilter (asSet items'), filter_asSet, filter_asSet]
  rw [asSet_congr fun item => ?_]
  rw [List.mem_filter, List.mem_filter]
  exact and_congr_left (h item)

section Readings

variable {doc doc' : RootMap K} {key : K}

theorem allRootBytes_congr (h : doc'.history.shown key = doc.history.shown key) :
    allRootBytes doc' key = allRootBytes doc key := by
  rw [allRootBytes, allRootBytes, Multivalue.History.values, Multivalue.History.values, h]

theorem allRootBytes_ext {key' : K}
    (h : ∀ bytes, bytes ∈ allRootBytes doc' key' ↔ bytes ∈ allRootBytes doc key) :
    allRootBytes doc' key' = allRootBytes doc key :=
  asSet_congr fun bytes => by simpa only [allRootBytes, mem_asSet] using h bytes

/-- What is made of the bytes depends on those of which something is made. -/
theorem filterMap_allRootBytes_congr {α : Type} {g : Bytes → Option α} {key' : K}
    (h : ∀ bytes, (g bytes).isSome →
      (bytes ∈ allRootBytes doc' key' ↔ bytes ∈ allRootBytes doc key)) :
    (allRootBytes doc' key').filterMap g = (allRootBytes doc key).filterMap g :=
  filterMap_asSet_congr fun bytes hbytes => by
    simpa only [allRootBytes, mem_asSet] using h bytes hbytes

theorem rootString_congr (h : doc'.history.shown key = doc.history.shown key) :
    rootString doc' key = rootString doc key := by
  rw [rootString, rootString, Multivalue.History.newest, Multivalue.History.newest, h]

theorem rootString_put (doc : RootMap K) (key : K) (text : Bytes) :
    rootString (doc.put key (.text text)) key = some text := by
  rw [rootString, RootMap.newest_put]
  rfl

theorem rootString_of_shown_eq_nil (h : doc.history.shown key = []) :
    rootString doc key = none := by
  rw [rootString, Multivalue.History.newest, h]
  rfl

theorem rootString_delete (doc : RootMap K) (key : K) : rootString (doc.delete key) key = none :=
  rootString_of_shown_eq_nil (RootMap.shown_delete doc key)

theorem rootString_deleteAll (doc : RootMap K) (keys : List K) (key : K) :
    rootString (doc.deleteAll keys) key = if key ∈ keys then none else rootString doc key := by
  have hshown := RootMap.shown_deleteAll doc keys key
  split_ifs with hkey
  · rw [if_pos hkey] at hshown
    exact rootString_of_shown_eq_nil hshown
  · rw [if_neg hkey] at hshown
    exact rootString_congr hshown

theorem rootString_putAll_of_not_mem {doc : RootMap K} {fields : List (K × Value)} {key : K}
    (hkey : key ∉ fields.map Prod.fst) :
    rootString (doc.putAll fields) key = rootString doc key :=
  rootString_congr (RootMap.shown_putAll_of_not_mem hkey)

/-- Texts put under distinct keys are what is read. -/
theorem rootString_putAll_of_mem {doc : RootMap K} {fields : List (K × Value)} {key : K}
    {text : Bytes} (hnodup : (fields.map Prod.fst).Nodup) (h : (key, .text text) ∈ fields) :
    rootString (doc.putAll fields) key = some text := by
  induction fields generalizing doc with
  | nil => exact absurd h List.not_mem_nil
  | cons field rest ih =>
    rw [List.map_cons, List.nodup_cons] at hnodup
    rw [RootMap.putAll_cons]
    rcases List.mem_cons.1 h with rfl | h
    · rw [rootString_putAll_of_not_mem hnodup.1, rootString_put]
    · exact ih hnodup.2 h

/-- What is read is listed. -/
theorem mem_keys_of_rootString {text : Bytes} (h : rootString doc key = some text) :
    key ∈ doc.keys := by
  refine RootMap.mem_keys.2 fun hnil => ?_
  rw [rootString_of_shown_eq_nil hnil] at h
  exact (nomatch h)

end Readings

end Polyvisor
