import Polyvisor.Engine.Envelope
import Polyvisor.Engine.Snapshot
import Mathlib.Data.Finset.Card
import Mathlib.Data.Finset.Filter

/-!
# Opening a raw tree

`Vault::open_raw` of `engine/src/vault.rs`: a walk over the keys that envelopes carry, cut to the
parents that were signed. Encryption is a parameter here, with no law: the results hold whatever
an envelope contains and whichever keys open it.

## Main results

* `restore_state`: a restart keeps the document and the entry points, and keyhive still knows it.
* `visit_cases`, `drain_spec`: what one turn of the walk does, and where the walk ends.
* `openRaw_confined`: a batch that fails moves no head; one that succeeds returns what the walk
  over signed edges reaches, all of it, and retains keys along signed edges only.
-/

namespace Polyvisor.RawOpening

open Std

variable {κ C : Type}

/-! ## The vault -/

/-- keyhive's ciphertexts and their encodings, with keys `κ` and ciphertexts `C`. -/
structure RawCodec (κ C : Type) where
  /-- `bincode::deserialize::<Ciphertext>`. -/
  decode : Bytes → Option C
  /-- `content_ref`. -/
  contentRef : C → Cref
  /-- `pred_refs`. -/
  predRefs : C → Bytes32
  /-- `Digest::hash` of a list of references. -/
  hash : List Cref → Bytes32
  /-- `try_decrypt`. -/
  tryDecrypt : C → κ → Option Bytes
  /-- `bincode::deserialize::<Envelope<Cref, Vec<u8>>>`. -/
  envelope : Bytes → Except String (Envelope κ Bytes)

/-- A vault: its keyhive and its head map. -/
structure RawVault (κ C : Type) where
  /-- The documents keyhive knows. -/
  documents : List Bytes32
  /-- The document this device seals to. -/
  doc : Bytes32
  /-- `create` generates the document, `adopt` refuses one that keyhive does not know, and `restore`
  gets what `state` archived. -/
  known : doc ∈ documents
  /-- `try_decrypt_content_keyed` on that document. -/
  epoch : C → Option (Bytes × κ)
  /-- `heads`. -/
  heads : Heads κ

/-- `create`. -/
def RawVault.create (doc : Bytes32) (epoch : C → Option (Bytes × κ)) : RawVault κ C where
  documents := [doc]
  doc := doc
  known := List.mem_singleton_self doc
  epoch := epoch
  heads := ∅

/-- The end of `adopt`: another document, if keyhive knows it by now. -/
def RawVault.adopt (v : RawVault κ C) (documents : List Bytes32) (doc : Bytes32)
    (epoch : C → Option (Bytes × κ)) (heads : Heads κ) : Except String (RawVault κ C) :=
  if h : doc ∈ documents then .ok { v with documents, doc, known := h, epoch, heads }
  else .error "that device sent a document this one cannot see"

/-- The order in which a hash map yields its entries. -/
structure HashOrder where
  of : {α : Type} → List α → List α
  perm : ∀ {α : Type} (l : List α), (of l).Perm l

/-! ### Across a restart -/

/-- What keyhive archives: the documents it knows, and what the current epoch of each opens. -/
structure Keyhive (κ C : Type) where
  documents : List Bytes32
  /-- `try_decrypt_content_keyed`. -/
  epoch : Bytes32 → C → Option (Bytes × κ)

/-- keyhive's `Archive`, in the bytes of a checkpoint. -/
structure Archive (κ C : Type) where
  /-- `into_archive`. -/
  pack : Keyhive κ C → Bytes
  /-- `try_from_archive`. -/
  unpack : Bytes → Except String (Keyhive κ C)

/-- What comes out of an archive knows the documents that went into it. -/
def Archive.Lawful (a : Archive κ C) : Prop :=
  ∀ kh kh', a.unpack (a.pack kh) = .ok kh' → ∀ d ∈ kh.documents, d ∈ kh'.documents

/-- `VaultState`. A checkpoint holds what `state` returned. -/
structure VaultState (a : Archive κ C) where
  archive : Bytes
  doc : Bytes32
  heads : List (Cref × κ)
  saved : ∃ kh, archive = a.pack kh ∧ doc ∈ kh.documents

/-- `state`. What the epochs of the other documents open is not the vault's. -/
def RawVault.state (a : Archive κ C) (order : HashOrder) (v : RawVault κ C)
    (epochs : Bytes32 → C → Option (Bytes × κ)) : VaultState a where
  archive := a.pack ⟨v.documents, Function.update epochs v.doc v.epoch⟩
  doc := v.doc
  heads := order.of v.heads.toList
  saved := ⟨_, rfl, v.known⟩

theorem VaultState.known {a : Archive κ C} (ha : a.Lawful) (s : VaultState a) {kh : Keyhive κ C}
    (h : a.unpack s.archive = .ok kh) : s.doc ∈ kh.documents := by
  obtain ⟨saved, harchive, hdoc⟩ := s.saved
  rw [harchive] at h
  exact ha saved kh h s.doc hdoc

/-- `restore`. -/
def VaultState.restore {a : Archive κ C} (ha : a.Lawful) (s : VaultState a) :
    Except String (RawVault κ C) :=
  match h : a.unpack s.archive with
  | .error e => .error e
  | .ok kh => .ok {
      documents := kh.documents
      doc := s.doc
      known := s.known ha h
      epoch := kh.epoch s.doc
      heads := .ofList s.heads }

/-- A head map is collected again from its entries, in whatever order they come. -/
theorem ofList_of_toList (order : HashOrder) (heads : Heads κ) :
    (ExtTreeMap.ofList (order.of heads.toList) : Heads κ) = heads := by
  have hperm := order.perm heads.toList
  have hdistinct : (order.of heads.toList).Pairwise fun a b => ¬ compare a.1 b.1 = .eq := by
    refine (hperm.pairwise_iff fun h heq => h ?_).2 ExtTreeMap.distinct_keys_toList
    exact OrientedCmp.eq_symm heq
  refine ExtTreeMap.ext_getElem? fun c => ?_
  rcases hheld : heads[c]? with _ | key
  · refine ExtTreeMap.getElem?_ofList_of_contains_eq_false ?_
    rw [← Bool.not_eq_true, List.contains_iff_mem, List.mem_map]
    rintro ⟨⟨cref, key⟩, hmem, rfl⟩
    have hget := ExtTreeMap.mem_toList_iff_getElem?_eq_some.1 (hperm.mem_iff.1 hmem)
    exact nomatch hheld.symm.trans hget
  · refine ExtTreeMap.getElem?_ofList_of_mem ReflCmp.compare_self hdistinct (hperm.mem_iff.2 ?_)
    exact ExtTreeMap.mem_toList_iff_getElem?_eq_some.2 hheld

/-- A restart keeps the document, the entry points and whatever keyhive knew. -/
theorem restore_state {a : Archive κ C} (ha : a.Lawful) {order : HashOrder} {v v' : RawVault κ C}
    {epochs : Bytes32 → C → Option (Bytes × κ)}
    (h : (v.state a order epochs).restore ha = .ok v') :
    v'.doc = v.doc ∧ v'.heads = v.heads ∧ ∀ d ∈ v.documents, d ∈ v'.documents := by
  rw [VaultState.restore] at h
  split at h
  · exact nomatch h
  next kh hunpack =>
    obtain rfl := Except.ok.inj h
    exact ⟨rfl, ofList_of_toList order v.heads, ha _ _ hunpack⟩

/-- The signed parents of each commit, in the namespace of the tree. A `BTreeSet` of the source is
its ascending list. -/
abbrev SignedParents := ExtTreeMap Cref (List Cref)

/-- `c` is a signed parent of `d`. -/
def Related (parents : SignedParents) (d c : Cref) : Prop :=
  ∃ allowed, parents[d]? = some allowed ∧ c ∈ allowed

/-! ## The batch -/

section Batch

variable (codec : RawCodec κ C) (parents : SignedParents)

/-- `decode`: the blobs that are ciphertexts. -/
def decode (blobs : List (Cref × Bytes)) : List (Cref × C) :=
  blobs.filterMap fun (cref, blob) => (codec.decode blob).map fun encrypted => (cref, encrypted)

/-- The first loop: every ciphertext is the signed commit's, or the batch is refused. -/
def gather : List (Cref × C) → ExtTreeMap Cref C → Except String (ExtTreeMap Cref C)
  | [], encryptedByRef => .ok encryptedByRef
  | (expected, encrypted) :: rest, encryptedByRef =>
    if codec.contentRef encrypted ≠ expected then
      .error "raw ciphertext content reference does not match signed commit"
    else
      match parents[expected]? with
      | none => .error "raw ciphertext has no signed parent metadata"
      | some expectedParents =>
        if codec.predRefs encrypted ≠ codec.hash expectedParents then
          .error "raw ciphertext parents do not match signed commit"
        else gather rest (encryptedByRef.insert expected encrypted)

/-- `validate`: an envelope carries keys of signed parents only. -/
def validate (cref : Cref) (plain : Bytes) : Except String (Envelope κ Bytes) :=
  match codec.envelope plain with
  | .error e => .error ("raw chunk envelope: " ++ e)
  | .ok envelope =>
    match parents[cref]? with
    | none => .error "raw envelope has no signed parent metadata"
    | some allowed =>
      if envelope.ancestors.all fun ancestor => ancestor.1 ∈ allowed then .ok envelope
      else .error "raw envelope contains an unsigned ancestor"

/-- The locals of the walk. The source keeps the plaintext of an opened envelope, and the walk here
the envelope. -/
structure Walk (κ : Type) where
  opened : ExtTreeMap Cref (Envelope κ Bytes) := ∅
  reached : List (Cref × κ) := []
  ancestors : ExtTreeMap Cref κ := ∅
  queue : List (Cref × κ) := []

/-- An envelope is opened: the keys it carries are noted and queued. -/
def Walk.take (w : Walk κ) (cref : Cref) (envelope : Envelope κ Bytes) : Walk κ :=
  { w with
    opened := w.opened.insert cref envelope
    ancestors :=
      envelope.ancestors.foldl (fun m (ancestor, key) => m.insert ancestor key) w.ancestors
    queue := w.queue ++ envelope.ancestors }

/-- The pass under the current epoch. -/
def epochPass (epoch : C → Option (Bytes × κ)) : Walk κ → List (Cref × C) → Except String (Walk κ)
  | w, [] => .ok w
  | w, (cref, encrypted) :: rest =>
    match epoch encrypted with
    | none => epochPass epoch w rest
    | some (plain, key) =>
      match validate codec parents cref plain with
      | .error e => .error e
      | .ok envelope =>
        epochPass epoch ({ w with reached := w.reached ++ [(cref, key)] }.take cref envelope) rest

/-- Held heads are entry points for what the epoch did not open. -/
def queueHeads (heads : Heads κ) (w : Walk κ) (refs : List Cref) : Walk κ :=
  { w with queue := w.queue ++ refs.filterMap fun cref =>
      if cref ∈ w.opened then none else heads[cref]?.map fun key => (cref, key) }

/-- The body of the walk, for one entry of the queue. -/
def visit (encryptedByRef : ExtTreeMap Cref C) (w : Walk κ) (cref : Cref) (key : κ) :
    Except String (Walk κ) :=
  if cref ∈ w.opened then .ok w
  else
    match encryptedByRef[cref]? with
    | none => .ok w
    | some encrypted =>
      match codec.tryDecrypt encrypted key with
      | none => .ok w
      | some plain =>
        match validate codec parents cref plain with
        | .error e => .error e
        | .ok envelope => .ok (w.take cref envelope)

/-- What one turn does: nothing, because the entry is of no use, or it opens one more item. -/
theorem visit_cases {encryptedByRef : ExtTreeMap Cref C} {w w' : Walk κ} {cref : Cref} {key : κ}
    (h : visit codec parents encryptedByRef w cref key = .ok w') :
    (w' = w ∧ (cref ∈ w.opened ∨
        ∀ encrypted, encryptedByRef[cref]? = some encrypted →
          codec.tryDecrypt encrypted key = none)) ∨
      ∃ encrypted plain envelope, cref ∉ w.opened ∧ encryptedByRef[cref]? = some encrypted ∧
        codec.tryDecrypt encrypted key = some plain ∧
        validate codec parents cref plain = .ok envelope ∧ w' = w.take cref envelope := by
  rw [visit] at h
  split_ifs at h with hopened
  · exact .inl ⟨(Except.ok.inj h).symm, .inl hopened⟩
  rcases hitem : encryptedByRef[cref]? with _ | encrypted
  · rw [hitem] at h
    exact .inl ⟨(Except.ok.inj h).symm, .inr fun _ h => (nomatch h)⟩
  rw [hitem] at h
  rcases hplain : codec.tryDecrypt encrypted key with _ | plain
  · simp only [hplain] at h
    refine .inl ⟨(Except.ok.inj h).symm, .inr fun other hother => ?_⟩
    rw [← Option.some.inj hother]
    exact hplain
  simp only [hplain] at h
  rcases hvalid : validate codec parents cref plain with e | envelope
  · simp [hvalid] at h
  · simp only [hvalid] at h
    exact .inr ⟨encrypted, plain, envelope, hopened, rfl, hplain, hvalid, (Except.ok.inj h).symm⟩

/-- How many items of the batch are still closed. -/
def closed (encryptedByRef : ExtTreeMap Cref C) (w : Walk κ) : ℕ :=
  (encryptedByRef.keys.toFinset.filter (· ∉ w.opened)).card

/-- Opening an item leaves one less closed. -/
theorem closed_take {encryptedByRef : ExtTreeMap Cref C} {w : Walk κ} {cref : Cref}
    (hmem : cref ∈ encryptedByRef) (hclosed : cref ∉ w.opened) (envelope : Envelope κ Bytes) :
    closed encryptedByRef (w.take cref envelope) < closed encryptedByRef w := by
  refine Finset.card_lt_card ((Finset.ssubset_iff_of_subset fun c hc => ?_).2 ⟨cref, ?_, ?_⟩)
  · rw [Finset.mem_filter] at hc ⊢
    refine ⟨hc.1, fun h => hc.2 ?_⟩
    exact ExtTreeMap.mem_insert.2 (.inr h)
  · simpa using ⟨hmem, hclosed⟩
  · simp [Walk.take]

/-- The walk: turns until the queue is empty. -/
def drain (encryptedByRef : ExtTreeMap Cref C) (w : Walk κ) : Except String (Walk κ) :=
  match _hqueue : w.queue with
  | [] => .ok w
  | (cref, key) :: queue =>
    match _hvisit : visit codec parents encryptedByRef { w with queue } cref key with
    | .error e => .error e
    | .ok w' => drain encryptedByRef w'
termination_by (closed encryptedByRef w, w.queue.length)
decreasing_by
  rcases visit_cases codec parents _hvisit with
    ⟨rfl, -⟩ | ⟨encrypted, plain, envelope, hclosed, hitem, -, -, rfl⟩
  · refine Prod.Lex.right _ ?_
    rw [_hqueue, List.length_cons]
    exact Nat.lt_succ_self queue.length
  · have hmem : cref ∈ encryptedByRef :=
      ExtTreeMap.isSome_getElem?_iff_mem.1 (by rw [hitem]; rfl)
    exact Prod.Lex.left _ _ (closed_take hmem hclosed envelope)

theorem drain_nil {encryptedByRef : ExtTreeMap Cref C} {w : Walk κ} (h : w.queue = []) :
    drain codec parents encryptedByRef w = .ok w := by
  rw [drain]
  split
  next => rfl
  next hqueue =>
    rw [h] at hqueue
    exact nomatch hqueue

theorem drain_cons {encryptedByRef : ExtTreeMap Cref C} {w w' : Walk κ} {cref : Cref} {key : κ}
    {queue : List (Cref × κ)} (h : w.queue = (cref, key) :: queue)
    (hvisit : visit codec parents encryptedByRef { w with queue } cref key = .ok w') :
    drain codec parents encryptedByRef w = drain codec parents encryptedByRef w' := by
  rw [drain]
  split
  next hqueue =>
    rw [h] at hqueue
    exact nomatch hqueue
  next hqueue =>
    rw [h] at hqueue
    obtain ⟨hentry, rfl⟩ := List.cons.inj hqueue
    obtain ⟨rfl, rfl⟩ := Prod.mk.inj hentry
    split
    next hfailed => exact nomatch hvisit.symm.trans hfailed
    next hnext => rw [Except.ok.inj (hvisit.symm.trans hnext)]

/-- Which ancestor keys are covered, and which become heads beside what the epoch opened. -/
def settle (order : HashOrder) (heads : Heads κ) (w : Walk κ) : List (Cref × κ) × List Cref :=
  let ancestors := order.of w.ancestors.toList
  let isCovered (cref : Cref) : Bool := cref ∈ w.opened || cref ∈ heads
  let covered := (ancestors.map Prod.fst).filter isCovered
  ((w.reached ++ ancestors.filter fun (cref, _) => !isCovered cref).filter
    fun (cref, _) => cref ∉ covered, covered)

/-- The walk of `open_raw`, up to the head map. -/
def openBatch (order : HashOrder) (v : RawVault κ C) (blobs : List (Cref × Bytes)) :
    Except String (Walk κ) := do
  let encryptedByRef ← gather codec parents (decode codec blobs) ∅
  let entries := order.of encryptedByRef.toList
  let w ← epochPass codec parents v.epoch {} entries
  drain codec parents encryptedByRef (queueHeads v.heads w (entries.map Prod.fst))

end Batch

/-- `open_raw`: the vault it leaves, and its answer. -/
def RawVault.openRaw (v : RawVault κ C) (codec : RawCodec κ C) (order : HashOrder)
    (blobs : List (Cref × Bytes)) (parents : SignedParents) :
    RawVault κ C × Except String (List (Cref × Bytes)) :=
  if v.doc ∉ v.documents then (v, .ok [])
  else
    match openBatch codec parents order v blobs with
    | .error e => (v, .error e)
    | .ok w =>
      let (reached, covered) := settle order v.heads w
      ({ v with heads := advanceHeads v.heads reached covered },
        .ok (w.opened.toList.map fun (cref, envelope) => (cref, envelope.plaintext)))

/-! ## What the walk may do -/

section Walk

variable (codec : RawCodec κ C) (v : RawVault κ C) (blobs : List (Cref × Bytes))
  (parents : SignedParents)

/-- An item of the batch: a blob under its reference that is a ciphertext. -/
def Item (c : Cref) (encrypted : C) : Prop :=
  ∃ blob, (c, blob) ∈ blobs ∧ codec.decode blob = some encrypted

/-- The envelopes that may be opened: an item of the batch whose envelope carries keys of signed
parents only, opened under the epoch, with a held head's key, or with a key that the envelope of
an opened item carries for a signed parent. -/
inductive Opens : Cref → Envelope κ Bytes → Prop
  | epoch {c encrypted plain key e} (hitem : Item codec blobs c encrypted)
      (hopen : v.epoch encrypted = some (plain, key)) (henvelope : codec.envelope plain = .ok e)
      (hsigned : ∀ a ∈ e.ancestors, Related parents c a.1) : Opens c e
  | head {c encrypted plain key e} (hitem : Item codec blobs c encrypted)
      (hheld : v.heads[c]? = some key) (hopen : codec.tryDecrypt encrypted key = some plain)
      (henvelope : codec.envelope plain = .ok e)
      (hsigned : ∀ a ∈ e.ancestors, Related parents c a.1) : Opens c e
  | edge {d e c key encrypted plain e'} (hd : Opens d e) (hkey : (c, key) ∈ e.ancestors)
      (hrelated : Related parents d c) (hitem : Item codec blobs c encrypted)
      (hopen : codec.tryDecrypt encrypted key = some plain)
      (henvelope : codec.envelope plain = .ok e')
      (hsigned : ∀ a ∈ e'.ancestors, Related parents c a.1) : Opens c e'

/-- The items that the walk should open, where `envelopes` is what each opened item was opened as:
those that open under the epoch or with a held head's key, and from these on those that open with
a key carried along a signed edge. -/
inductive Reachable (envelopes : Cref → Option (Envelope κ Bytes)) : Cref → Prop
  | epoch {c encrypted} (hitem : Item codec blobs c encrypted)
      (hopen : (v.epoch encrypted).isSome) : Reachable envelopes c
  | head {c encrypted key} (hitem : Item codec blobs c encrypted) (hheld : v.heads[c]? = some key)
      (hopen : (codec.tryDecrypt encrypted key).isSome) : Reachable envelopes c
  | edge {d e c key encrypted} (hd : Reachable envelopes d) (he : envelopes d = some e)
      (hkey : (c, key) ∈ e.ancestors) (hrelated : Related parents d c)
      (hitem : Item codec blobs c encrypted) (hopen : (codec.tryDecrypt encrypted key).isSome) :
      Reachable envelopes c

/-- A batch that was opened: what was returned, what became of the head map. -/
structure Confined (envelopes : Cref → Option (Envelope κ Bytes)) (heads : Heads κ)
    (out : List (Cref × Bytes)) : Prop where
  /-- What is returned are the plaintexts of the opened items. -/
  returned : ∀ c plaintext, (c, plaintext) ∈ out ↔
    ∃ e, envelopes c = some e ∧ e.plaintext = plaintext
  /-- Every edge that was followed is signed. -/
  followed : ∀ c e, envelopes c = some e → Opens codec v blobs parents c e
  /-- A retained key was held, opened an item under the epoch, or came along a signed edge. -/
  retained : ∀ c key, heads[c]? = some key → v.heads[c]? = some key ∨
    (∃ encrypted plain, Item codec blobs c encrypted ∧ v.epoch encrypted = some (plain, key)) ∨
    ∃ d e, Opens codec v blobs parents d e ∧ (c, key) ∈ e.ancestors ∧ Related parents d c
  /-- A head that is gone is a signed parent of an opened item. -/
  dropped : ∀ c ∈ v.heads, c ∉ heads →
    ∃ d e key, Opens codec v blobs parents d e ∧ (c, key) ∈ e.ancestors ∧ Related parents d c
  /-- Nothing that the walk should open is missing. -/
  complete : ∀ c, Reachable codec v blobs parents envelopes c → (envelopes c).isSome

end Walk

variable {codec : RawCodec κ C} {v : RawVault κ C} {blobs : List (Cref × Bytes)}
  {parents : SignedParents} {order : HashOrder} {encryptedByRef : ExtTreeMap Cref C}
  {w w' : Walk κ} {c : Cref} {e : Envelope κ Bytes}

theorem Opens.signed (h : Opens codec v blobs parents c e) :
    ∀ a ∈ e.ancestors, Related parents c a.1 := by
  rcases h with ⟨-, -, -, hsigned⟩ | ⟨-, -, -, -, hsigned⟩ | ⟨-, -, -, -, -, -, hsigned⟩
  · exact hsigned
  · exact hsigned
  · exact hsigned

theorem validate_eq_ok {plain : Bytes} (h : validate codec parents c plain = .ok e) :
    codec.envelope plain = .ok e ∧ ∀ a ∈ e.ancestors, Related parents c a.1 := by
  rw [validate] at h
  rcases henvelope : codec.envelope plain with text | envelope
  · simp [henvelope] at h
  rcases hallowed : parents[c]? with _ | allowed
  · simp [henvelope, hallowed] at h
  simp only [henvelope, hallowed] at h
  split_ifs at h with hall
  obtain rfl := Except.ok.inj h
  exact ⟨rfl, fun a ha => ⟨allowed, hallowed, by simpa using List.all_eq_true.1 hall a ha⟩⟩

/-! ## The batch -/

theorem mem_decode {encrypted : C} :
    (c, encrypted) ∈ decode codec blobs ↔ Item codec blobs c encrypted := by
  simp only [decode, List.mem_filterMap, Option.map_eq_some_iff, Prod.mk.injEq, Item]
  constructor
  · rintro ⟨⟨cref, blob⟩, hmem, encrypted', hdecode, rfl, rfl⟩
    exact ⟨blob, hmem, hdecode⟩
  · rintro ⟨blob, hmem, hdecode⟩
    exact ⟨(c, blob), hmem, encrypted, hdecode, rfl, rfl⟩

theorem nodup_decode (h : (blobs.map Prod.fst).Nodup) :
    ((decode codec blobs).map Prod.fst).Nodup := by
  refine List.Sublist.nodup ?_ h
  induction blobs with
  | nil => exact List.Sublist.refl _
  | cons item rest ih =>
    obtain ⟨cref, blob⟩ := item
    have hrest := ih (List.nodup_cons.1 h).2
    rcases hdecode : codec.decode blob with _ | encrypted
    · simpa [decode, hdecode] using hrest.trans (List.sublist_cons_self _ _)
    · simpa [decode, hdecode] using hrest

/-- What is gathered are the entries of the batch. -/
theorem of_gather {l : List (Cref × C)} {m m' : ExtTreeMap Cref C}
    (h : gather codec parents l m = .ok m') {encrypted : C} (hc : m'[c]? = some encrypted) :
    m[c]? = some encrypted ∨ (c, encrypted) ∈ l := by
  induction l generalizing m with
  | nil =>
    obtain rfl := Except.ok.inj h
    exact .inl hc
  | cons item rest ih =>
    obtain ⟨expected, first⟩ := item
    rw [gather] at h
    split_ifs at h
    rcases hparents : parents[expected]? with _ | expectedParents
    · simp [hparents] at h
    simp only [hparents] at h
    split_ifs at h
    rcases ih h with hinsert | hmem
    · rw [ExtTreeMap.getElem?_insert] at hinsert
      split_ifs at hinsert with heq
      · obtain rfl := LawfulEqOrd.eq_of_compare heq
        obtain rfl := Option.some.inj hinsert
        exact .inr List.mem_cons_self
      · exact .inl hinsert
    · exact .inr (List.mem_cons_of_mem _ hmem)

/-- Where no reference stands twice, every entry of the batch is gathered. -/
theorem gather_complete {l : List (Cref × C)} {m m' : ExtTreeMap Cref C}
    (h : gather codec parents l m = .ok m') (hl : (l.map Prod.fst).Nodup) :
    (∀ cref, cref ∉ l.map Prod.fst → m'[cref]? = m[cref]?) ∧
      ∀ item ∈ l, m'[item.1]? = some item.2 := by
  induction l generalizing m with
  | nil =>
    obtain rfl := Except.ok.inj h
    exact ⟨fun _ _ => rfl, fun _ h => (nomatch h)⟩
  | cons item rest ih =>
    obtain ⟨expected, first⟩ := item
    rw [gather] at h
    split_ifs at h
    rcases hparents : parents[expected]? with _ | expectedParents
    · simp [hparents] at h
    simp only [hparents] at h
    split_ifs at h
    rw [List.map_cons, List.nodup_cons] at hl
    obtain ⟨hother, hrest⟩ := ih h hl.2
    constructor
    · intro cref hcref
      rw [List.map_cons, List.mem_cons, not_or] at hcref
      rw [hother cref hcref.2, ExtTreeMap.getElem?_insert]
      exact if_neg fun heq => hcref.1 (LawfulEqOrd.eq_of_compare heq).symm
    · intro item hitem
      rcases List.mem_cons.1 hitem with rfl | hmem
      · rw [hother expected hl.1, ExtTreeMap.getElem?_insert_self]
      · exact hrest item hmem

/-! ## The walk -/

/-- Everything the walk holds it came by in a way it may. -/
structure Sound (codec : RawCodec κ C) (v : RawVault κ C) (blobs : List (Cref × Bytes))
    (parents : SignedParents) (w : Walk κ) : Prop where
  opened : ∀ c e, w.opened[c]? = some e → Opens codec v blobs parents c e
  queue : ∀ a ∈ w.queue, v.heads[a.1]? = some a.2 ∨
    ∃ d e, Opens codec v blobs parents d e ∧ a ∈ e.ancestors
  ancestors : ∀ c key, w.ancestors[c]? = some key →
    ∃ d e, Opens codec v blobs parents d e ∧ (c, key) ∈ e.ancestors
  reached : ∀ a ∈ w.reached, ∃ encrypted plain, Item codec blobs a.1 encrypted ∧
    v.epoch encrypted = some (plain, a.2)

/-- A key that opens nothing in the batch. -/
def Useless (codec : RawCodec κ C) (encryptedByRef : ExtTreeMap Cref C) (a : Cref × κ) : Prop :=
  ∀ encrypted, encryptedByRef[a.1]? = some encrypted → codec.tryDecrypt encrypted a.2 = none

/-- No key that an opened envelope carries has been dropped. -/
def Pending (codec : RawCodec κ C) (encryptedByRef : ExtTreeMap Cref C) (w : Walk κ) : Prop :=
  ∀ (d : Cref) (e : Envelope κ Bytes), w.opened[d]? = some e → ∀ a ∈ e.ancestors,
    a.1 ∈ w.opened ∨ a ∈ w.queue ∨ Useless codec encryptedByRef a

theorem Sound.take (h : Sound codec v blobs parents w)
    (hopens : Opens codec v blobs parents c e) : Sound codec v blobs parents (w.take c e) where
  opened c' e' hget := by
    rw [Walk.take, ExtTreeMap.getElem?_insert] at hget
    split_ifs at hget with heq
    · obtain rfl := LawfulEqOrd.eq_of_compare heq
      obtain rfl := Option.some.inj hget
      exact hopens
    · exact h.opened c' e' hget
  queue a ha := by
    rcases List.mem_append.1 ha with hold | hnew
    · exact h.queue a hold
    · exact .inr ⟨c, e, hopens, hnew⟩
  ancestors c' key hget := by
    rcases getElem?_foldl_insert hget with hnew | hold
    · exact ⟨c, e, hopens, hnew⟩
    · exact h.ancestors c' key hold
  reached := h.reached

theorem Pending.take (h : Pending codec encryptedByRef w) :
    Pending codec encryptedByRef (w.take c e) := by
  intro d e' hget a ha
  rw [Walk.take, ExtTreeMap.getElem?_insert] at hget
  split_ifs at hget
  · obtain rfl := Option.some.inj hget
    exact .inr (.inl (List.mem_append_right _ ha))
  · rcases h d e' hget a ha with hopened | hqueued | huseless
    · exact .inl (ExtTreeMap.mem_insert.2 (.inr hopened))
    · exact .inr (.inl (List.mem_append_left _ hqueued))
    · exact .inr (.inr huseless)

/-- An entry that is of no more use may leave the queue. -/
theorem Pending.pop {a : Cref × κ} {queue : List (Cref × κ)} (h : Pending codec encryptedByRef w)
    (hqueue : w.queue = a :: queue) (hdone : a.1 ∈ w.opened ∨ Useless codec encryptedByRef a) :
    Pending codec encryptedByRef { w with queue } := by
  intro d e hget a' ha'
  rcases h d e hget a' ha' with hopened | hqueued | huseless
  · exact .inl hopened
  · rw [hqueue] at hqueued
    rcases List.mem_cons.1 hqueued with rfl | hmem
    · exact hdone.imp id fun hu => .inr hu
    · exact .inr (.inl hmem)
  · exact .inr (.inr huseless)

/-- The pass under the epoch opens what it can and keeps the invariants. -/
theorem epochPass_spec {entries : List (Cref × C)}
    (hentries : ∀ item ∈ entries, Item codec blobs item.1 item.2)
    (h : epochPass codec parents v.epoch w entries = .ok w')
    (hsound : Sound codec v blobs parents w) (hpending : Pending codec encryptedByRef w) :
    Sound codec v blobs parents w' ∧ Pending codec encryptedByRef w' ∧
      (∀ c ∈ w.opened, c ∈ w'.opened) ∧
      ∀ item ∈ entries, (v.epoch item.2).isSome → item.1 ∈ w'.opened := by
  induction entries generalizing w with
  | nil =>
    obtain rfl := Except.ok.inj h
    exact ⟨hsound, hpending, fun _ hc => hc, fun _ hitem => (nomatch hitem)⟩
  | cons item rest ih =>
    obtain ⟨cref, encrypted⟩ := item
    obtain ⟨hitem, hrest⟩ := List.forall_mem_cons.1 hentries
    rw [epochPass] at h
    rcases hopen : v.epoch encrypted with _ | ⟨plain, key⟩
    · simp only [hopen] at h
      obtain ⟨hsound', hpending', hgrows, hopened⟩ := ih hrest h hsound hpending
      refine ⟨hsound', hpending', hgrows, fun other hother hsome => ?_⟩
      rcases List.mem_cons.1 hother with rfl | hmem
      · simp [hopen] at hsome
      · exact hopened other hmem hsome
    simp only [hopen] at h
    rcases hvalid : validate codec parents cref plain with text | envelope
    · simp [hvalid] at h
    simp only [hvalid] at h
    obtain ⟨henvelope, hsigned⟩ := validate_eq_ok hvalid
    have hopens : Opens codec v blobs parents cref envelope :=
      .epoch hitem hopen henvelope hsigned
    -- noting the key beside the others, then opening the item
    have hnoted : Sound codec v blobs parents { w with reached := w.reached ++ [(cref, key)] } :=
      { hsound with
        reached := fun a ha => by
          rcases List.mem_append.1 ha with hold | hnew
          · exact hsound.reached a hold
          · obtain rfl := List.mem_singleton.1 hnew
            exact ⟨encrypted, plain, hitem, hopen⟩ }
    have hpending' : Pending codec encryptedByRef
        { w with reached := w.reached ++ [(cref, key)] } := hpending
    obtain ⟨hsound'', hpending'', hgrows, hopened⟩ := ih hrest h (hnoted.take hopens) hpending'.take
    refine ⟨hsound'', hpending'', fun c hc => hgrows c ?_, fun other hother hsome => ?_⟩
    · exact ExtTreeMap.mem_insert.2 (.inr hc)
    · rcases List.mem_cons.1 hother with rfl | hmem
      · exact hgrows cref ExtTreeMap.mem_insert_self
      · exact hopened other hmem hsome

/-- Where the walk ends: the invariants hold, the queue is empty, and every entry it ever queued
has led to an opened item or opens nothing. -/
theorem drain_spec (hitems : ∀ c encrypted, encryptedByRef[c]? = some encrypted →
      Item codec blobs c encrypted)
    (h : drain codec parents encryptedByRef w = .ok w') (hsound : Sound codec v blobs parents w)
    (hpending : Pending codec encryptedByRef w) :
    Sound codec v blobs parents w' ∧ Pending codec encryptedByRef w' ∧ w'.queue = [] ∧
      (∀ c ∈ w.opened, c ∈ w'.opened) ∧
      ∀ a ∈ w.queue, a.1 ∈ w'.opened ∨ Useless codec encryptedByRef a := by
  fun_induction drain codec parents encryptedByRef w with
  | case1 w hqueue =>
    obtain rfl := Except.ok.inj h
    refine ⟨hsound, hpending, hqueue, fun _ hc => hc, fun a ha => ?_⟩
    rw [hqueue] at ha
    exact absurd ha List.not_mem_nil
  | case2 => exact absurd h (by simp)
  | case3 w cref key queue hqueue next hvisit ih =>
    have hentry : (cref, key) ∈ w.queue := by
      rw [hqueue]
      exact List.mem_cons_self
    have hlater : ∀ a ∈ queue, a ∈ w.queue := fun a ha => by
      rw [hqueue]
      exact List.mem_cons_of_mem _ ha
    have hpopped : Sound codec v blobs parents { w with queue } :=
      { hsound with queue := fun a ha => hsound.queue a (hlater a ha) }
    rcases visit_cases codec parents hvisit with
      ⟨rfl, huse⟩ | ⟨encrypted, plain, envelope, hclosed, hitem, hplain, hvalid, rfl⟩
    · -- the entry is of no use: its item is open, or its key opens nothing
      have hdone : cref ∈ w.opened ∨ Useless codec encryptedByRef (cref, key) := huse
      obtain ⟨hsound', hpending', hempty, hgrows, hdrained⟩ :=
        ih h hpopped (hpending.pop hqueue hdone)
      refine ⟨hsound', hpending', hempty, hgrows, fun a ha => ?_⟩
      rw [hqueue] at ha
      rcases List.mem_cons.1 ha with rfl | hmem
      · exact hdone.imp (hgrows cref) id
      · exact hdrained a hmem
    · obtain ⟨henvelope, hsigned⟩ := validate_eq_ok hvalid
      have hopens : Opens codec v blobs parents cref envelope := by
        rcases hsound.queue _ hentry with hheld | ⟨d, e, hd, hkey⟩
        · exact .head (hitems cref encrypted hitem) hheld hplain henvelope hsigned
        · exact .edge hd hkey (hd.signed _ hkey) (hitems cref encrypted hitem) hplain henvelope
            hsigned
      have htaken : (w.take cref envelope).queue =
          (cref, key) :: (queue ++ envelope.ancestors) := by
        rw [Walk.take, hqueue, List.cons_append]
      have hpending' := (hpending.take (c := cref) (e := envelope)).pop htaken
        (.inl ExtTreeMap.mem_insert_self)
      obtain ⟨hsound', hpending'', hempty, hgrows, hdrained⟩ := ih h (hpopped.take hopens) hpending'
      refine ⟨hsound', hpending'', hempty, fun c hc => hgrows c ?_, fun a ha => ?_⟩
      · exact ExtTreeMap.mem_insert.2 (.inr hc)
      rw [hqueue] at ha
      rcases List.mem_cons.1 ha with rfl | hmem
      · exact .inl (hgrows cref ExtTreeMap.mem_insert_self)
      · exact hdrained a (List.mem_append_left _ hmem)

/-! ## The head map -/

theorem mem_settle_reached {a : Cref × κ} {heads : Heads κ} (h : a ∈ (settle order heads w).1) :
    a ∈ w.reached ∨ w.ancestors[a.1]? = some a.2 := by
  rcases List.mem_append.1 (List.mem_filter.1 h).1 with hreached | hancestor
  · exact .inl hreached
  · have hmem := (order.perm w.ancestors.toList).mem_iff.1 (List.mem_filter.1 hancestor).1
    exact .inr (ExtTreeMap.mem_toList_iff_getElem?_eq_some.1 hmem)

theorem mem_settle_covered {heads : Heads κ} (h : c ∈ (settle order heads w).2) :
    ∃ key, w.ancestors[c]? = some key := by
  obtain ⟨⟨cref, key⟩, hmem, rfl⟩ := List.mem_map.1 (List.mem_filter.1 h).1
  rw [(order.perm w.ancestors.toList).mem_iff] at hmem
  exact ⟨key, ExtTreeMap.mem_toList_iff_getElem?_eq_some.1 hmem⟩

/-! ## The call -/

/-- What the walk of a whole batch leaves. -/
structure Walked (codec : RawCodec κ C) (v : RawVault κ C) (blobs : List (Cref × Bytes))
    (parents : SignedParents) (w : Walk κ) : Prop extends Sound codec v blobs parents w where
  complete : ∀ c, Reachable codec v blobs parents (fun c => w.opened[c]?) c → c ∈ w.opened

theorem of_openBatch (h : openBatch codec parents order v blobs = .ok w) :
    ∃ encryptedByRef w', gather codec parents (decode codec blobs) ∅ = .ok encryptedByRef ∧
      epochPass codec parents v.epoch {} (order.of encryptedByRef.toList) = .ok w' ∧
      drain codec parents encryptedByRef (queueHeads v.heads w'
        ((order.of encryptedByRef.toList).map Prod.fst)) = .ok w := by
  rw [openBatch] at h
  rcases hgather : gather codec parents (decode codec blobs) ∅ with text | encryptedByRef
  · rw [hgather] at h
    exact nomatch h
  have hrest : (epochPass codec parents v.epoch {} (order.of encryptedByRef.toList) >>= fun w =>
      drain codec parents encryptedByRef (queueHeads v.heads w
        ((order.of encryptedByRef.toList).map Prod.fst))) = .ok w := by
    rw [hgather] at h
    exact h
  rcases hepoch : epochPass codec parents v.epoch {} (order.of encryptedByRef.toList) with text | w'
  · rw [hepoch] at hrest
    exact nomatch hrest
  · rw [hepoch] at hrest
    exact ⟨encryptedByRef, w', rfl, hepoch, hrest⟩

theorem walked_openBatch (hblobs : (blobs.map Prod.fst).Nodup)
    (h : openBatch codec parents order v blobs = .ok w) : Walked codec v blobs parents w := by
  obtain ⟨encryptedByRef, w', hgather, hepoch, hdrain⟩ := of_openBatch h
  have hitems : ∀ c encrypted, encryptedByRef[c]? = some encrypted →
      Item codec blobs c encrypted := fun c encrypted hget => by
    rcases of_gather hgather hget with hempty | hmem
    · simp at hempty
    · exact mem_decode.1 hmem
  have hfound : ∀ c encrypted, Item codec blobs c encrypted →
      encryptedByRef[c]? = some encrypted := fun c encrypted hitem =>
    (gather_complete hgather (nodup_decode hblobs)).2 _ (mem_decode.2 hitem)
  have hentries : ∀ item : Cref × C, item ∈ order.of encryptedByRef.toList ↔
      encryptedByRef[item.1]? = some item.2 := fun item => by
    rw [(order.perm encryptedByRef.toList).mem_iff]
    exact ExtTreeMap.mem_toList_iff_getElem?_eq_some
  have hstart : Sound codec v blobs parents {} := by
    refine ⟨fun c e hget => ?_, fun a ha => (nomatch ha), fun c key hget => ?_,
      fun a ha => (nomatch ha)⟩
    · simp at hget
    · simp at hget
  have hnothing : Pending codec encryptedByRef ({} : Walk κ) := by
    intro d e hget
    simp at hget
  obtain ⟨hsound, hpending, -, hopened⟩ := epochPass_spec
    (fun item hitem => hitems _ _ ((hentries item).1 hitem)) hepoch hstart hnothing
  have hqueued : Sound codec v blobs parents (queueHeads v.heads w'
      ((order.of encryptedByRef.toList).map Prod.fst)) :=
    { hsound with
      queue := fun a ha => by
        rcases List.mem_append.1 ha with hold | hnew
        · exact hsound.queue a hold
        · obtain ⟨cref, -, hcref⟩ := List.mem_filterMap.1 hnew
          split_ifs at hcref
          obtain ⟨key, hheld, rfl⟩ := Option.map_eq_some_iff.1 hcref
          exact .inl hheld }
  have hpending' : Pending codec encryptedByRef (queueHeads v.heads w'
      ((order.of encryptedByRef.toList).map Prod.fst)) := by
    intro d e hget a ha
    rcases hpending d e hget a ha with ho | hq | hu
    · exact .inl ho
    · exact .inr (.inl (List.mem_append_left _ hq))
    · exact .inr (.inr hu)
  obtain ⟨hsound', hpending'', hempty, hgrows, hdrained⟩ :=
    drain_spec hitems hdrain hqueued hpending'
  refine { hsound' with complete := fun c hc => ?_ }
  induction hc with
  | @epoch c encrypted hitem hopen =>
    exact hgrows c (hopened _ ((hentries (c, encrypted)).2 (hfound c encrypted hitem)) hopen)
  | @head c encrypted key hitem hheld hopen =>
    have hget := hfound c encrypted hitem
    have huseful : ¬ Useless codec encryptedByRef (c, key) := fun hu => by
      rw [hu encrypted hget] at hopen
      exact Bool.false_ne_true hopen
    by_cases hdone : c ∈ w'.opened
    · exact hgrows c hdone
    · -- a held head that the epoch did not open was queued
      have hseed : (c, key) ∈ (queueHeads v.heads w'
          ((order.of encryptedByRef.toList).map Prod.fst)).queue := by
        refine List.mem_append_right _ (List.mem_filterMap.2 ⟨c, ?_, ?_⟩)
        · exact List.mem_map.2 ⟨(c, encrypted), (hentries _).2 hget, rfl⟩
        · rw [if_neg hdone, hheld]
          rfl
      exact (hdrained _ hseed).resolve_right huseful
  | @edge d e c key encrypted hd he hkey hrelated hitem hopen ih =>
    have huseful : ¬ Useless codec encryptedByRef (c, key) := fun hu => by
      rw [hu encrypted (hfound c encrypted hitem)] at hopen
      exact Bool.false_ne_true hopen
    rcases hpending'' d e he (c, key) hkey with ho | hq | hu
    · exact ho
    · rw [hempty] at hq
      exact absurd hq List.not_mem_nil
    · exact absurd hu huseful

/-- A batch that fails leaves the vault as it was. One that succeeds returns exactly what the walk
over signed edges opens, and moves the head map along signed edges only. -/
theorem openRaw_confined (codec : RawCodec κ C) (order : HashOrder) (v : RawVault κ C)
    (blobs : List (Cref × Bytes)) (parents : SignedParents)
    (hblobs : (blobs.map Prod.fst).Nodup) :
    (∀ text, (v.openRaw codec order blobs parents).2 = .error text →
      (v.openRaw codec order blobs parents).1 = v) ∧
    ∀ out, (v.openRaw codec order blobs parents).2 = .ok out → ∃ envelopes,
      Confined codec v blobs parents envelopes (v.openRaw codec order blobs parents).1.heads
        out := by
  rcases hbatch : openBatch codec parents order v blobs with text | w
  · have hrun : v.openRaw codec order blobs parents = (v, .error text) := by
      rw [RawVault.openRaw, if_neg (not_not.2 v.known), hbatch]
    rw [hrun]
    exact ⟨fun _ _ => rfl, fun _ h => (nomatch h)⟩
  have hrun : v.openRaw codec order blobs parents =
      ({ v with
          heads := advanceHeads v.heads (settle order v.heads w).1 (settle order v.heads w).2 },
        .ok (w.opened.toList.map fun (cref, envelope) => (cref, envelope.plaintext))) := by
    rw [RawVault.openRaw, if_neg (not_not.2 v.known), hbatch]
  have hwalked := walked_openBatch hblobs hbatch
  rw [hrun]
  refine ⟨fun _ h => (nomatch h), fun out hout => ⟨fun c => w.opened[c]?, ?_⟩⟩
  obtain rfl := Except.ok.inj hout
  have hcarried {c : Cref} {key : κ} (h : w.ancestors[c]? = some key) :
      ∃ d e, Opens codec v blobs parents d e ∧ (c, key) ∈ e.ancestors ∧ Related parents d c := by
    obtain ⟨d, e, hd, hkey⟩ := hwalked.ancestors c key h
    exact ⟨d, e, hd, hkey, hd.signed _ hkey⟩
  constructor
  · intro c plaintext
    simp only [List.mem_map, Prod.exists, ExtTreeMap.mem_toList_iff_getElem?_eq_some, Prod.mk.injEq]
    constructor
    · rintro ⟨cref, e, hget, rfl, hplain⟩
      exact ⟨e, hget, hplain⟩
    · rintro ⟨e, hget, hplain⟩
      exact ⟨c, e, hget, rfl, hplain⟩
  · exact hwalked.opened
  · intro c key hkey
    rcases getElem?_advanceHeads hkey with harrived | hheld
    · rcases mem_settle_reached harrived with hreached | hancestor
      · exact .inr (.inl (hwalked.reached _ hreached))
      · exact .inr (.inr (hcarried hancestor))
    · exact .inl hheld
  · intro c hc hgone
    obtain ⟨hcovered, -⟩ := covered_of_not_mem_advanceHeads hc hgone
    obtain ⟨key, hancestor⟩ := mem_settle_covered hcovered
    obtain ⟨d, e, hd⟩ := hcarried hancestor
    exact ⟨d, e, key, hd⟩
  · intro c hc
    exact ExtTreeMap.isSome_getElem?_iff_mem.2 (hwalked.complete c hc)

/-- The blobs `opaque_read` hands over: the commits of a tree, under their scoped references. -/
def scopedBlobs (rawCref : CommitId → Cref) (storage : SnapshotStorage Bytes) (t : TreeId) :
    List (Cref × Bytes) :=
  (storage.commitBlobs t).map fun (id, blob) => (rawCref id, blob)

/-- No reference of such a batch stands twice, the scoped references of a tree being apart. -/
theorem nodup_scopedBlobs {rawCref : CommitId → Cref} (hcref : Function.Injective rawCref)
    (storage : SnapshotStorage Bytes) (t : TreeId) :
    ((scopedBlobs rawCref storage t).map Prod.fst).Nodup := by
  have hkeys : (storage.tree t).commits.keys.Nodup :=
    (ExtTreeMap.distinct_keys (t := (storage.tree t).commits)).imp fun h heq => h (by simp [heq])
  have hrefs : (scopedBlobs rawCref storage t).map Prod.fst =
      (storage.tree t).commits.keys.map rawCref := by
    rw [← ExtTreeMap.map_fst_toList_eq_keys, scopedBlobs, SnapshotStorage.commitBlobs,
      List.map_map, List.map_map, List.map_map]
    rfl
  rw [hrefs]
  exact hkeys.map hcref

/-! ## A parent behind its child -/

/-- An item is its own name and key; the envelope of item 1 carries the key of item 2. -/
def sampleCodec : RawCodec ℕ UInt8 where
  decode bytes := bytes.head?
  contentRef item := BitVec.ofNat 256 item.toNat
  predRefs item := BitVec.ofNat 256 (2 - item.toNat)
  hash refs := BitVec.ofNat 256 refs.length
  tryDecrypt item key := if key = item.toNat then some [item] else none
  envelope plain := .ok ⟨plain, if plain = [1] then [(2, 2)] else []⟩

/-- The epoch opens item 1 only, and no head is held. -/
def sampleVault : RawVault ℕ UInt8 where
  documents := [9]
  doc := 9
  known := List.mem_singleton_self 9
  epoch item := if item = 1 then some ([1], 1) else none
  heads := ∅

/-- Item 2 is the signed parent of item 1. -/
def sampleParents : SignedParents := (ExtTreeMap.insert ∅ 1 [2]).insert 2 []

def sampleOrder : HashOrder where
  of l := l
  perm l := List.Perm.refl l

theorem openRaw_confined_sample :
    (∀ text, (sampleVault.openRaw sampleCodec sampleOrder [(1, [1]), (2, [2])] sampleParents).2 =
        .error text →
      (sampleVault.openRaw sampleCodec sampleOrder [(1, [1]), (2, [2])] sampleParents).1 =
        sampleVault) ∧
    ∀ out, (sampleVault.openRaw sampleCodec sampleOrder [(1, [1]), (2, [2])] sampleParents).2 =
        .ok out → ∃ envelopes,
      Confined sampleCodec sampleVault [(1, [1]), (2, [2])] sampleParents envelopes
        (sampleVault.openRaw sampleCodec sampleOrder [(1, [1]), (2, [2])]
          sampleParents).1.heads out :=
  openRaw_confined sampleCodec sampleOrder sampleVault [(1, [1]), (2, [2])] sampleParents
    (by decide)

/-- Both items are returned: the walk follows the key that the first envelope carries. -/
example : (sampleVault.openRaw sampleCodec sampleOrder [(1, [1]), (2, [2])] sampleParents).2 =
    .ok [(1, [1]), (2, [2])] := by
  rw [RawVault.openRaw, if_neg (not_not.2 sampleVault.known)]
  have hbatch : openBatch sampleCodec sampleParents sampleOrder sampleVault [(1, [1]), (2, [2])] =
      .ok ⟨(ExtTreeMap.insert ∅ 1 ⟨[1], [(2, 2)]⟩).insert 2 ⟨[2], []⟩, [(1, 1)],
        ExtTreeMap.insert ∅ 2 2, []⟩ := by
    show drain sampleCodec sampleParents ((ExtTreeMap.insert ∅ 1 1).insert 2 2)
      ⟨ExtTreeMap.insert ∅ 1 ⟨[1], [(2, 2)]⟩, [(1, 1)], ExtTreeMap.insert ∅ 2 2, [(2, 2)]⟩ = _
    rw [drain_cons sampleCodec sampleParents rfl rfl]
    exact drain_nil sampleCodec sampleParents rfl
  rw [hbatch]
  rfl

end Polyvisor.RawOpening
