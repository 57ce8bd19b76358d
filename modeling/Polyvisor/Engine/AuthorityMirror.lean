import Polyvisor.Engine.Access

/-!
# The records of shared documents

`refresh_shared_authority` of `engine/src/lib.rs` and the calls it is part of. What a call does at
its awaits, as far as memberships, open documents and records are concerned, is a program: the
operations under the names of the source, in its order. A step answers the await of one call, so
that calls interleave at every await; where the code holds `persistence_boundary` fewer
interleavings are possible, and everything below holds of those too. What an await of another crate
answers, and where it leaves the memberships the vault reports, is part of the step.

Membership is read by an await of its own and recorded in the next turn of the call.

## Main results

* `Mirror.tracked_step`: every record that does not agree with the vault is owed by a call in
  flight.
* `Mirror.records_mirror_authority`: in every run whose steps are orderly, the records agree with
  the vault whenever no call is in flight.
* `Mirror.opened_without_record`: an adopted document that is new to the device gets no record.
-/

namespace Polyvisor

open Std

/-- `shared_partition`: the lower-case hexadecimal name of a document. -/
def sharedPartition (document : Bytes32) : String :=
  documentPrefix ++ String.ofList ((List.range 64).map fun i =>
    Nat.digitChar (document.toNat / 16 ^ (63 - i) % 16))

/-! ## Calls -/

/-- One await of a call, by what it can do to memberships, documents and records. -/
inductive AuthorityOp where
  /-- The partition must name a shared document, else the call fails. -/
  | requireShared (partition : String)
  /-- The partition must be open, else the call returns. -/
  | requireOpen (partition : String)
  /-- A vault operation; its error ends the call. -/
  | keyhive
  /-- A vault operation whose error is passed over; success is noted. -/
  | tryKeyhive
  /-- The call returns unless a success was noted. -/
  | requireChanged
  /-- Any other await; its error ends the call. -/
  | await
  /-- `open_document_inner`. -/
  | openInner (partition : String)
  /-- `open_document_inner` and `sync_shared_partition`, if the device has access. -/
  | openIfAccess (partition : String)
  /-- `refresh_shared_authority`, up to the answer of `document_members`. -/
  | refresh (partition : String)
  /-- The rest of it, with the members that were read. -/
  | record (partition : String) (members : List (Bytes32 × Access))
  /-- `refresh_all_shared_authorities`. -/
  | refreshAll
  /-- The loop of `adopt_us` over the shared documents. -/
  | abandonAll
  /-- Its body: the content tree goes with its record. -/
  | abandon (partition : String)
  /-- Its end: the authority tree and the document follow. -/
  | close (partition : String)
  deriving DecidableEq

/-- The calls that move memberships, documents or records. -/
inductive AuthorityRequest where
  | createSharedDocument (partition : String)
  | grantDocument (partition : String)
  | adoptDocument (partition : String)
  | adoptSharedDocuments (partitions : List String)
  | openDocument (partition : String)
  | absorbAuthority (partition : String) (items : ℕ)
  | absorbKeyhive (items : ℕ)
  | enrollKeyhive
  | adoptKeyhive
  | canSyncPeer
  | connect
  | refreshSharedAuthority (partition : String)
  | refreshAllSharedAuthorities
  | adoptUs

open AuthorityOp in
/-- What each of them goes through. A partition that `create_shared_document` is to be given is
named by the request. -/
def AuthorityRequest.program : AuthorityRequest → List AuthorityOp
  | createSharedDocument p => [keyhive, openInner p, refresh p, await, await]
  | grantDocument p =>
    [openInner p, requireShared p, keyhive, keyhive, refresh p, await, await]
  | adoptDocument p => [requireShared p, keyhive, await, openInner p, refresh p, await]
  | adoptSharedDocuments ps => ps.flatMap fun p => [requireShared p, keyhive, await, openIfAccess p]
  | openDocument p => [openInner p]
  | absorbAuthority p items =>
    [requireOpen p, requireShared p] ++ List.replicate items tryKeyhive ++
      [requireChanged, refresh p]
  | absorbKeyhive items => List.replicate items tryKeyhive ++ [requireChanged, refreshAll]
  | enrollKeyhive => [keyhive, refreshAll, await, await]
  | adoptKeyhive => [keyhive, refreshAll, await]
  | canSyncPeer => [refreshAll]
  | connect => [await, refreshAll, refreshAll, await]
  | refreshSharedAuthority p => [refresh p]
  | refreshAllSharedAuthorities => [refreshAll]
  | adoptUs => [await, await, abandonAll, await]

/-- A call in flight. -/
structure AuthorityCall where
  /-- What it still goes through. -/
  program : List AuthorityOp
  /-- Whether a success was noted. -/
  changed : Bool := false
  deriving DecidableEq

/-! ## The machine -/

/-- Whose access the vault reports, by document. -/
abbrev Memberships := ExtTreeMap Bytes32 (List (Bytes32 × Access))

/-- The part of the engine that holds the records and what they mirror. -/
structure Mirror where
  /-- What `document_members` answers; nothing for an unknown document. -/
  vault : Memberships := ∅
  /-- The partitions with an open document. -/
  documents : List String := []
  /-- `shared_authorities`. -/
  shared : SharedAuthorities := ∅
  /-- The calls in flight. -/
  calls : ExtTreeMap ℕ AuthorityCall := ∅

namespace Mirror

/-- `document_access`. -/
def documentAccess (g : Mirror) (document agent : Bytes32) : Option Access :=
  (g.vault[document]?).bind fun members => (members.find? fun m => m.1 = agent).map (·.2)

/-- The open partitions that name a shared document. -/
def sharedPartitions (g : Mirror) : List String :=
  g.documents.filter fun p => (sharedDocument p).join.isSome

/-- The call goes on with what is left of it. -/
def proceed (g : Mirror) (id : ℕ) (call : AuthorityCall) : Mirror :=
  { g with calls := g.calls.insert id call }

/-- The call returns or fails. -/
def leave (g : Mirror) (id : ℕ) : Mirror :=
  { g with calls := g.calls.erase id }

/-- `open_document_inner`. The subscriptions of a new document are one await that may fail. -/
def openInner (me : Bytes32) (g : Mirror) (id : ℕ) (partition : String) (rest : List AuthorityOp)
    (changed : Bool) : Mirror :=
  let opened := { g with documents := g.documents ++ [partition] }
  match sharedDocument partition with
  | none => g.leave id
  | some none =>
    if partition ∈ g.documents then g.proceed id ⟨rest, changed⟩
    else opened.proceed id ⟨.await :: rest, changed⟩
  | some (some document) =>
    if sharedPartition document ≠ partition ∨ (g.documentAccess document me).isNone then g.leave id
    else if partition ∈ g.documents then g.proceed id ⟨.refresh partition :: rest, changed⟩
    else opened.proceed id ⟨.await :: rest, changed⟩

/-- `refresh_shared_authority`, up to the answer of `document_members`. -/
def readMembers (g : Mirror) (id : ℕ) (partition : String) (rest : List AuthorityOp)
    (changed ok : Bool) : Mirror :=
  match sharedDocument partition with
  | none => g.leave id
  | some none => g.proceed id ⟨rest, changed⟩
  | some (some document) =>
    match g.vault[document]? with
    | some members =>
      if ok then g.proceed id ⟨.record partition members :: rest, changed⟩ else g.leave id
    | none => g.leave id

/-- One await of a call is answered: whether it succeeded, and what the vault reports now. -/
def answer (sha : Sha256) (me : Bytes32) (g : Mirror) (id : ℕ) (changed ok : Bool)
    (vault : Memberships) (rest : List AuthorityOp) : AuthorityOp → Mirror
  | .requireShared p =>
    if (sharedDocument p).join.isSome then g.proceed id ⟨rest, changed⟩ else g.leave id
  | .requireOpen p => if p ∈ g.documents then g.proceed id ⟨rest, changed⟩ else g.leave id
  | .keyhive =>
    if ok then { g with vault }.proceed id ⟨rest, changed⟩ else { g with vault }.leave id
  | .tryKeyhive => { g with vault }.proceed id ⟨rest, changed || ok⟩
  | .requireChanged => if changed then g.proceed id ⟨rest, changed⟩ else g.leave id
  | .await => if ok then g.proceed id ⟨rest, changed⟩ else g.leave id
  | .openInner p => g.openInner me id p rest changed
  | .openIfAccess p =>
    if ((sharedDocument p).join.bind fun document => g.documentAccess document me).isSome then
      g.proceed id ⟨.openInner p :: .await :: rest, changed⟩
    else g.proceed id ⟨rest, changed⟩
  | .refresh p => g.readMembers id p rest changed ok
  | .record p members =>
    { g with
      shared := (g.shared.insert (documentTree sha p) (.ofMembers members)).insert
        (sharedAuthorityTree sha p) (.ofMembers members) }.proceed id ⟨rest, changed⟩
  | .refreshAll => g.proceed id ⟨g.sharedPartitions.map .refresh ++ rest, changed⟩
  | .abandonAll =>
    g.proceed id ⟨g.sharedPartitions.flatMap (fun p => [.await, .abandon p]) ++ rest, changed⟩
  | .abandon p =>
    { g with shared := g.shared.erase (documentTree sha p) }.proceed id
      ⟨.await :: .close p :: rest, changed⟩
  | .close p =>
    { g with
      shared := g.shared.erase (sharedAuthorityTree sha p)
      documents := g.documents.filter fun q => q ≠ p }.proceed id ⟨rest, changed⟩

/-- What happens next. -/
inductive Label where
  /-- A call begins. -/
  | begin (id : ℕ) (request : AuthorityRequest)
  /-- The await of a call is answered. -/
  | advance (id : ℕ) (ok : Bool) (vault : Memberships)

/-- One step. -/
def step (sha : Sha256) (me : Bytes32) (g : Mirror) : Label → Mirror
  | .begin id request =>
    match g.calls[id]? with
    | some _ => g
    | none => g.proceed id ⟨request.program, false⟩
  | .advance id ok vault =>
    match g.calls[id]? with
    | none => g
    | some ⟨[], _⟩ => g.leave id
    | some ⟨op :: rest, changed⟩ => g.answer sha me id changed ok vault rest op

/-! ## What a call owes -/

/-- The operation brings the record of the partition up to date, or closes its document. -/
def settles (p : String) : AuthorityOp → Bool
  | .openInner q | .refresh q | .record q _ | .abandon q | .close q => q = p
  | .refreshAll | .abandonAll => true
  | _ => false

/-- What is left of a call settles the partition, if nothing fails. -/
def owes (p : String) (changed : Bool) : List AuthorityOp → Bool
  | [] => false
  | op :: rest => settles p op || ((op ≠ .requireChanged || changed) && owes p changed rest)

theorem owes_append {p : String} {changed : Bool} {ops rest : List AuthorityOp}
    (hops : .requireChanged ∉ ops) (h : ∃ op ∈ ops, settles p op) :
    owes p changed (ops ++ rest) := by
  induction ops with
  | nil => simp at h
  | cons op ops ih =>
    simp only [List.mem_cons, not_or] at hops
    rw [List.cons_append, owes]
    obtain ⟨op', hmem, hop'⟩ := h
    rcases List.mem_cons.1 hmem with rfl | hmem
    · simp [hop']
    · simp [Ne.symm hops.1, ih hops.2 ⟨op', hmem, hop'⟩]

theorem owes_mono {p : String} {changed changed' : Bool} (hchanged : changed → changed')
    {program : List AuthorityOp} (h : owes p changed program) : owes p changed' program := by
  induction program with
  | nil => exact h
  | cons op rest ih =>
    rw [owes, Bool.or_eq_true, Bool.and_eq_true, Bool.or_eq_true] at h ⊢
    exact h.imp_right fun h => ⟨h.1.imp_right hchanged, ih h.2⟩

/-- The records of the partition's two trees are what the vault reports. -/
def Mirrored (sha : Sha256) (g : Mirror) (p : String) (document : Bytes32) : Prop :=
  ∃ members ∈ g.vault[document]?, g.shared[documentTree sha p]? = some (.ofMembers members) ∧
    g.shared[sharedAuthorityTree sha p]? = some (.ofMembers members)

instance (sha : Sha256) (g : Mirror) (p : String) (document : Bytes32) :
    Decidable (g.Mirrored sha p document) :=
  inferInstanceAs (Decidable (∃ members ∈ g.vault[document]?, _ ∧ _))

/-- Some call in flight settles the partition. -/
def Owed (g : Mirror) (p : String) : Prop :=
  ∃ (id : ℕ) (call : AuthorityCall), g.calls[id]? = some call ∧ owes p call.changed call.program

/-- Where the records stand. -/
structure Tracked (sha : Sha256) (g : Mirror) : Prop where
  /-- A record of an open document agrees with the vault or is owed. -/
  owed : ∀ p ∈ g.documents, ∀ d ∈ (sharedDocument p).join, g.Mirrored sha p d ∨ g.Owed p
  /-- The members a call has read and not recorded yet are those the vault reports. -/
  current : ∀ (id : ℕ) (call : AuthorityCall), g.calls[id]? = some call →
    ∀ p members, .record p members ∈ call.program → ∀ d ∈ (sharedDocument p).join,
    g.vault[d]? = some members

/-! ## Orderly steps -/

/-- The library's instance evaluates its option more than once. -/
instance (priority := 2000) decidableForallDocument {P : Bytes32 → Prop} [DecidablePred P]
    (o : Option Bytes32) : Decidable (∀ d ∈ o, P d) :=
  decidable_of_iff (o.all fun d => P d) (by cases o <;> simp)

/-- The partition whose members an operation is about to record. -/
def recorded : AuthorityOp → Option String
  | .record p _ => some p
  | _ => none

/-- A vault operation moves the members of an open document only if its call goes on to settle it,
and never those of a document whose members a call has read and not recorded. -/
def Covers (g : Mirror) (vault : Memberships) (settled : String → Bool) : Prop :=
  (∀ p ∈ g.documents, ∀ d ∈ (sharedDocument p).join, vault[d]? ≠ g.vault[d]? → settled p) ∧
  ∀ entry ∈ g.calls.toList, ∀ op ∈ entry.2.program, ∀ p ∈ recorded op,
    ∀ d ∈ (sharedDocument p).join, vault[d]? = g.vault[d]?

instance (g : Mirror) (vault : Memberships) (settled : String → Bool) :
    Decidable (g.Covers vault settled) :=
  have (p : String) : Decidable (∀ d ∈ (sharedDocument p).join, vault[d]? ≠ g.vault[d]? →
      settled p) :=
    inferInstance
  have (op : AuthorityOp) : Decidable (∀ p ∈ recorded op, ∀ d ∈ (sharedDocument p).join,
      vault[d]? = g.vault[d]?) :=
    inferInstance
  inferInstanceAs (Decidable ((∀ p ∈ g.documents, _) ∧ _))

/-- No other open document shares a tree id with the partition. -/
def Apart (sha : Sha256) (g : Mirror) (q : String) : Prop :=
  ∀ p ∈ g.documents, p ≠ q → documentTree sha p ≠ documentTree sha q ∧
    sharedAuthorityTree sha p ≠ sharedAuthorityTree sha q

instance (sha : Sha256) (g : Mirror) (q : String) : Decidable (g.Apart sha q) :=
  inferInstanceAs (Decidable (∀ p ∈ g.documents, _ → _))

/-- What the answer to one await must respect. -/
def Careful (sha : Sha256) (me : Bytes32) (g : Mirror) (changed ok : Bool) (vault : Memberships)
    (rest : List AuthorityOp) : AuthorityOp → Prop
  | .keyhive => g.Covers vault fun p => ok && owes p changed rest
  | .tryKeyhive => g.Covers vault fun p => owes p (changed || ok) rest
  | .openInner p => p ∉ g.documents → ∀ d ∈ (sharedDocument p).join,
      (g.documentAccess d me).isSome → owes p changed rest
  | .record q _ | .abandon q | .close q => g.Apart sha q
  | _ => True

instance decidableCareful (sha : Sha256) (me : Bytes32) (g : Mirror) (changed ok : Bool)
    (vault : Memberships) (rest : List AuthorityOp) :
    (op : AuthorityOp) → Decidable (g.Careful sha me changed ok vault rest op)
  | .keyhive => inferInstanceAs (Decidable (g.Covers vault _))
  | .tryKeyhive => inferInstanceAs (Decidable (g.Covers vault _))
  | .openInner p => inferInstanceAs (Decidable (p ∉ g.documents → ∀ d ∈ (sharedDocument p).join,
      (g.documentAccess d me).isSome → owes p changed rest))
  | .record q _ | .abandon q | .close q => inferInstanceAs (Decidable (g.Apart sha q))
  | .requireShared _ | .requireOpen _ | .requireChanged | .await | .openIfAccess _ | .refresh _
  | .refreshAll | .abandonAll => inferInstanceAs (Decidable True)

/-- A call that ends here leaves no record to bring up to date that no other call will. -/
def Complete (sha : Sha256) (g : Mirror) (id : ℕ) (call : AuthorityCall) : Prop :=
  ∀ p ∈ g.documents, ∀ d ∈ (sharedDocument p).join, owes p call.changed call.program →
    g.Mirrored sha p d ∨ ∃ entry ∈ g.calls.toList, entry.1 ≠ id ∧
      owes p entry.2.changed entry.2.program

instance (sha : Sha256) (g : Mirror) (id : ℕ) (call : AuthorityCall) :
    Decidable (g.Complete sha id call) :=
  inferInstanceAs (Decidable (∀ p ∈ g.documents, ∀ d ∈ (sharedDocument p).join, _ → _))

/-- The steps after which the records can be trusted. -/
def Orderly (sha : Sha256) (me : Bytes32) (g : Mirror) : Label → Prop
  | .begin _ _ => True
  | .advance id ok vault =>
    match g.calls[id]? with
    | none | some ⟨[], _⟩ => True
    | some ⟨op :: rest, changed⟩ =>
      g.Careful sha me changed ok vault rest op ∧
        ((g.answer sha me id changed ok vault rest op).calls[id]? = none →
          g.Complete sha id ⟨op :: rest, changed⟩)

instance decidableOrderly (sha : Sha256) (me : Bytes32) (g : Mirror) :
    (l : Label) → Decidable (Orderly sha me g l)
  | .begin _ _ => inferInstanceAs (Decidable True)
  | .advance id ok vault =>
    match h : g.calls[id]? with
    | none => .isTrue (by simp [Orderly, h])
    | some ⟨[], _⟩ => .isTrue (by simp [Orderly, h])
    | some ⟨op :: rest, changed⟩ =>
      decidable_of_iff (g.Careful sha me changed ok vault rest op ∧
        ((g.answer sha me id changed ok vault rest op).calls[id]? = none →
          g.Complete sha id ⟨op :: rest, changed⟩)) (by simp [Orderly, h])

variable {sha : Sha256} {me : Bytes32} {g g' : Mirror} {id : ℕ} {call call' : AuthorityCall}

/-! ## One step -/

/-- A call goes on. -/
theorem Tracked.proceed (h : g.Tracked sha) (hcall : g.calls[id]? = some call)
    (hcalls : g'.calls = g.calls.insert id call')
    (hopen : ∀ p ∈ g'.documents, ∀ d ∈ (sharedDocument p).join,
      g'.Mirrored sha p d ∨ owes p call'.changed call'.program ∨ p ∈ g.documents ∧
        (g.Mirrored sha p d → g'.Mirrored sha p d) ∧ ¬ owes p call.changed call.program)
    (hvault : ∀ (id : ℕ) (call : AuthorityCall), g.calls[id]? = some call → ∀ p members,
      .record p members ∈ call.program → ∀ d ∈ (sharedDocument p).join,
      g'.vault[d]? = g.vault[d]?)
    (hrecords : ∀ p members, .record p members ∈ call'.program → .record p members ∈ call.program ∨
      ∀ d ∈ (sharedDocument p).join, g'.vault[d]? = some members) : g'.Tracked sha := by
  constructor
  · intro p hp d hd
    rcases hopen p hp d hd with hmirrored | howes | ⟨hbefore, hkept, hnot⟩
    · exact .inl hmirrored
    · exact .inr ⟨id, call', by rw [hcalls, ExtTreeMap.getElem?_insert_self], howes⟩
    · rcases h.owed p hbefore d hd with hmirrored | ⟨id', other, hother, howes⟩
      · exact .inl (hkept hmirrored)
      · -- the call that moved owed nothing here, so it is another one that does
        refine .inr ⟨id', other, ?_, howes⟩
        rw [hcalls, ExtTreeMap.getElem?_insert, if_neg, hother]
        intro heq
        have hid : id = id' := by simpa using heq
        subst hid
        rw [hcall] at hother
        cases hother
        exact hnot howes
  · intro id' other hother p members hmem d hd
    rw [hcalls, ExtTreeMap.getElem?_insert] at hother
    split at hother
    · cases hother
      rcases hrecords p members hmem with hold | hnew
      · rw [hvault id call hcall p members hold d hd]
        exact h.current id call hcall p members hold d hd
      · exact hnew d hd
    · rw [hvault id' other hother p members hmem d hd]
      exact h.current id' other hother p members hmem d hd

/-- A call goes on and nothing else moves. -/
theorem Tracked.turn (h : g.Tracked sha) (hcall : g.calls[id]? = some call)
    (howes : ∀ p ∈ g.documents, ∀ d ∈ (sharedDocument p).join, owes p call.changed call.program →
      owes p call'.changed call'.program)
    (hrecords : ∀ p members, .record p members ∈ call'.program → .record p members ∈ call.program ∨
      ∀ d ∈ (sharedDocument p).join, g.vault[d]? = some members) :
    (g.proceed id call').Tracked sha := by
  refine h.proceed hcall rfl (fun p hp d hd => ?_) (fun _ _ _ _ _ _ _ _ => rfl) hrecords
  by_cases howed : owes p call.changed call.program
  · exact .inr (.inl (howes p hp d hd howed))
  · exact .inr (.inr ⟨hp, fun hmirrored => hmirrored, howed⟩)

/-- A call ends. -/
theorem Tracked.leave (h : g.Tracked sha) (hcall : g.calls[id]? = some call)
    (hcomplete : g.Complete sha id call) : (g.leave id).Tracked sha := by
  have hother {id' : ℕ} {other : AuthorityCall} (hother : (g.leave id).calls[id']? = some other) :
      g.calls[id']? = some other := by
    rw [Mirror.leave, ExtTreeMap.getElem?_erase] at hother
    split at hother
    · cases hother
    · exact hother
  have hstays {id' : ℕ} {other : AuthorityCall} (hne : id' ≠ id)
      (hother : g.calls[id']? = some other) : (g.leave id).calls[id']? = some other := by
    rw [Mirror.leave, ExtTreeMap.getElem?_erase, if_neg (by simpa using hne.symm), hother]
  constructor
  · intro p hp d hd
    rcases h.owed p hp d hd with hmirrored | ⟨id', other, hmem, howes⟩
    · exact .inl hmirrored
    by_cases hid : id' = id
    · subst hid
      rw [hcall] at hmem
      cases hmem
      rcases hcomplete p hp d hd howes with hmirrored | ⟨entry, hentry, hne, howed⟩
      · exact .inl hmirrored
      · exact .inr ⟨entry.1, entry.2,
          hstays hne (ExtTreeMap.mem_toList_iff_getElem?_eq_some.1 hentry), howed⟩
    · exact .inr ⟨id', other, hstays hid hmem, howes⟩
  · exact fun id' other hmem => h.current id' other (hother hmem)

theorem Mirrored.of_eq {p : String} {d : Bytes32} (h : g.Mirrored sha p d)
    (hvault : g'.vault[d]? = g.vault[d]?)
    (hcontent : g'.shared[documentTree sha p]? = g.shared[documentTree sha p]?)
    (hauthority : g'.shared[sharedAuthorityTree sha p]? = g.shared[sharedAuthorityTree sha p]?) :
    g'.Mirrored sha p d := by
  rw [Mirrored, hvault, hcontent, hauthority]
  exact h

/-- No content tree is an authority tree. -/
theorem documentTree_ne_sharedAuthorityTree (sha : Sha256) (p q : String) :
    documentTree sha p ≠ sharedAuthorityTree sha q := by
  intro heq
  have hbyte := congrArg Bytes32.firstByte heq
  rw [documentTree, sharedAuthorityTree, Bytes32.firstByte_setFirstByte,
    Bytes32.firstByte_setFirstByte] at hbyte
  split at hbyte
  · exact absurd hbyte (by decide)
  · exact absurd hbyte (by decide)

theorem mem_sharedPartitions {p : String} {d : Bytes32} (hp : p ∈ g.documents)
    (hd : d ∈ (sharedDocument p).join) : p ∈ g.sharedPartitions :=
  List.mem_filter.2 ⟨hp, by rw [Option.mem_def.1 hd]; rfl⟩

/-- An operation that settles nothing is passed. -/
theorem Tracked.pass (h : g.Tracked sha) {op : AuthorityOp} {rest : List AuthorityOp}
    {changed : Bool} (hcall : g.calls[id]? = some ⟨op :: rest, changed⟩)
    (hop : ∀ p ∈ g.documents, ∀ d ∈ (sharedDocument p).join, ¬ settles p op) :
    (g.proceed id ⟨rest, changed⟩).Tracked sha := by
  refine h.turn hcall (fun p hp d hd howes => ?_) fun p members hmem =>
    .inl (List.mem_cons_of_mem _ hmem)
  rw [owes] at howes
  simp only [hop p hp d hd, Bool.false_or, Bool.and_eq_true] at howes
  exact howes.2

/-- Records no call is about to write stay current when memberships move. -/
theorem Covers.vault_eq {vault : Memberships} {settled : String → Bool}
    (h : g.Covers vault settled) {id : ℕ} {call : AuthorityCall} (hcall : g.calls[id]? = some call)
    {p : String} {members : List (Bytes32 × Access)} (hmem : .record p members ∈ call.program)
    {d : Bytes32} (hd : d ∈ (sharedDocument p).join) : vault[d]? = g.vault[d]? :=
  h.2 (id, call) (ExtTreeMap.mem_toList_iff_getElem?_eq_some.2 hcall) _ hmem p rfl d hd

/-- A vault operation that goes through. -/
theorem Tracked.move (h : g.Tracked sha) {op : AuthorityOp} {rest : List AuthorityOp}
    {changed changed' : Bool} (hcall : g.calls[id]? = some ⟨op :: rest, changed⟩)
    (hop : ∀ p, ¬ settles p op) (hchanged : changed → changed') {vault : Memberships}
    (hcovers : g.Covers vault fun p => owes p changed' rest) :
    ({ g with vault }.proceed id ⟨rest, changed'⟩).Tracked sha := by
  refine h.proceed hcall rfl (fun p hp d hd => ?_)
    (fun id call hcall p members hmem d hd => hcovers.vault_eq hcall hmem hd)
    fun p members hmem => .inl (List.mem_cons_of_mem _ hmem)
  by_cases hmoved : vault[d]? = g.vault[d]?
  · by_cases howes : owes p changed' rest
    · exact .inr (.inl howes)
    · refine .inr (.inr ⟨hp, fun hmirrored => hmirrored.of_eq hmoved rfl rfl, fun hbefore =>
        howes ?_⟩)
      rw [owes] at hbefore
      simp only [hop p, Bool.false_or, Bool.and_eq_true] at hbefore
      exact owes_mono hchanged hbefore.2
  · exact .inr (.inl (hcovers.1 p hp d hd hmoved))

/-- A vault operation that fails, after moving no open document's members. -/
theorem Tracked.fail (h : g.Tracked sha) (hcall : g.calls[id]? = some call) {vault : Memberships}
    (hcovers : g.Covers vault fun _ => false) (hcomplete : g.Complete sha id call) :
    ({ g with vault }.leave id).Tracked sha := by
  have hsame {p : String} (hp : p ∈ g.documents) {d : Bytes32} (hd : d ∈ (sharedDocument p).join) :
      vault[d]? = g.vault[d]? := by
    by_contra hmoved
    exact absurd (hcovers.1 p hp d hd hmoved) (by simp)
  have hbefore : ({ g with vault } : Mirror).Tracked sha := by
    constructor
    · intro p hp d hd
      exact (h.owed p hp d hd).imp_left fun hmirrored => hmirrored.of_eq (hsame hp hd) rfl rfl
    · intro id call hcall p members hmem d hd
      show vault[d]? = some members
      rw [hcovers.vault_eq hcall hmem hd]
      exact h.current id call hcall p members hmem d hd
  refine hbefore.leave hcall fun p hp d hd howes => ?_
  exact (hcomplete p hp d hd howes).imp_left fun hmirrored =>
    hmirrored.of_eq (hsame hp hd) rfl rfl

theorem Tracked.openInner (h : g.Tracked sha) {p : String} {rest : List AuthorityOp}
    {changed : Bool}
    (hcall : g.calls[id]? = some ⟨.openInner p :: rest, changed⟩)
    (hcareful : p ∉ g.documents → ∀ d ∈ (sharedDocument p).join,
      (g.documentAccess d me).isSome → owes p changed rest)
    (hends : (g.openInner me id p rest changed).calls[id]? = none →
      g.Complete sha id ⟨.openInner p :: rest, changed⟩) :
    (g.openInner me id p rest changed).Tracked sha := by
  -- a partition that was not open owes its record to the rest of the call
  have hopened (hshared : ∀ d ∈ (sharedDocument p).join, owes p changed rest) :
      ({ g with documents := g.documents ++ [p] }.proceed id ⟨.await :: rest, changed⟩).Tracked
        sha := by
    refine h.proceed hcall rfl (fun q hq d hd => ?_) (fun _ _ _ _ _ _ _ _ => rfl)
      fun q members hmem => .inl ?_
    · have howes {q : String} (hrest : owes q changed rest) :
          owes q changed (.await :: rest) := by
        rw [owes]
        simp [hrest]
      rcases List.mem_append.1 hq with hq | hq
      · by_cases hqp : q = p
        · subst hqp
          exact .inr (.inl (howes (hshared d hd)))
        by_cases hrest : owes q changed rest
        · exact .inr (.inl (howes hrest))
        · refine .inr (.inr ⟨hq, fun hmirrored => hmirrored, ?_⟩)
          rw [owes]
          simp [settles, Ne.symm hqp, hrest]
      · rw [List.mem_singleton.1 hq] at hd ⊢
        exact .inr (.inl (howes (hshared d hd)))
    · rcases List.mem_cons.1 hmem with heq | hmem
      · cases heq
      · exact List.mem_cons_of_mem _ hmem
  unfold Mirror.openInner
  cases hshared : sharedDocument p with
  | none => exact h.leave hcall (hends (by simp [Mirror.openInner, hshared, Mirror.leave]))
  | some document =>
    cases document with
    | none =>
      have hprivate {d : Bytes32} (hd : d ∈ (sharedDocument p).join) : False := by
        simp [hshared] at hd
      dsimp only
      split
      · refine h.pass hcall fun q hq d hd hsettles => ?_
        have hqp : p = q := by simpa [settles] using hsettles
        subst hqp
        exact hprivate hd
      · exact hopened fun d hd => (hprivate hd).elim
    | some document =>
      dsimp only
      split
      next hno =>
        have hx : g.openInner me id p rest changed = g.leave id := by
          rw [Mirror.openInner, hshared]
          exact if_pos hno
        exact h.leave hcall (hends (by rw [hx, Mirror.leave, ExtTreeMap.getElem?_erase_self]))
      next haccess =>
        split
        next hp =>
          refine h.turn hcall (fun q hq d hd howes => ?_) fun q members hmem => .inl ?_
          · rw [owes] at howes ⊢
            simpa [settles] using howes
          · rcases List.mem_cons.1 hmem with heq | hmem
            · cases heq
            · exact List.mem_cons_of_mem _ hmem
        next hp =>
          refine hopened fun d hd => hcareful hp d hd ?_
          rw [hshared] at hd
          cases hd
          simpa [Option.isSome_iff_ne_none] using fun hnone => haccess (.inr (by simp [hnone]))

theorem Tracked.readMembers (h : g.Tracked sha) {p : String} {rest : List AuthorityOp}
    {changed ok : Bool} (hcall : g.calls[id]? = some ⟨.refresh p :: rest, changed⟩)
    (hends : (g.readMembers id p rest changed ok).calls[id]? = none →
      g.Complete sha id ⟨.refresh p :: rest, changed⟩) :
    (g.readMembers id p rest changed ok).Tracked sha := by
  unfold Mirror.readMembers
  cases hshared : sharedDocument p with
  | none => exact h.leave hcall (hends (by simp [Mirror.readMembers, hshared, Mirror.leave]))
  | some document =>
    cases document with
    | none =>
      refine h.pass hcall fun q hq d hd hsettles => ?_
      have hqp : p = q := by simpa [settles] using hsettles
      subst hqp
      simp [hshared] at hd
    | some document =>
      dsimp only
      cases hmembers : g.vault[document]? with
      | none =>
        exact h.leave hcall (hends (by simp [Mirror.readMembers, hshared, hmembers, Mirror.leave]))
      | some members =>
        cases ok with
        | false =>
          exact h.leave hcall (hends (by
            simp [Mirror.readMembers, hshared, hmembers, Mirror.leave]))
        | true =>
          refine h.turn hcall (fun q hq d hd howes => ?_) fun q members' hmem => ?_
          · rw [owes] at howes ⊢
            simpa [settles] using howes
          · rcases List.mem_cons.1 hmem with heq | hmem
            · -- what was read this turn is what the vault reports this turn
              cases heq
              refine .inr fun d hd => ?_
              rw [hshared] at hd
              cases hd
              exact hmembers
            · exact .inl (List.mem_cons_of_mem _ hmem)

theorem Tracked.record (h : g.Tracked sha) {p : String} {members : List (Bytes32 × Access)}
    {rest : List AuthorityOp} {changed : Bool}
    (hcall : g.calls[id]? = some ⟨.record p members :: rest, changed⟩) (hapart : g.Apart sha p) :
    ({ g with
      shared := (g.shared.insert (documentTree sha p) (.ofMembers members)).insert
        (sharedAuthorityTree sha p) (.ofMembers members) }.proceed id ⟨rest, changed⟩).Tracked
      sha := by
  refine h.proceed hcall rfl (fun q hq d hd => ?_) (fun _ _ _ _ _ _ _ _ => rfl)
    fun q members' hmem => .inl (List.mem_cons_of_mem _ hmem)
  by_cases hqp : q = p
  · subst hqp
    refine .inl ⟨members, h.current id _ hcall q members (List.mem_cons_self ..) d hd, ?_, ?_⟩
    · show ((g.shared.insert _ _).insert _ _)[documentTree sha q]? = _
      rw [ExtTreeMap.getElem?_insert, if_neg, ExtTreeMap.getElem?_insert_self]
      simpa using (documentTree_ne_sharedAuthorityTree sha q q).symm
    · simp [Mirror.proceed]
  · obtain ⟨hcontent, hauthority⟩ := hapart q hq hqp
    by_cases howes : owes q changed rest
    · exact .inr (.inl howes)
    refine .inr (.inr ⟨hq, fun hmirrored => hmirrored.of_eq rfl ?_ ?_, ?_⟩)
    · simp [Mirror.proceed, ExtTreeMap.getElem?_insert, hcontent.symm,
        (documentTree_ne_sharedAuthorityTree sha q p).symm]
    · simp [Mirror.proceed, ExtTreeMap.getElem?_insert, hauthority.symm,
        documentTree_ne_sharedAuthorityTree]
    · rw [owes]
      simp [settles, Ne.symm hqp, howes]

theorem Tracked.refreshAll (h : g.Tracked sha) {rest : List AuthorityOp} {changed : Bool}
    (hcall : g.calls[id]? = some ⟨.refreshAll :: rest, changed⟩) :
    (g.proceed id ⟨g.sharedPartitions.map .refresh ++ rest, changed⟩).Tracked sha := by
  refine h.turn hcall (fun p hp d hd _ => ?_) fun p members hmem => .inl ?_
  · refine owes_append (by simp) ⟨.refresh p, ?_, by simp [settles]⟩
    exact List.mem_map_of_mem (mem_sharedPartitions hp hd)
  · rcases List.mem_append.1 hmem with hmem | hmem
    · simp at hmem
    · exact List.mem_cons_of_mem _ hmem

theorem Tracked.abandonAll (h : g.Tracked sha) {rest : List AuthorityOp} {changed : Bool}
    (hcall : g.calls[id]? = some ⟨.abandonAll :: rest, changed⟩) :
    (g.proceed id ⟨g.sharedPartitions.flatMap (fun p => [.await, .abandon p]) ++ rest,
      changed⟩).Tracked sha := by
  refine h.turn hcall (fun p hp d hd _ => ?_) fun p members hmem => .inl ?_
  · refine owes_append (by simp) ⟨.abandon p, ?_, by simp [settles]⟩
    exact List.mem_flatMap.2 ⟨p, mem_sharedPartitions hp hd, by simp⟩
  · rcases List.mem_append.1 hmem with hmem | hmem
    · simp at hmem
    · exact List.mem_cons_of_mem _ hmem

theorem Tracked.abandon (h : g.Tracked sha) {q : String} {rest : List AuthorityOp} {changed : Bool}
    (hcall : g.calls[id]? = some ⟨.abandon q :: rest, changed⟩) (hapart : g.Apart sha q) :
    ({ g with shared := g.shared.erase (documentTree sha q) }.proceed id
      ⟨.await :: .close q :: rest, changed⟩).Tracked sha := by
  refine h.proceed hcall rfl (fun p hp d hd => ?_) (fun _ _ _ _ _ _ _ _ => rfl)
    fun p members hmem => .inl ?_
  · by_cases hpq : p = q
    · subst hpq
      exact .inr (.inl (by simp [owes, settles]))
    by_cases howes : owes p changed rest
    · exact .inr (.inl (by simp [owes, howes]))
    refine .inr (.inr ⟨hp, fun hmirrored => hmirrored.of_eq rfl ?_ ?_, ?_⟩)
    · show (g.shared.erase _)[documentTree sha p]? = _
      rw [ExtTreeMap.getElem?_erase, if_neg]
      simpa using (hapart p hp hpq).1.symm
    · show (g.shared.erase _)[sharedAuthorityTree sha p]? = _
      rw [ExtTreeMap.getElem?_erase, if_neg]
      simpa using documentTree_ne_sharedAuthorityTree sha q p
    · simp [owes, settles, Ne.symm hpq, howes]
  · simp only [List.mem_cons, reduceCtorEq, false_or] at hmem
    exact List.mem_cons_of_mem _ hmem

theorem Tracked.close (h : g.Tracked sha) {q : String} {rest : List AuthorityOp} {changed : Bool}
    (hcall : g.calls[id]? = some ⟨.close q :: rest, changed⟩) (hapart : g.Apart sha q) :
    ({ g with
      shared := g.shared.erase (sharedAuthorityTree sha q)
      documents := g.documents.filter fun p => p ≠ q }.proceed id ⟨rest, changed⟩).Tracked sha := by
  refine h.proceed hcall rfl (fun p hp d hd => ?_) (fun _ _ _ _ _ _ _ _ => rfl)
    fun p members hmem => .inl (List.mem_cons_of_mem _ hmem)
  obtain ⟨hp, hpq⟩ := List.mem_filter.1 hp
  have hpq : p ≠ q := by simpa using hpq
  by_cases howes : owes p changed rest
  · exact .inr (.inl howes)
  refine .inr (.inr ⟨hp, fun hmirrored => hmirrored.of_eq rfl ?_ ?_, ?_⟩)
  · show (g.shared.erase _)[documentTree sha p]? = _
    rw [ExtTreeMap.getElem?_erase, if_neg]
    simpa using (documentTree_ne_sharedAuthorityTree sha p q).symm
  · show (g.shared.erase _)[sharedAuthorityTree sha p]? = _
    rw [ExtTreeMap.getElem?_erase, if_neg]
    simpa using (hapart p hp hpq).2.symm
  · simp [owes, settles, Ne.symm hpq, howes]

theorem record_not_mem_program (request : AuthorityRequest) (p : String)
    (members : List (Bytes32 × Access)) : .record p members ∉ request.program := by
  cases request <;> simp [AuthorityRequest.program]

/-- A call begins. -/
theorem Tracked.begin (h : g.Tracked sha) (hnone : g.calls[id]? = none)
    (request : AuthorityRequest) : (g.proceed id ⟨request.program, false⟩).Tracked sha := by
  constructor
  · intro p hp d hd
    refine (h.owed p hp d hd).imp_right fun ⟨id', other, hother, howes⟩ => ⟨id', other, ?_, howes⟩
    rw [Mirror.proceed, ExtTreeMap.getElem?_insert, if_neg, hother]
    intro heq
    have hid : id = id' := by simpa using heq
    subst hid
    rw [hnone] at hother
    cases hother
  · intro id' other hother p members hmem
    rw [Mirror.proceed, ExtTreeMap.getElem?_insert] at hother
    split at hother
    · cases hother
      exact absurd hmem (record_not_mem_program request p members)
    · exact h.current id' other hother p members hmem

theorem tracked_answer (h : g.Tracked sha) {op : AuthorityOp} {rest : List AuthorityOp}
    {changed ok : Bool} {vault : Memberships} (hcall : g.calls[id]? = some ⟨op :: rest, changed⟩)
    (hcareful : g.Careful sha me changed ok vault rest op)
    (hends : (g.answer sha me id changed ok vault rest op).calls[id]? = none →
      g.Complete sha id ⟨op :: rest, changed⟩) :
    (g.answer sha me id changed ok vault rest op).Tracked sha := by
  -- a test that is passed settles nothing, and one that is not ends the call
  have hpass (hop : ∀ p, ¬ settles p op) : (g.proceed id ⟨rest, changed⟩).Tracked sha :=
    h.pass hcall fun p _ _ _ => hop p
  have hleave (hx : g.answer sha me id changed ok vault rest op = g.leave id) :
      (g.leave id).Tracked sha :=
    h.leave hcall (hends (by rw [hx, Mirror.leave, ExtTreeMap.getElem?_erase_self]))
  cases op with
  | requireShared p =>
    rw [answer] at hleave ⊢
    split
    · exact hpass (by simp [settles])
    next hno => exact hleave (if_neg hno)
  | requireOpen p =>
    rw [answer] at hleave ⊢
    split
    · exact hpass (by simp [settles])
    next hno => exact hleave (if_neg hno)
  | requireChanged =>
    rw [answer] at hleave ⊢
    split
    · exact hpass (by simp [settles])
    next hno => exact hleave (if_neg hno)
  | await =>
    rw [answer] at hleave ⊢
    split
    · exact hpass (by simp [settles])
    next hno => exact hleave (if_neg hno)
  | keyhive =>
    cases ok with
    | true =>
      exact h.move hcall (by simp [settles]) (fun h => h) hcareful
    | false =>
      refine h.fail hcall hcareful (hends ?_)
      simp [answer, Mirror.leave]
  | tryKeyhive => exact h.move hcall (by simp [settles]) (by simp +contextual) hcareful
  | openInner p => exact h.openInner hcall hcareful hends
  | openIfAccess p =>
    rw [answer]
    split
    · refine h.turn hcall (fun q hq d hd howes => ?_) fun q members hmem => .inl ?_
      · simp only [owes, settles] at howes ⊢
        simpa using .inr howes
      · simp only [List.mem_cons, reduceCtorEq, false_or] at hmem
        exact List.mem_cons_of_mem _ hmem
    · exact hpass (by simp [settles])
  | refresh p => exact h.readMembers hcall hends
  | record p members => exact h.record hcall hcareful
  | refreshAll => exact h.refreshAll hcall
  | abandonAll => exact h.abandonAll hcall
  | abandon p => exact h.abandon hcall hcareful
  | close p => exact h.close hcall hcareful

/-- Every record that does not agree with the vault is owed by a call in flight, and every call
that has read members records what the vault still reports. -/
theorem tracked_step (g : Mirror) (l : Label) (horderly : Orderly sha me g l)
    (h : g.Tracked sha) : (g.step sha me l).Tracked sha := by
  cases l with
  | begin id request =>
    rw [step]
    split
    · exact h
    next hnone => exact h.begin hnone request
  | advance id ok vault =>
    rw [step]
    rw [Orderly] at horderly
    split
    · exact h
    next changed hcall =>
      exact h.leave hcall fun p hp d hd howes => by simp [owes] at howes
    next op rest changed hcall =>
      rw [hcall] at horderly
      exact tracked_answer h hcall horderly.1 horderly.2

/-! ## Whole runs -/

/-- In every run whose steps are orderly, from a state with no call in flight whose records agree
with the vault, the records of every open shared document are again what the vault reports whenever
no call is in flight. -/
theorem records_mirror_authority (sha : Sha256) (me : Bytes32) (s : Mirror) (hidle : s.calls = ∅)
    (hagree : ∀ p ∈ s.documents, ∀ d, sharedDocument p = some (some d) → s.Mirrored sha p d)
    (ls : List Label) (hmeets : Transition.Meets (step sha me) (Orderly sha me) s ls)
    (hdone : (Transition.run (step sha me) s ls).calls = ∅) :
    ∀ p ∈ (Transition.run (step sha me) s ls).documents, ∀ d, sharedDocument p = some (some d) →
      (Transition.run (step sha me) s ls).Mirrored sha p d := by
  have hstart : s.Tracked sha := by
    constructor
    · intro p hp d hd
      cases hshared : sharedDocument p with
      | none => simp [hshared] at hd
      | some document =>
        rw [hshared] at hd
        exact .inl (hagree p hp d (hshared.trans (congrArg some hd)))
    · intro id call hcall
      simp [hidle] at hcall
  have htracked : (Transition.run (step sha me) s ls).Tracked sha :=
    Transition.run_preserves_of_meets tracked_step hmeets hstart
  intro p hp d hd
  rcases htracked.owed p hp d (by simp [hd]) with hmirrored | ⟨id, call, hcall, _⟩
  · exact hmirrored
  · simp [hdone] at hcall

/-! ## One document -/

/-- The name of the document 0. -/
def sampleName : String := sharedPartition 0

/-- The memberships once the device, 7, is an editor of the document. -/
def sampleMemberships : Memberships := (∅ : Memberships).insert 0 [(7, .edit)]

/-- A hash that tells no two texts apart; the tags of the trees do. -/
def sampleSha : Sha256 := fun _ => 0

/-- Every await of one call succeeds, and the vault stays as it is. -/
def sampleAnswers (n : ℕ) : List Label :=
  List.replicate n (.advance 0 true sampleMemberships)

/-- Adopting the descriptor of a shared document the device has not opened before opens it and
records nobody. -/
theorem opened_without_record :
    ¬ ∀ (sha : Sha256) (me : Bytes32) (ls : List Label),
      (Transition.run (step sha me) {} ls).calls = ∅ →
      ∀ p ∈ (Transition.run (step sha me) {} ls).documents, ∀ d, sharedDocument p = some (some d) →
        (Transition.run (step sha me) {} ls).Mirrored sha p d := by
  intro h
  obtain ⟨members, _, hcontent, _⟩ := h sampleSha 7
    (.begin 0 (.adoptSharedDocuments [sampleName]) :: sampleAnswers 9) (by decide +kernel)
    sampleName
    (by decide +kernel) 0 (by decide +kernel)
  have hnone : (Transition.run (step sampleSha 7) {}
      (.begin 0 (.adoptSharedDocuments [sampleName]) :: sampleAnswers 9)).shared[
        documentTree sampleSha sampleName]? = none := by
    decide +kernel
  rw [hnone] at hcontent
  cases hcontent

/-- The memberships once 9 is a reader too. -/
def grantedMemberships : Memberships := (∅ : Memberships).insert 0 [(7, .edit), (9, .read)]

/-- The document is created, and granted while the call that creates it has recorded nobody. Both
calls then read the new members before either records them. -/
def sampleRun : List Label :=
  .begin 0 (.createSharedDocument sampleName) :: sampleAnswers 2 ++
    [.begin 1 (.grantDocument sampleName)] ++
    [1, 1, 1, 0, 1, 1].map (.advance · true sampleMemberships) ++
    [1, 0, 1, 1, 0, 0, 1, 0, 1, 0, 1].map (.advance · true grantedMemberships)

theorem orderly_sampleRun :
    Transition.Meets (step sampleSha 7) (Orderly sampleSha 7) {} sampleRun := by
  decide +kernel

theorem records_mirror_authority_sampleRun :
    (Transition.run (step sampleSha 7) {} sampleRun).Mirrored sampleSha sampleName 0 := by
  have hagree (p : String) (hp : p ∈ ({} : Mirror).documents) (d : Bytes32)
      (_ : sharedDocument p = some (some d)) : ({} : Mirror).Mirrored sampleSha p d := by
    cases hp
  have hdone : (Transition.run (step sampleSha 7) {} sampleRun).calls = ∅ := by
    decide +kernel
  have hopen : sampleName ∈ (Transition.run (step sampleSha 7) {} sampleRun).documents := by
    decide +kernel
  have hshared : sharedDocument sampleName = some (some 0) := by
    decide +kernel
  exact records_mirror_authority sampleSha 7 {} rfl hagree sampleRun orderly_sampleRun hdone
    sampleName hopen 0 hshared

end Mirror

end Polyvisor
