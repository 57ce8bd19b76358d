import Polyvisor.Engine.Envelope
import Polyvisor.Lib.Transition

/-!
# The frontier of a shareable document

`seal_shared`, `confirm` and `open_shared` of `engine/src/vault.rs`, and the machine that runs
them in any order while ciphertexts reach storage. Hash maps yield their entries in any order, so
a call of `open_shared` names the order of the batch and of the heads.

`open_shared` ends by covering every commit the caller has applied, whether or not anything in
the new frontier carries its key.

## Main results

* `walk_exhausts`: the walk has fuel for its whole queue.
* `accounted_of_openShared`: what the walk opens, and every head it covers by itself, is led to
  by something it opened.
* `readable_of_run`: in a run in which `open_shared` covers no applied head that nothing else
  leads to, whatever was readable stays readable.
* `sibling_key_lost`: opening one concurrent sibling drops the key of another, applied one.
-/

namespace Polyvisor

open Std Frontier Relation

variable {κ P : Type}

/-- `Sealed`: a sealed commit, and what the frontier owes it once it is in storage. -/
structure Sealed (κ P : Type) where
  ciphertext : Ciphertext κ P
  cref : Cref
  key : κ
  embedded : List Cref
  sharedDocument : Option Bytes32

namespace Shared

/-! ## Opening a batch -/

/-- Whether every ancestor an envelope carries a key for is a signed parent. -/
def admits (parents : ExtTreeMap Cref (List Cref)) (cref : Cref) (env : Envelope κ P) : Bool :=
  env.ancestors.all fun (ancestor, _) => parents[cref]?.any fun set => ancestor ∈ set

/-- What `open_shared` makes of a decrypted plaintext. -/
def readEnvelope (parents : ExtTreeMap Cref (List Cref)) (cref : Cref)
    (plain : Except String (Envelope κ P)) : Except String (Envelope κ P) :=
  match plain with
  | .error e => .error ("shared chunk envelope: " ++ e)
  | .ok env =>
    if admits parents cref env then .ok env
    else .error "shared envelope contains an unsigned ancestor"

/-- The locals of `open_shared`. -/
structure Walk (κ P : Type) where
  queue : List (Cref × κ) := []
  opened : List (Cref × P) := []
  reached : List (Cref × κ) := []
  covered : List Cref := []

/-- Whether a content reference was opened. -/
def Walk.contains (w : Walk κ P) (cref : Cref) : Bool :=
  w.opened.any fun entry => entry.1 = cref

/-- The first loop of `open_shared`: what the document's epoch opens by itself. -/
def openEpoch (epoch : Ciphertext κ P → Bool) (parents : ExtTreeMap Cref (List Cref)) :
    Walk κ P → List (Cref × Ciphertext κ P) → Except String (Walk κ P)
  | w, [] => .ok w
  | w, (cref, ciphertext) :: rest =>
    if ciphertext.contentRef ≠ cref then
      .error "shared ciphertext content reference does not match signed item"
    else if epoch ciphertext then do
      let env ← readEnvelope parents cref ciphertext.plain
      openEpoch epoch parents
        { w with
          reached := w.reached ++ [(cref, ciphertext.key)]
          queue := w.queue ++ env.ancestors
          opened := w.opened ++ [(cref, env.plaintext)] } rest
    else openEpoch epoch parents w rest

section Walking

variable [DecidableEq κ]

/-- One turn of the queue. -/
def pop (encrypted : List (Cref × Ciphertext κ P)) (parents : ExtTreeMap Cref (List Cref))
    (w : Walk κ P) (cref : Cref) (key : κ) (queue : List (Cref × κ)) :
    Except String (Walk κ P) :=
  if w.contains cref then .ok { w with queue, covered := w.covered ++ [cref] }
  else
    match encrypted.lookup cref with
    -- not here yet: its key is an entry point until it is
    | none => .ok { w with queue, reached := w.reached ++ [(cref, key)] }
    | some ciphertext =>
      match ciphertext.tryDecrypt key with
      | none => .ok { w with queue }
      | some plain => do
        let env ← readEnvelope parents cref plain
        return { w with
          queue := queue ++ env.ancestors
          opened := w.opened ++ [(cref, env.plaintext)] }

/-- The second loop of `open_shared`. -/
def walk (encrypted : List (Cref × Ciphertext κ P)) (parents : ExtTreeMap Cref (List Cref)) :
    ℕ → Walk κ P → Except String (Walk κ P)
  | 0, w => .ok w
  | fuel + 1, w =>
    match w.queue with
    | [] => .ok w
    | (cref, key) :: queue => do
      let w ← pop encrypted parents w cref key queue
      walk encrypted parents fuel w

/-- How many keys a ciphertext's envelope adds to the queue. -/
def ancestorCount (ciphertext : Ciphertext κ P) : ℕ :=
  match ciphertext.plain with
  | .ok env => env.ancestors.length
  | .error _ => 0

/-- The turns the queue has left: its length, and what the envelopes not opened yet may add. -/
def turns (encrypted : List (Cref × Ciphertext κ P)) (w : Walk κ P) : ℕ :=
  w.queue.length +
    ((encrypted.filter fun entry => !w.contains entry.1).map fun entry => ancestorCount entry.2).sum

/-- The heads the walk starts from besides the epoch's: those the batch carries. -/
def seeds (heads : Heads κ) (encrypted : List (Cref × Ciphertext κ P)) (order : List Cref) :
    List (Cref × κ) :=
  (order ++ heads.keys).dedup.filterMap fun cref =>
    if (encrypted.lookup cref).isSome then heads[cref]?.map fun key => (cref, key) else none

/-- The two loops of `open_shared`. -/
def openWalk (heads : Heads κ) (encrypted : List (Cref × Ciphertext κ P))
    (epoch : Ciphertext κ P → Bool) (parents : ExtTreeMap Cref (List Cref)) (order : List Cref) :
    Except String (Walk κ P) := do
  let w ← openEpoch epoch parents {} encrypted
  let w := { w with queue := w.queue ++ seeds heads encrypted order }
  walk encrypted parents (turns encrypted w) w

/-- `open_shared`, once it has the document: the new head map and what was opened. -/
def openShared (heads : Heads κ) (encrypted : List (Cref × Ciphertext κ P))
    (epoch : Ciphertext κ P → Bool) (known : List Cref) (parents : ExtTreeMap Cref (List Cref))
    (order : List Cref) : Except String (Heads κ × List (Cref × P)) := do
  let w ← openWalk heads encrypted epoch parents order
  return (advanceHeads heads w.reached (w.covered ++ known), w.opened)

end Walking

/-! ## The machine -/

/-- The shared half of a vault, the ciphertexts in storage, and the commits that were sealed and
not confirmed yet. -/
structure Vault (κ P : Type) where
  sharedHeads : ExtTreeMap Bytes32 (Heads κ) := ∅
  stored : Stored κ P := ∅
  unconfirmed : List (Sealed κ P) := []

/-- `shared_heads[document]`. -/
def Vault.heads (v : Vault κ P) (document : Bytes32) : Heads κ :=
  v.sharedHeads.getD document ∅

/-- The arguments of one call of `open_shared`, and what it meets. -/
structure OpenCall (κ P : Type) where
  /-- The stored commits handed over, in the order the hash map yields them. -/
  batch : List Cref
  /-- The commits the caller has applied. -/
  known : List Cref
  /-- The signed parents. -/
  parents : ExtTreeMap Cref (List Cref)
  /-- What the current epoch of the document opens. -/
  epoch : Ciphertext κ P → Bool
  /-- The order the head map is iterated in. -/
  order : List Cref
  /-- Whether keyhive knows the document. -/
  hasDocument : Bool

/-- The batch with its ciphertexts. -/
def OpenCall.encrypted (call : OpenCall κ P) (stored : Stored κ P) :
    List (Cref × Ciphertext κ P) :=
  call.batch.dedup.filterMap fun cref => stored[cref]?.map fun ciphertext => (cref, ciphertext)

/-- What can happen next. -/
inductive VaultLabel (κ P : Type) where
  | sealShared (document : Bytes32) (cref : Cref) (preds : List Cref) (change : P)
  /-- A ciphertext reaches storage, this device's own or a peer's. -/
  | store (ciphertext : Ciphertext κ P)
  | confirm (index : ℕ)
  | openShared (document : Bytes32) (call : OpenCall κ P)

namespace Vault

/-- `seal_shared`: the parents' keys this device holds go into the envelope. -/
def sealShared (keyOf : Cref → κ) (v : Vault κ P) (document : Bytes32) (cref : Cref)
    (preds : List Cref) (change : P) : Sealed κ P :=
  let ancestors := preds.dedup.filterMap fun parent =>
    (v.heads document)[parent]?.map fun key => (parent, key)
  { ciphertext := ⟨cref, keyOf cref, .ok ⟨change, ancestors⟩⟩
    cref := cref
    key := keyOf cref
    embedded := ancestors.map Prod.fst
    sharedDocument := some document }

/-- Replace the head map of a document. -/
def setHeads (v : Vault κ P) (document : Bytes32) (heads : Heads κ) : Vault κ P :=
  { v with sharedHeads := v.sharedHeads.insert document heads }

/-- `confirm`, for a shared commit. -/
def confirm (v : Vault κ P) (sealed : Sealed κ P) : Vault κ P :=
  match sealed.sharedDocument with
  | none => v
  | some document =>
    v.setHeads document
      (advanceHeads (v.heads document) [(sealed.cref, sealed.key)] sealed.embedded)

variable [DecidableEq κ]

/-- One step. A label that does not apply changes nothing. -/
def step (keyOf : Cref → κ) (v : Vault κ P) : VaultLabel κ P → Vault κ P
  | .sealShared document cref preds change =>
    { v with unconfirmed := v.unconfirmed ++ [v.sealShared keyOf document cref preds change] }
  | .store ciphertext =>
    { v with stored := v.stored.insert ciphertext.contentRef ciphertext }
  | .confirm index =>
    match v.unconfirmed[index]? with
    | some sealed =>
      { v.confirm sealed with unconfirmed := v.unconfirmed.eraseIdx index }
    | none => v
  | .openShared document call =>
    if !call.hasDocument then v
    else
      match openShared (v.heads document) (call.encrypted v.stored) call.epoch call.known
        call.parents call.order with
      | .error _ => v
      | .ok (heads, _) => v.setHeads document heads

/-- A content reference is readable: the heads of the document give a key for it. -/
def Readable (v : Vault κ P) (document : Bytes32) (cref : Cref) : Prop :=
  ∃ key, Reads v.stored (v.heads document) cref key

/-- What honest authors and this engine's order of calls promise of a step: storage takes honest
ciphertexts, and one for each reference, and a commit is confirmed once it is stored. -/
def HonestLabel (a : Authorship κ) (v : Vault κ P) : VaultLabel κ P → Prop
  | .sealShared _ _ _ _ => True
  | .store ciphertext =>
    ciphertext.Honest a ∧
      ∀ old, v.stored[ciphertext.contentRef]? = some old → old = ciphertext
  | .confirm index => ∀ sealed, v.unconfirmed[index]? = some sealed →
    v.stored[sealed.cref]? = some sealed.ciphertext
  | .openShared _ _ => True

/-- The entry points `open_shared` keeps for sure: the heads not applied yet and what the epoch
opens in the batch. -/
def Kept (v : Vault κ P) (document : Bytes32) (call : OpenCall κ P) : Set Cref :=
  {c | (c ∈ v.heads document ∧ c ∉ call.known) ∨
    ∃ ciphertext, (c, ciphertext) ∈ call.encrypted v.stored ∧ call.epoch ciphertext = true}

/-- Every applied head is led to by an entry point the call keeps. -/
def KeepsApplied (v : Vault κ P) : VaultLabel κ P → Prop
  | .openShared document call => ∀ c ∈ v.heads document, c ∈ call.known →
    Reach (Names v.stored) (v.Kept document call) c
  | _ => True

end Vault

/-! ## What a walk accounts for -/

/-- Something opened carries a key for `c`. -/
def Carried (stored : Stored κ P) (w : Walk κ P) (c : Cref) : Prop :=
  ∃ d, w.contains d = true ∧ Names stored d c

/-- The batch carries `c` and the epoch opens it. -/
def EpochOpens (encrypted : List (Cref × Ciphertext κ P)) (epoch : Ciphertext κ P → Bool)
    (c : Cref) : Prop :=
  ∃ ciphertext, (c, ciphertext) ∈ encrypted ∧ epoch ciphertext = true

/-- A batch is taken from storage. -/
def FromStore (stored : Stored κ P) (encrypted : List (Cref × Ciphertext κ P)) : Prop :=
  ∀ c ciphertext, (c, ciphertext) ∈ encrypted → stored[c]? = some ciphertext

theorem contains_open (w : Walk κ P) (queue : List (Cref × κ)) (cref c : Cref) (plaintext : P) :
    ({ w with queue, opened := w.opened ++ [(cref, plaintext)] } : Walk κ P).contains c =
      (w.contains c || decide (cref = c)) := by
  simp [Walk.contains, List.any_append]

theorem Carried.mono {stored : Stored κ P} {w w' : Walk κ P}
    (h : ∀ c, w.contains c = true → w'.contains c = true) {c : Cref} (hc : Carried stored w c) :
    Carried stored w' c := by
  obtain ⟨d, hd, hdc⟩ := hc
  exact ⟨d, h d hd, hdc⟩

/-- What a walk from the heads and the epoch's own keeps true. -/
structure WalkInv (a : Authorship κ) (stored : Stored κ P) (heads : Heads κ)
    (epochOpens : Cref → Prop) (w : Walk κ P) : Prop where
  /-- What the epoch opens is open, and becomes a head. -/
  epoch : ∀ c, epochOpens c → w.contains c = true ∧ c ∈ w.reached.map Prod.fst
  /-- What is open was opened by the epoch, by a head, or by a key out of an envelope. -/
  opened : ∀ c, w.contains c = true → epochOpens c ∨ c ∈ heads ∨ Carried stored w c
  /-- A key in the queue is a head's or was carried. -/
  queue : ∀ c k, (c, k) ∈ w.queue → k = a.keyOf c ∧ (c ∈ heads ∨ Carried stored w c)
  reached : ∀ c k, (c, k) ∈ w.reached → k = a.keyOf c
  /-- What nothing open carries a key for is waited for at most once, and not once it is open. -/
  once : ∀ c, ¬ epochOpens c → ¬ Carried stored w c →
    (w.queue.map Prod.fst).count c + (w.contains c).toNat ≤ 1
  /-- The walk covers only what something open carries, or what it makes a head. -/
  covered : ∀ c ∈ w.covered, epochOpens c ∨ Carried stored w c

variable {a : Authorship κ} {stored : Stored κ P}

/-- The ancestors of a stored envelope carry the right keys. -/
theorem keyOf_of_ancestor (hstored : HonestStore a stored) {d : Cref} {ct : Ciphertext κ P}
    {env : Envelope κ P} (hct : stored[d]? = some ct) (hplain : ct.plain = .ok env) {c : Cref}
    {k : κ} (h : (c, k) ∈ env.ancestors) : k = a.keyOf c ∧ Names stored d c := by
  obtain ⟨-, hhonest⟩ := hstored d ct hct
  obtain ⟨env', hplain', hanc⟩ := hhonest.plain
  obtain rfl : env = env' := by
    rw [hplain] at hplain'
    exact Except.ok.inj hplain'
  exact ⟨(hanc c k h).1, ct, env, hct, hplain, List.mem_map.mpr ⟨_, h, rfl⟩⟩

theorem readEnvelope_ok {parents : ExtTreeMap Cref (List Cref)} {cref : Cref}
    {plain : Except String (Envelope κ P)} {env : Envelope κ P}
    (h : readEnvelope parents cref plain = .ok env) : plain = .ok env := by
  unfold readEnvelope at h
  split at h
  · cases h
  · split at h
    · exact congrArg Except.ok (Except.ok.inj h)
    · cases h

/-- What the first loop of `open_shared` leaves. -/
structure EpochInv (a : Authorship κ) (stored : Stored κ P) (epochOpens : Cref → Prop)
    (w : Walk κ P) : Prop where
  opened : ∀ c, w.contains c = true ↔ epochOpens c
  reached : ∀ c, epochOpens c → c ∈ w.reached.map Prod.fst
  keys : ∀ c k, (c, k) ∈ w.reached → k = a.keyOf c
  queue : ∀ c k, (c, k) ∈ w.queue → k = a.keyOf c ∧ Carried stored w c
  covered : w.covered = []

theorem epochInv_openEpoch (hstored : HonestStore a stored) {epoch : Ciphertext κ P → Bool}
    {parents : ExtTreeMap Cref (List Cref)} {done rest : List (Cref × Ciphertext κ P)}
    {w w' : Walk κ P} (hfrom : FromStore stored rest)
    (hw : EpochInv a stored (EpochOpens done epoch) w)
    (h : openEpoch epoch parents w rest = .ok w') :
    EpochInv a stored (EpochOpens (done ++ rest) epoch) w' := by
  induction rest generalizing done w with
  | nil =>
    cases h
    rwa [List.append_nil]
  | cons entry rest ih =>
    obtain ⟨cref, ct⟩ := entry
    have hct := hfrom cref ct List.mem_cons_self
    have hrest : FromStore stored rest := fun c ct h => hfrom c ct (List.mem_cons_of_mem _ h)
    rw [openEpoch] at h
    split at h
    · cases h
    have hsplit : done ++ (cref, ct) :: rest = (done ++ [(cref, ct)]) ++ rest := by
      rw [List.append_assoc, List.singleton_append]
    rw [hsplit]
    split at h
    next hepoch =>
      rcases henv : readEnvelope parents cref ct.plain with e | env
      · rw [henv] at h
        cases h
      rw [henv] at h
      have hplain := readEnvelope_ok henv
      refine ih hrest ?_ h
      have hgrow : ∀ c, EpochOpens (done ++ [(cref, ct)]) epoch c ↔
          EpochOpens done epoch c ∨ cref = c := by
        intro c
        constructor
        · rintro ⟨ct', hmem, hopens⟩
          rcases List.mem_append.mp hmem with hmem | hmem
          · exact .inl ⟨ct', hmem, hopens⟩
          · rw [List.mem_singleton, Prod.mk.injEq] at hmem
            exact .inr hmem.1.symm
        · rintro (⟨ct', hmem, hopens⟩ | rfl)
          · exact ⟨ct', List.mem_append_left _ hmem, hopens⟩
          · exact ⟨ct, List.mem_append_right _ List.mem_cons_self, hepoch⟩
      have hmono : ∀ c, w.contains c = true →
          (w.opened ++ [(cref, env.plaintext)]).any (fun entry => entry.1 = c) = true := by
        intro c hc
        rw [List.any_append, Bool.or_eq_true]
        exact .inl hc
      constructor
      · intro c
        rw [hgrow, ← hw.opened c]
        change (w.opened ++ [(cref, env.plaintext)]).any (fun entry => entry.1 = c) = true ↔ _
        simp [Walk.contains, List.any_append]
      · intro c hc
        rw [List.map_append, List.mem_append]
        rcases (hgrow c).mp hc with hc | rfl
        · exact .inl (hw.reached c hc)
        · exact .inr List.mem_cons_self
      · intro c k hck
        rcases List.mem_append.mp hck with hck | hck
        · exact hw.keys c k hck
        · rw [List.mem_singleton, Prod.mk.injEq] at hck
          obtain ⟨rfl, rfl⟩ := hck
          obtain ⟨href, hhonest⟩ := hstored c ct hct
          rw [hhonest.key, href]
      · intro c k hck
        rcases List.mem_append.mp hck with hck | hck
        · obtain ⟨hk, hcarried⟩ := hw.queue c k hck
          exact ⟨hk, hcarried.mono hmono⟩
        · obtain ⟨hk, hnames⟩ := keyOf_of_ancestor hstored hct hplain hck
          refine ⟨hk, cref, ?_, hnames⟩
          simp [Walk.contains, List.any_append]
      · exact hw.covered
    next hepoch =>
      refine ih hrest ?_ h
      have hsame : ∀ c, EpochOpens (done ++ [(cref, ct)]) epoch c ↔ EpochOpens done epoch c := by
        intro c
        constructor
        · rintro ⟨ct', hmem, hopens⟩
          rcases List.mem_append.mp hmem with hmem | hmem
          · exact ⟨ct', hmem, hopens⟩
          · rw [List.mem_singleton, Prod.mk.injEq] at hmem
            rw [hmem.2] at hopens
            exact absurd hopens hepoch
        · rintro ⟨ct', hmem, hopens⟩
          exact ⟨ct', List.mem_append_left _ hmem, hopens⟩
      exact ⟨fun c => (hw.opened c).trans (hsame c).symm, fun c hc =>
        hw.reached c ((hsame c).mp hc),
        hw.keys, hw.queue, hw.covered⟩

variable {heads : Heads κ} {encrypted : List (Cref × Ciphertext κ P)}
  {parents : ExtTreeMap Cref (List Cref)} {epochOpens : Cref → Prop}

/-- An ancestor taken from the front of the queue. -/
theorem count_of_queue {w : Walk κ P} {cref : Cref} {key : κ} {queue : List (Cref × κ)}
    (hqueue : w.queue = (cref, key) :: queue) (c : Cref) :
    (w.queue.map Prod.fst).count c =
      (queue.map Prod.fst).count c + if cref = c then 1 else 0 := by
  rw [hqueue, List.map_cons, List.count_cons]
  simp only [beq_iff_eq]

/-- A key that leaves the queue without opening anything keeps the invariant, if what it is
covered by or made a head for is accounted for. -/
theorem walkInv_drop {w : Walk κ P} {cref : Cref} {key : κ} {queue : List (Cref × κ)}
    (hqueue : w.queue = (cref, key) :: queue) (hw : WalkInv a stored heads epochOpens w)
    {reached : List (Cref × κ)} {covered : List Cref}
    (hreached : reached = w.reached ∨ reached = w.reached ++ [(cref, key)])
    (hcovered : covered = w.covered ∨ w.contains cref = true ∧ covered = w.covered ++ [cref]) :
    WalkInv a stored heads epochOpens { w with queue, reached, covered } := by
  have hmem : (cref, key) ∈ w.queue := by
    rw [hqueue]
    exact List.mem_cons_self
  refine ⟨fun c hc => ⟨(hw.epoch c hc).1, ?_⟩, hw.opened, fun c k hck => ?_, fun c k hck => ?_,
    fun c he hc => ?_, fun c hc => ?_⟩
  · rcases hreached with rfl | rfl
    · exact (hw.epoch c hc).2
    · rw [List.map_append, List.mem_append]
      exact .inl (hw.epoch c hc).2
  · refine hw.queue c k ?_
    rw [hqueue]
    exact List.mem_cons_of_mem _ hck
  · rcases hreached with rfl | rfl
    · exact hw.reached c k hck
    · rcases List.mem_append.mp hck with hck | hck
      · exact hw.reached c k hck
      · rw [List.mem_singleton] at hck
        exact (hw.queue c k (hck ▸ hmem)).1
  · have honce := hw.once c he hc
    rw [count_of_queue hqueue] at honce
    change (queue.map Prod.fst).count c + (w.contains c).toNat ≤ 1
    omega
  · rcases hcovered with rfl | ⟨hopen, rfl⟩
    · exact hw.covered c hc
    · rcases List.mem_append.mp hc with hc | hc
      · exact hw.covered c hc
      · rw [List.mem_singleton] at hc
        subst hc
        -- it was waited for although it was open already
        by_contra hno
        rw [not_or] at hno
        have honce := hw.once c hno.1 hno.2
        rw [count_of_queue hqueue, if_pos rfl, hopen] at honce
        simp at honce

/-- A turn of the queue keeps the invariant. -/
theorem walkInv_pop [DecidableEq κ] (hstored : HonestStore a stored)
    (hfrom : FromStore stored encrypted)
    {w w' : Walk κ P} {cref : Cref} {key : κ} {queue : List (Cref × κ)}
    (hqueue : w.queue = (cref, key) :: queue) (hw : WalkInv a stored heads epochOpens w)
    (h : pop encrypted parents w cref key queue = .ok w') :
    WalkInv a stored heads epochOpens w' := by
  rw [pop] at h
  split at h
  next hopen =>
    cases h
    exact walkInv_drop hqueue hw (.inl rfl) (.inr ⟨hopen, rfl⟩)
  next hclosed =>
    rcases hlookup : encrypted.lookup cref with _ | ct
    · rw [hlookup] at h
      cases h
      exact walkInv_drop hqueue hw (.inr rfl) (.inl rfl)
    rw [hlookup] at h
    have hct := hfrom cref ct (mem_of_lookup hlookup)
    rcases hopens : ct.tryDecrypt key with _ | plain
    · simp only [hopens] at h
      cases h
      exact walkInv_drop hqueue hw (.inl rfl) (.inl rfl)
    simp only [hopens] at h
    rcases henv : readEnvelope parents cref plain with e | env
    · rw [henv] at h
      cases h
    rw [henv] at h
    cases h
    have hplain : ct.plain = .ok env := by
      rw [Ciphertext.tryDecrypt] at hopens
      split at hopens
      · rw [Option.some.inj hopens]
        exact readEnvelope_ok henv
      · cases hopens
    set w' : Walk κ P :=
      { w with queue := queue ++ env.ancestors, opened := w.opened ++ [(cref, env.plaintext)] }
      with hw'
    have hcontains : ∀ c, w'.contains c = (w.contains c || decide (cref = c)) :=
      fun c => contains_open w _ cref c env.plaintext
    have hmono : ∀ c, w.contains c = true → w'.contains c = true := by
      intro c hc
      rw [hcontains, hc, Bool.true_or]
    have hself : w'.contains cref = true := by
      rw [hcontains, decide_eq_true rfl, Bool.or_true]
    have hcarries : ∀ c k, (c, k) ∈ env.ancestors → k = a.keyOf c ∧ Carried stored w' c := by
      intro c k hck
      obtain ⟨hk, hnames⟩ := keyOf_of_ancestor hstored hct hplain hck
      exact ⟨hk, cref, hself, hnames⟩
    have hfront := hw.queue cref key (by rw [hqueue]; exact List.mem_cons_self)
    refine ⟨fun c hc => ⟨hmono c (hw.epoch c hc).1, (hw.epoch c hc).2⟩, fun c hc => ?_,
      fun c k hck => ?_, hw.reached, fun c he hc => ?_, fun c hc => ?_⟩
    · rw [hcontains, Bool.or_eq_true, decide_eq_true_iff] at hc
      rcases hc with hc | rfl
      · rcases hw.opened c hc with h | h | h
        · exact .inl h
        · exact .inr (.inl h)
        · exact .inr (.inr (h.mono hmono))
      · exact .inr (hfront.2.imp_right (Carried.mono hmono))
    · rcases List.mem_append.mp hck with hck | hck
      · have hold := hw.queue c k (by rw [hqueue]; exact List.mem_cons_of_mem _ hck)
        exact ⟨hold.1, hold.2.imp_right (Carried.mono hmono)⟩
      · exact (hcarries c k hck).imp_right .inr
    · -- what nothing carries is not among the keys just added
      have hnew : (env.ancestors.map Prod.fst).count c = 0 := by
        rw [List.count_eq_zero]
        intro hmem
        obtain ⟨⟨c', k⟩, hck, rfl⟩ := List.mem_map.mp hmem
        exact hc (hcarries c' k hck).2
      have honce := hw.once c he fun hcar => hc (hcar.mono hmono)
      rw [count_of_queue hqueue] at honce
      change ((queue ++ env.ancestors).map Prod.fst).count c + (w'.contains c).toNat ≤ 1
      rw [List.map_append, List.count_append, hnew, hcontains]
      by_cases hcref : cref = c
      · rw [if_pos hcref] at honce
        simp only [hcref, decide_true, Bool.or_true, Bool.toNat_true]
        omega
      · rw [if_neg hcref] at honce
        simpa [hcref] using honce
    · exact (hw.covered c hc).imp_right (Carried.mono hmono)

theorem walkInv_walk [DecidableEq κ] (hstored : HonestStore a stored)
    (hfrom : FromStore stored encrypted)
    {fuel : ℕ} {w w' : Walk κ P} (hw : WalkInv a stored heads epochOpens w)
    (h : walk encrypted parents fuel w = .ok w') : WalkInv a stored heads epochOpens w' := by
  induction fuel generalizing w with
  | zero =>
    cases h
    exact hw
  | succ fuel ih =>
    rw [walk] at h
    rcases hqueue : w.queue with _ | ⟨⟨cref, key⟩, queue⟩
    · rw [hqueue] at h
      cases h
      exact hw
    rw [hqueue] at h
    dsimp only at h
    rcases hpop : pop encrypted parents w cref key queue with e | w₁
    · rw [hpop] at h
      cases h
    rw [hpop] at h
    exact ih (walkInv_pop hstored hfrom hqueue hw hpop) h

/-- The seeds are heads, each once. -/
theorem getElem?_of_mem_seeds {order : List Cref} {c : Cref} {k : κ}
    (h : (c, k) ∈ seeds heads encrypted order) : heads[c]? = some k := by
  obtain ⟨d, -, hd⟩ := List.mem_filterMap.mp h
  split at hd
  · rcases hget : heads[d]? with _ | k'
    · rw [hget] at hd
      cases hd
    · rw [hget] at hd
      cases hd
      exact hget
  · cases hd

theorem nodup_seeds (heads : Heads κ) (encrypted : List (Cref × Ciphertext κ P))
    (order : List Cref) :
    ((seeds heads encrypted order).map Prod.fst).Nodup := by
  rw [seeds, List.map_filterMap]
  refine (List.nodup_dedup _).filterMap ?_
  have hsame : ∀ d b : Cref, b ∈ ((if (encrypted.lookup d).isSome then
      heads[d]?.map fun key => (d, key) else none).map Prod.fst : Option Cref) → b = d := by
    intro d b hb
    split at hb
    · rcases hget : heads[d]? with _ | k
      · rw [hget] at hb
        cases hb
      · rw [hget] at hb
        cases hb
        rfl
    · cases hb
  intro d d' b hb hb'
  rw [← hsame d b hb, ← hsame d' b hb']

/-- What the epoch opened and the seeds start the walk in its invariant. -/
theorem walkInv_seeds (hheads : HonestHeads a heads) {w : Walk κ P}
    (hw : EpochInv a stored epochOpens w) (order : List Cref) :
    WalkInv a stored heads epochOpens
      { w with queue := w.queue ++ seeds heads encrypted order } := by
  refine ⟨fun c hc => ⟨(hw.opened c).mpr hc, hw.reached c hc⟩,
    fun c hc => .inl ((hw.opened c).mp hc), fun c k hck => ?_, hw.keys, fun c he hc => ?_,
    fun c hc => ?_⟩
  · rcases List.mem_append.mp hck with hck | hck
    · exact (hw.queue c k hck).imp_right .inr
    · have hget := getElem?_of_mem_seeds hck
      refine ⟨hheads c k hget, .inl ?_⟩
      exact ExtTreeMap.isSome_getElem?_iff_mem.mp (by rw [hget]; rfl)
  · have hqueue : (w.queue.map Prod.fst).count c = 0 := by
      rw [List.count_eq_zero]
      intro hmem
      obtain ⟨⟨c', k⟩, hck, rfl⟩ := List.mem_map.mp hmem
      exact hc (hw.queue c' k hck).2
    have hclosed : w.contains c = false := by
      rw [Bool.eq_false_iff]
      exact fun h => he ((hw.opened c).mp h)
    have hseeds := List.nodup_iff_count_le_one.mp
      (nodup_seeds heads encrypted order) c
    change ((w.queue ++ seeds heads encrypted order).map Prod.fst).count c +
      (w.contains c).toNat ≤ 1
    rw [List.map_append, List.count_append, hqueue, hclosed]
    simpa using hseeds
  · change c ∈ w.covered at hc
    rw [hw.covered] at hc
    cases hc

/-- The walk of `open_shared` ends in its invariant. -/
theorem walkInv_openWalk [DecidableEq κ] (hstored : HonestStore a stored)
    (hheads : HonestHeads a heads)
    (hfrom : FromStore stored encrypted) {epoch : Ciphertext κ P → Bool} {order : List Cref}
    {w : Walk κ P} (h : openWalk heads encrypted epoch parents order = .ok w) :
    WalkInv a stored heads (EpochOpens encrypted epoch) w := by
  rw [openWalk] at h
  rcases hepoch : openEpoch epoch parents {} encrypted with e | w₀
  · rw [hepoch] at h
    cases h
  rw [hepoch] at h
  have hempty : EpochInv a stored (EpochOpens [] epoch) ({} : Walk κ P) := by
    refine ⟨fun c => ?_, fun c hc => ?_, fun c k hck => ?_, fun c k hck => ?_, rfl⟩
    · constructor
      · intro h
        cases h
      · rintro ⟨ct, hmem, -⟩
        cases hmem
    · obtain ⟨ct, hmem, -⟩ := hc
      cases hmem
    · cases hck
    · cases hck
  have hw₀ := epochInv_openEpoch hstored hfrom hempty hepoch
  rw [List.nil_append] at hw₀
  exact walkInv_walk hstored hfrom (walkInv_seeds hheads hw₀ order) h

/-- Every old head and everything opened is a new head, or is led to by another of them, when
every applied head is led to by an entry point the call keeps. -/
theorem accounted_of_openShared {known : List Cref} {w : Walk κ P}
    (hw : WalkInv a stored heads epochOpens w)
    (hkept : ∀ c ∈ heads, c ∈ known →
      Reach (Names stored) {s | (s ∈ heads ∧ s ∉ known) ∨ epochOpens s} c)
    {x : Cref} (hx : x ∈ heads ∨ w.contains x = true) :
    x ∈ advanceHeads heads w.reached (w.covered ++ known) ∨
      ∃ y, (y ∈ heads ∨ w.contains y = true) ∧ TransGen (Names stored) y x := by
  have hepoch : ∀ c, epochOpens c → c ∈ advanceHeads heads w.reached (w.covered ++ known) :=
    fun c hc => mem_advanceHeads_of_arrived heads _ (hw.epoch c hc).2
  have hcarried : ∀ c, Carried stored w c →
      ∃ y, (y ∈ heads ∨ w.contains y = true) ∧ TransGen (Names stored) y c := by
    rintro c ⟨d, hd, hdc⟩
    exact ⟨d, .inr hd, .single hdc⟩
  have hhead : x ∈ heads → x ∈ advanceHeads heads w.reached (w.covered ++ known) ∨
      ∃ y, (y ∈ heads ∨ w.contains y = true) ∧ TransGen (Names stored) y x := by
    intro hx
    by_cases hnew : x ∈ advanceHeads heads w.reached (w.covered ++ known)
    · exact .inl hnew
    obtain ⟨hcov, -⟩ := covered_of_not_mem_advanceHeads hx hnew
    rcases List.mem_append.mp hcov with hcov | hknown
    · rcases hw.covered x hcov with he | hc
      · exact .inl (hepoch x he)
      · exact .inr (hcarried x hc)
    · -- it was applied, so the condition says what leads to it
      obtain ⟨s, hs, hpath⟩ := hkept x hx hknown
      rcases (reflTransGen_iff_eq_or_transGen.mp hpath) with rfl | hpath
      · rcases hs with ⟨-, hs⟩ | he
        · exact absurd hknown hs
        · exact .inl (hepoch x he)
      · rcases hs with ⟨hs, -⟩ | he
        · exact .inr ⟨s, .inl hs, hpath⟩
        · exact .inr ⟨s, .inr (hw.epoch s he).1, hpath⟩
  rcases hx with hx | hx
  · exact hhead hx
  · rcases hw.opened x hx with he | hx | hc
    · exact .inl (hepoch x he)
    · exact hhead hx
    · exact .inr (hcarried x hc)

/-- Nothing an old head reached is lost to the new ones. -/
theorem reach_openShared (hstored : HonestStore a stored) {known : List Cref} {w : Walk κ P}
    (hw : WalkInv a stored heads epochOpens w)
    (hkept : ∀ c ∈ heads, c ∈ known →
      Reach (Names stored) {s | (s ∈ heads ∧ s ∉ known) ∨ epochOpens s} c)
    {x : Cref} (hx : x ∈ heads) :
    Reach (Names stored) {c | c ∈ advanceHeads heads w.reached (w.covered ++ known)} x := by
  obtain ⟨bound, hbound⟩ := exists_rank_le a.rank (heads.keys ++ w.opened.map Prod.fst)
  refine reach_of_replaced (X := {x | x ∈ heads ∨ w.contains x = true})
    (fun _ _ h => hstored.rank_lt h) (fun y hy => hbound y ?_)
    (fun y hy => accounted_of_openShared hw hkept hy) (.inl hx)
  rw [List.mem_append]
  rcases hy with hy | hy
  · exact .inl (ExtTreeMap.mem_keys.mpr hy)
  · obtain ⟨entry, hmem, heq⟩ := List.any_eq_true.mp hy
    exact .inr (List.mem_map.mpr ⟨entry, hmem, of_decide_eq_true heq⟩)

/-! ## The walk's fuel -/

theorem sum_filter_le {β : Type} (f : β → ℕ) {p q : β → Bool}
    (hp : ∀ x, q x = true → p x = true) (l : List β) :
    ((l.filter q).map f).sum ≤ ((l.filter p).map f).sum := by
  induction l with
  | nil => exact le_rfl
  | cons y l ih =>
    by_cases hy' : q y = true
    · rw [List.filter_cons_of_pos hy', List.filter_cons_of_pos (hp y hy'), List.map_cons,
        List.map_cons, List.sum_cons, List.sum_cons]
      omega
    · rw [List.filter_cons_of_neg hy']
      by_cases hy : p y = true
      · rw [List.filter_cons_of_pos hy, List.map_cons, List.sum_cons]
        omega
      · rw [List.filter_cons_of_neg hy]
        exact ih

/-- Dropping one entry from a filtered sum takes its term away. -/
theorem sum_filter_add_le {β : Type} (f : β → ℕ) {p q : β → Bool}
    (hp : ∀ x, q x = true → p x = true) {l : List β} {e : β} (he : e ∈ l) (hpe : p e = true)
    (hpe' : q e = false) : ((l.filter q).map f).sum + f e ≤ ((l.filter p).map f).sum := by
  induction l with
  | nil => cases he
  | cons y l ih =>
    rcases List.mem_cons.mp he with rfl | he
    · have hle := sum_filter_le f hp l
      rw [List.filter_cons_of_pos hpe, List.filter_cons_of_neg (by simp [hpe']), List.map_cons,
        List.sum_cons]
      omega
    · have hle := ih he
      by_cases hy' : q y = true
      · rw [List.filter_cons_of_pos hy', List.filter_cons_of_pos (hp y hy'), List.map_cons,
          List.map_cons, List.sum_cons, List.sum_cons]
        omega
      · rw [List.filter_cons_of_neg hy']
        by_cases hy : p y = true
        · rw [List.filter_cons_of_pos hy, List.map_cons, List.sum_cons]
          omega
        · rw [List.filter_cons_of_neg hy]
          exact hle

/-- Every turn of the queue uses up one turn. -/
theorem turns_pop [DecidableEq κ] {w w' : Walk κ P} {cref : Cref} {key : κ}
    {queue : List (Cref × κ)} (hqueue : w.queue = (cref, key) :: queue)
    (h : pop encrypted parents w cref key queue = .ok w') :
    turns encrypted w' + 1 ≤ turns encrypted w := by
  have hlength : w.queue.length = queue.length + 1 := by rw [hqueue, List.length_cons]
  rw [pop] at h
  split at h
  · cases h
    simp only [turns, hlength, Walk.contains]
    omega
  next hclosed =>
    rcases hlookup : encrypted.lookup cref with _ | ct
    · rw [hlookup] at h
      cases h
      simp only [turns, hlength, Walk.contains]
      omega
    rw [hlookup] at h
    rcases hopens : ct.tryDecrypt key with _ | plain
    · simp only [hopens] at h
      cases h
      simp only [turns, hlength, Walk.contains]
      omega
    simp only [hopens] at h
    rcases henv : readEnvelope parents cref plain with e | env
    · rw [henv] at h
      cases h
    rw [henv] at h
    cases h
    have hplain : ct.plain = .ok env := by
      rw [Ciphertext.tryDecrypt] at hopens
      split at hopens
      · rw [Option.some.inj hopens]
        exact readEnvelope_ok henv
      · cases hopens
    have hcount : ancestorCount ct = env.ancestors.length := by
      rw [ancestorCount, hplain]
    -- the envelope just opened pays for the keys it adds
    have hsum := sum_filter_add_le (fun entry : Cref × Ciphertext κ P => ancestorCount entry.2)
      (p := fun entry => !w.contains entry.1)
      (q := fun entry => !(w.contains entry.1 || decide (cref = entry.1)))
      (fun entry hentry => by
        rw [Bool.not_eq_true', Bool.or_eq_false_iff] at hentry
        rw [hentry.1, Bool.not_false])
      (mem_of_lookup hlookup) (by simpa using hclosed) (by simp)
    simp only [hcount] at hsum
    simp only [turns, contains_open, List.length_append, hlength]
    omega

/-- The walk has fuel for its whole queue. -/
theorem walk_exhausts [DecidableEq κ] {fuel : ℕ} {w w' : Walk κ P}
    (hfuel : turns encrypted w ≤ fuel) (h : walk encrypted parents fuel w = .ok w') :
    w'.queue = [] := by
  induction fuel generalizing w with
  | zero =>
    cases h
    rw [turns] at hfuel
    exact List.eq_nil_of_length_eq_zero (by omega)
  | succ fuel ih =>
    rw [walk] at h
    rcases hqueue : w.queue with _ | ⟨⟨cref, key⟩, queue⟩
    · rw [hqueue] at h
      cases h
      exact hqueue
    rw [hqueue] at h
    dsimp only at h
    rcases hpop : pop encrypted parents w cref key queue with e | w₁
    · rw [hpop] at h
      cases h
    rw [hpop] at h
    have hturn := turns_pop hqueue hpop
    exact ih (by omega) h

/-! ## Runs -/

namespace Vault

/-- Every key in the vault is the right one, and every sealed commit carries what it embeds. -/
structure Honest (a : Authorship κ) (v : Vault κ P) : Prop where
  stored : HonestStore a v.stored
  heads : ∀ document, HonestHeads a (v.heads document)
  unconfirmed : ∀ sealed ∈ v.unconfirmed, sealed.key = a.keyOf sealed.cref ∧
    ∃ env, sealed.ciphertext.plain = .ok env ∧ ∀ c ∈ sealed.embedded, c ∈ env.ancestors.map Prod.fst

theorem heads_setHeads (v : Vault κ P) (document document' : Bytes32) (heads : Heads κ) :
    (v.setHeads document heads).heads document' =
      if document = document' then heads else v.heads document' := by
  by_cases h : document = document'
  · subst h
    simp [Vault.heads, setHeads]
  · simp [Vault.heads, setHeads, ExtTreeMap.getD_insert, h]

variable {v : Vault κ P}

theorem fromStore_encrypted (call : OpenCall κ P) (stored : Stored κ P) :
    FromStore stored (call.encrypted stored) := by
  intro c ct h
  obtain ⟨d, -, hd⟩ := List.mem_filterMap.mp h
  rcases hget : stored[d]? with _ | ct'
  · rw [hget] at hd
    cases hd
  · rw [hget] at hd
    cases hd
    exact hget

/-- What an honest vault reads, it reaches. -/
theorem readable_iff_reach [DecidableEq κ] (hv : v.Honest a) {document : Bytes32} {c : Cref} :
    v.Readable document c ↔ Reach (Names v.stored) {x | x ∈ v.heads document} c := by
  constructor
  · rintro ⟨k, hk⟩
    exact ((reads_iff_reach hv.stored (hv.heads document)).mp hk).2
  · intro h
    exact ⟨_, (reads_iff_reach hv.stored (hv.heads document)).mpr ⟨rfl, h⟩⟩

/-- Replacing one head map by another that reaches the old one's heads loses nothing. -/
theorem readable_setHeads [DecidableEq κ] (hv : v.Honest a) {document : Bytes32} {heads : Heads κ}
    (hheads : HonestHeads a heads)
    (hreach : ∀ x ∈ v.heads document, Reach (Names v.stored) {c | c ∈ heads} x) :
    (v.setHeads document heads).Honest a ∧ ∀ document' c, v.Readable document' c →
      (v.setHeads document heads).Readable document' c := by
  have hnew : (v.setHeads document heads).Honest a := by
    refine ⟨hv.stored, fun document' => ?_, hv.unconfirmed⟩
    rw [heads_setHeads]
    split
    · exact hheads
    · exact hv.heads document'
  refine ⟨hnew, fun document' c hc => ?_⟩
  rw [readable_iff_reach hv] at hc
  rw [readable_iff_reach hnew, heads_setHeads]
  split
  next heq =>
    subst heq
    exact hc.mono (fun _ _ h => h) hreach
  next => exact hc

/-- Confirming a stored commit moves the frontier up to it. -/
theorem readable_confirm [DecidableEq κ] (hv : v.Honest a) {sealed : Sealed κ P}
    (hmem : sealed ∈ v.unconfirmed) (hstored : v.stored[sealed.cref]? = some sealed.ciphertext) :
    (v.confirm sealed).Honest a ∧ ∀ document c, v.Readable document c →
      (v.confirm sealed).Readable document c := by
  obtain ⟨hkey, env, hplain, hembedded⟩ := hv.unconfirmed sealed hmem
  rw [confirm]
  split
  · exact ⟨hv, fun _ _ h => h⟩
  next document _ =>
    refine readable_setHeads hv (fun c k hk => ?_) fun x hx => ?_
    · rcases getElem?_advanceHeads hk with hk | hk
      · rw [List.mem_singleton, Prod.mk.injEq] at hk
        rw [hk.1, hk.2, hkey]
      · exact hv.heads document c k hk
    · by_cases hnew : x ∈ advanceHeads (v.heads document) [(sealed.cref, sealed.key)]
        sealed.embedded
      · exact .of_mem hnew
      · -- an embedded parent is one hop below the commit that embeds it
        obtain ⟨hcov, -⟩ := covered_of_not_mem_advanceHeads hx hnew
        have hself : sealed.cref ∈
            advanceHeads (v.heads document) [(sealed.cref, sealed.key)] sealed.embedded :=
          mem_advanceHeads_of_arrived _ _ List.mem_cons_self
        have hnames : Names v.stored sealed.cref x :=
          ⟨_, env, hstored, hplain, hembedded x hcov⟩
        have hreach : Reach (Names v.stored) {c | c ∈ advanceHeads (v.heads document)
            [(sealed.cref, sealed.key)] sealed.embedded} sealed.cref := .of_mem hself
        exact hreach.tail hnames

/-- Opening a batch that covers no applied head without a carrier loses nothing. -/
theorem readable_openShared [DecidableEq κ] (hv : v.Honest a) {document : Bytes32}
    {call : OpenCall κ P} (hkept : v.KeepsApplied (.openShared document call)) {heads : Heads κ}
    {opened : List (Cref × P)}
    (h : openShared (v.heads document) (call.encrypted v.stored) call.epoch call.known
      call.parents call.order = .ok (heads, opened)) :
    (v.setHeads document heads).Honest a ∧ ∀ document' c, v.Readable document' c →
      (v.setHeads document heads).Readable document' c := by
  rw [openShared] at h
  rcases hwalk : openWalk (v.heads document) (call.encrypted v.stored) call.epoch call.parents
    call.order with e | w
  · rw [hwalk] at h
    cases h
  rw [hwalk] at h
  cases h
  have hw := walkInv_openWalk hv.stored (hv.heads document)
    (fromStore_encrypted call v.stored) hwalk
  refine readable_setHeads hv (fun c k hk => ?_) fun x hx => reach_openShared hv.stored hw hkept hx
  rcases getElem?_advanceHeads hk with hk | hk
  · exact hw.reached c k hk
  · exact hv.heads document c k hk

/-- A step that honest authors may take and that covers no applied head without a carrier keeps
the vault honest and loses nothing. -/
theorem readable_step [DecidableEq κ] (hv : v.Honest a) (l : VaultLabel κ P)
    (hl : v.HonestLabel a l) (hkept : v.KeepsApplied l) :
    (v.step a.keyOf l).Honest a ∧ ∀ document c, v.Readable document c →
      (v.step a.keyOf l).Readable document c := by
  cases l with
  | sealShared document cref preds change =>
    refine ⟨⟨hv.stored, hv.heads, fun sealed hmem => ?_⟩, fun _ _ h => h⟩
    rcases List.mem_append.mp hmem with hmem | hmem
    · exact hv.unconfirmed sealed hmem
    · rw [List.mem_singleton] at hmem
      subst hmem
      exact ⟨rfl, _, rfl, fun _ h => h⟩
  | store ciphertext =>
    obtain ⟨hhonest, hfresh⟩ := hl
    have hget : ∀ (c : Cref) (ct : Ciphertext κ P), v.stored[c]? = some ct →
        (v.stored.insert ciphertext.contentRef ciphertext)[c]? = some ct := by
      intro c ct hct
      rw [ExtTreeMap.getElem?_insert]
      split
      next heq =>
        obtain rfl := LawfulEqOrd.eq_of_compare heq
        rw [hfresh ct hct]
      next => exact hct
    have hnew : (v.step a.keyOf (.store ciphertext)).Honest a := by
      refine ⟨fun c ct hct => ?_, hv.heads, hv.unconfirmed⟩
      change (v.stored.insert ciphertext.contentRef ciphertext)[c]? = some ct at hct
      rw [ExtTreeMap.getElem?_insert] at hct
      split at hct
      next heq =>
        cases hct
        exact ⟨LawfulEqOrd.eq_of_compare heq, hhonest⟩
      next => exact hv.stored c ct hct
    refine ⟨hnew, fun document c hc => ?_⟩
    rw [readable_iff_reach hv] at hc
    rw [readable_iff_reach hnew]
    refine hc.mono (fun d c => ?_) fun s hs => .of_mem hs
    rintro ⟨ct, env, hct, hplain, hmem⟩
    exact ⟨ct, env, hget d ct hct, hplain, hmem⟩
  | confirm index =>
    rw [step]
    split
    next sealed hsealed =>
      obtain ⟨hconfirmed, hreadable⟩ :=
        readable_confirm hv (List.mem_of_getElem? hsealed) (hl sealed hsealed)
      refine ⟨⟨hconfirmed.stored, hconfirmed.heads, fun other hmem => ?_⟩, hreadable⟩
      exact hv.unconfirmed other (List.mem_of_mem_eraseIdx hmem)
    next => exact ⟨hv, fun _ _ h => h⟩
  | openShared document call =>
    rw [step]
    split
    · exact ⟨hv, fun _ _ h => h⟩
    · split
      next => exact ⟨hv, fun _ _ h => h⟩
      next heads opened heq => exact readable_openShared hv hkept heq

/-- In a run of honest authors in which no call of `open_shared` meets an applied head that no
entry point it keeps leads to, every content reference that was readable is readable at the
end. -/
theorem readable_of_run [DecidableEq κ] (a : Authorship κ) (v₀ : Vault κ P) (h₀ : v₀.Honest a)
    (ls : List (VaultLabel κ P))
    (hls : Transition.Meets (step a.keyOf) (fun v l => v.HonestLabel a l ∧ v.KeepsApplied l) v₀ ls)
    (document : Bytes32) (c : Cref) (hc : v₀.Readable document c) :
    (Transition.run (step a.keyOf) v₀ ls).Readable document c := by
  have hstep : ∀ (v : Vault κ P) l, v.HonestLabel a l ∧ v.KeepsApplied l →
      v.Honest a ∧ v.Readable document c →
      (v.step a.keyOf l).Honest a ∧ (v.step a.keyOf l).Readable document c := by
    rintro v l ⟨hl, hkept⟩ ⟨hv, hc⟩
    obtain ⟨hnew, hreadable⟩ := readable_step hv l hl hkept
    exact ⟨hnew, hreadable document c hc⟩
  exact (Transition.run_preserves_of_meets hstep hls ⟨h₀, hc⟩).2

/-! ## Two siblings -/

/-- Every reference is its own key, and change 1 comes before the changes 2 and 3. -/
def siblings : Authorship Cref where
  keyOf := id
  rank c := c.toNat

/-- The ciphertext of a sibling, on top of change 1. -/
def sibling (c : Cref) : Ciphertext Cref Unit := ⟨c, c, .ok ⟨(), [(1, 1)]⟩⟩

/-- Document 9 at its change 1. -/
def parentVault : Vault Cref Unit where
  sharedHeads := (∅ : ExtTreeMap Bytes32 (Heads Cref)).insert 9 ((∅ : Heads Cref).insert 1 1)
  stored := (∅ : Stored Cref Unit).insert 1 ⟨1, 1, .ok ⟨(), []⟩⟩

/-- This device authors change 2, and the concurrent change 3 arrives. -/
def siblingRun : List (VaultLabel Cref Unit) :=
  [.sealShared 9 2 [1] (), .store (sibling 2), .confirm 0, .store (sibling 3)]

/-- Change 3 is opened while change 2 is known. -/
def siblingOpen (known : List Cref) : VaultLabel Cref Unit :=
  .openShared 9
    { batch := [3]
      known := known
      parents := (∅ : ExtTreeMap Cref (List Cref)).insert 3 [1]
      epoch := fun _ => true
      order := []
      hasDocument := true }

theorem honest_parentVault : parentVault.Honest siblings := by
  refine ⟨fun c ct hct => ?_, fun document c k hk => ?_, fun _ h => by cases h⟩
  · rw [parentVault, ExtTreeMap.getElem?_insert] at hct
    split at hct
    next heq =>
      cases hct
      exact ⟨LawfulEqOrd.eq_of_compare heq, rfl, _, rfl, fun p k h => by cases h⟩
    next => simp at hct
  · rw [Vault.heads, parentVault, ExtTreeMap.getD_insert] at hk
    split at hk
    · rw [ExtTreeMap.getElem?_insert] at hk
      split at hk
      next heq =>
        cases hk
        exact LawfulEqOrd.eq_of_compare heq
      next => simp at hk
    · simp at hk

theorem honest_sibling (c : Cref) (hc : 1 < c.toNat) : (sibling c).Honest siblings := by
  refine ⟨rfl, _, rfl, fun p k h => ?_⟩
  rw [List.mem_singleton, Prod.mk.injEq] at h
  obtain ⟨rfl, rfl⟩ := h
  exact ⟨rfl, hc⟩

theorem honest_siblingRun (l : VaultLabel Cref Unit) (hl : ∀ v, HonestLabel siblings v l) :
    Transition.Meets (step siblings.keyOf) (HonestLabel siblings) parentVault
      (siblingRun ++ [l]) := by
  refine ⟨trivial, ⟨honest_sibling 2 (by decide), fun old hold => ?_⟩, fun sealed hsealed => ?_,
    ⟨honest_sibling 3 (by decide), fun old hold => ?_⟩, hl _, trivial⟩
  · cases hold
  · cases hsealed
    rfl
  · cases hold

/-- Opening change 3 drops the key of change 2, which is applied and concurrent to it: nothing in
the new frontier carries it. -/
theorem sibling_key_lost :
    Transition.Meets (step siblings.keyOf) (HonestLabel siblings) parentVault
        (siblingRun ++ [siblingOpen [1, 2]]) ∧
      (Transition.run (step siblings.keyOf) parentVault siblingRun).Readable 9 2 ∧
      ¬ (Transition.run (step siblings.keyOf) parentVault
        (siblingRun ++ [siblingOpen [1, 2]])).Readable 9 2 := by
  refine ⟨honest_siblingRun _ fun _ => trivial, ⟨2, .head rfl⟩, ?_⟩
  set v := Transition.run (step siblings.keyOf) parentVault (siblingRun ++ [siblingOpen [1, 2]])
    with hv
  rintro ⟨key, hkey⟩
  have hkeys : (v.heads 9).keys = [1, 3] := by rw [hv]; decide
  have hread : ∀ c k, Reads v.stored (v.heads 9) c k → c = 1 ∨ c = 3 := by
    intro c k h
    induction h with
    | @head c k h =>
      have hmem : c ∈ (v.heads 9).keys :=
        ExtTreeMap.mem_keys.mpr (ExtTreeMap.isSome_getElem?_iff_mem.mp (by rw [h]; rfl))
      rw [hkeys] at hmem
      simpa using hmem
    | @ancestor d k ct env c k' _ hct hopen hc ih =>
      rw [Ciphertext.tryDecrypt] at hopen
      split at hopen
      · rcases ih with rfl | rfl
        · rw [show v.stored[(1 : Cref)]? = some ⟨1, 1, .ok ⟨(), []⟩⟩ from rfl] at hct
          cases hct
          cases hopen
          cases hc
        · rw [show v.stored[(3 : Cref)]? = some (sibling 3) from rfl] at hct
          cases hct
          cases hopen
          rw [List.mem_singleton, Prod.mk.injEq] at hc
          exact .inl hc.1
      · cases hopen
  rcases hread 2 key hkey with h | h
  · exact absurd h (by decide)
  · exact absurd h (by decide)

/-- The ciphertext of change 3 on top of change 2. -/
def grandchild : Ciphertext Cref Unit := ⟨3, 3, .ok ⟨(), [(2, 2)]⟩⟩

/-- This device authors change 2, and change 3 on top of it is opened while it is known. -/
def grandchildRun : List (VaultLabel Cref Unit) :=
  [.sealShared 9 2 [1] (), .store (sibling 2), .confirm 0, .store grandchild, siblingOpen [1, 2]]

/-- Change 2 is a known head that change 3, the new one, carries the key of. -/
theorem readable_of_run_grandchild :
    (Transition.run (step siblings.keyOf) parentVault grandchildRun).Readable 9 1 := by
  refine readable_of_run siblings parentVault honest_parentVault grandchildRun ?_ 9 1 ⟨1, .head rfl⟩
  refine ⟨⟨trivial, trivial⟩, ⟨⟨honest_sibling 2 (by decide), fun old hold => ?_⟩, trivial⟩,
    ⟨fun sealed hsealed => ?_, trivial⟩, ⟨⟨?_, fun old hold => ?_⟩, trivial⟩,
    ⟨trivial, fun c hhead hknown => ?_⟩, trivial⟩
  · cases hold
  · cases hsealed
    rfl
  · refine ⟨rfl, _, rfl, fun p k h => ?_⟩
    rw [List.mem_singleton, Prod.mk.injEq] at h
    obtain ⟨rfl, rfl⟩ := h
    exact ⟨rfl, by decide⟩
  · cases hold
  · obtain rfl : c = 2 := by
      -- change 1 is no head any more: change 2 carries it
      have hne : c ≠ 1 := fun heq => absurd (heq ▸ hhead) (by decide)
      exact List.mem_singleton.1 ((List.mem_cons.1 hknown).resolve_left hne)
    exact .tail (.of_mem (.inr ⟨grandchild, List.mem_singleton_self _, rfl⟩))
      ⟨grandchild, _, rfl, rfl, List.mem_singleton_self _⟩

end Vault

end Shared

end Polyvisor
