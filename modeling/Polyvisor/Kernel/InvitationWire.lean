import Polyvisor.Engine.InlineItems
import Polyvisor.Kernel.Seal
import Polyvisor.Lib.Bincode

/-!
# The wire of an invitation

`build_invitation_wire` of `sharing.rs` and what the receiver reads of its wire, in the bytes that
`bincode` makes of each value: the items that go inline are counted before they are copied, what is
left of the budget is measured on a frame without them, and the receiver checks the frame and then
the signed part. The engine's keys are parameters.

## Main results

* `length_storeItems`: the size that `inline_items` adds up is the length of the encoding.
* `lawful_frame`, `lawful_invitationBody`: what was encoded is decoded.
* `inlineItems_iff`: the items are answered exactly if their encoding is within the budget.
* `wire_within_budget`: a wire is within the budget, and the receiver reads what was signed.
-/

namespace Polyvisor.InvitationWire

open Bincode Fields

/-! ## Items -/

/-- `[u8; 32]`, of an id. -/
def id32 : Bincode.Codec Bytes32 :=
  iso (array 32) (fun id => ⟨BigEndian.toBytes 32 id.toNat, BigEndian.length_toBytes 32 _⟩)
    fun block => BitVec.ofNat 256 (BigEndian.ofBytes block.toList)

theorem lawful_id32 : id32.Lawful := by
  apply lawful_iso (lawful_array 32)
  intro id
  show BitVec.ofNat 256 (BigEndian.ofBytes (BigEndian.toBytes 32 id.toNat)) = id
  rw [BigEndian.ofBytes_toBytes_of_lt (id.isLt.trans_le (by decide)), BitVec.ofNat_toNat,
    BitVec.setWidth_eq]

theorem length_id32 (id : Bytes32) : (id32.encode id).length = 32 :=
  BigEndian.length_toBytes 32 _

/-- `ItemKind`. -/
def itemKind : Bincode.Codec ItemKind :=
  tagged [.commit, .fragment]

/-- `StoreItem`, and `StoreItemRef`, which has its fields. -/
def storeItem : Bincode.Codec (StoreItem Bytes) :=
  iso (pair id32 (pair id32 (pair bytes (pair bytes itemKind))))
    (fun item => (item.tree, item.commit, item.signed, item.blob, item.kind))
    fun (tree, commit, signed, blob, kind) => { tree, commit, signed, blob, kind }

theorem lawful_itemKind : itemKind.Lawful := by
  apply lawful_tagged
  · intro kind
    cases kind <;> decide
  · decide

theorem lawful_storeItem : storeItem.Lawful :=
  lawful_iso (lawful_pair lawful_id32 (lawful_pair lawful_id32 (lawful_pair lawful_bytes
    (lawful_pair lawful_bytes lawful_itemKind)))) fun _ => rfl

/-- `bincode::serialized_size` of an item. -/
theorem length_storeItem (item : StoreItem Bytes) :
    (storeItem.encode item).length = item.serializedSize := by
  have hkind : (itemKind.encode item.kind).length = 4 := length_littleEndian 4 _
  have hbytes : ∀ l : Bytes, (bytes.encode l).length = 8 + l.length := by
    intro l
    rw [bytes, List.length_append, length_littleEndian]
  show (id32.encode item.tree ++ (id32.encode item.commit ++ (bytes.encode item.signed ++
    (bytes.encode item.blob ++ itemKind.encode item.kind)))).length = _
  simp only [List.length_append, length_id32, hbytes, hkind, StoreItem.serializedSize]
  omega

/-- `Vec<StoreItem>`. -/
def storeItems : Bincode.Codec (List (StoreItem Bytes)) :=
  list storeItem

theorem lawful_storeItems : storeItems.Lawful := by
  apply lawful_list lawful_storeItem
  intro item
  rw [length_storeItem, StoreItem.serializedSize]
  omega

/-- The size of a list of items is eight bytes and the sizes of the items. -/
theorem length_storeItems (items : List (StoreItem Bytes)) :
    (storeItems.encode items).length = 8 + (items.map StoreItem.serializedSize).sum := by
  rw [storeItems, length_list]
  simp only [length_storeItem]

/-! ## The count -/

/-- The count goes to the end exactly if there is nothing to count or the whole is within the
budget. -/
theorem countInline_eq_true_iff {budget : ℕ} (hbudget : budget < 2 ^ 64) {size : ℕ}
    (items : List (StoreItem Bytes)) : countInline budget size items = .ok true ↔
      items = [] ∨ size + (items.map StoreItem.serializedSize).sum ≤ budget := by
  rcases items with - | ⟨item, rest⟩
  · exact iff_of_true rfl (.inl rfl)
  · rw [countInline, List.map_cons, List.sum_cons, ← Nat.add_assoc]
    split_ifs with hover hlarge
    · refine iff_of_false (fun h => by cases h) fun h => ?_
      rcases h with h | h
      · cases h
      · omega
    · refine iff_of_false (fun h => by cases Except.ok.inj h) fun h => ?_
      rcases h with h | h
      · cases h
      · omega
    · rw [countInline_eq_true hbudget rest (by omega)]
      exact ⟨.inr, fun h => h.resolve_left not_false⟩

/-- It overflows only where the whole does not fit in 64 bits. -/
theorem countInline_eq_error {budget size : ℕ} {items : List (StoreItem Bytes)} {e : String}
    (h : countInline budget size items = .error e) :
    2 ^ 64 ≤ size + (items.map StoreItem.serializedSize).sum := by
  induction items generalizing size with
  | nil => exact nomatch h
  | cons item rest ih =>
    rw [countInline] at h
    rw [List.map_cons, List.sum_cons, ← Nat.add_assoc]
    split_ifs at h with hover hlarge
    · omega
    · exact ih h

variable {s : SnapshotStorage Bytes} {t : TreeId} {budget : ℕ}

/-- The items are answered exactly if their encoding is within the budget; they are all there
are. -/
theorem inlineItems_iff (hbudget : budget < 2 ^ 64) {items : List (StoreItem Bytes)} :
    s.inlineItems t budget = .ok (some items) ↔ items = s.storedItems t ∧
      (items = [] ∨ (storeItems.encode items).length ≤ budget) := by
  have hcount : countInline budget 8 (s.storedItems t) = .ok true ↔ _ :=
    countInline_eq_true_iff hbudget (s.storedItems t)
  rw [← length_storeItems] at hcount
  rw [SnapshotStorage.inlineItems]
  rcases hanswer : countInline budget 8 (s.storedItems t) with e | ⟨_ | _⟩
  · refine iff_of_false (fun h => by cases h) ?_
    rintro ⟨rfl, h⟩
    cases hanswer.symm.trans (hcount.2 h)
  · refine iff_of_false (fun h => by cases Except.ok.inj h) ?_
    rintro ⟨rfl, h⟩
    cases Except.ok.inj (hanswer.symm.trans (hcount.2 h))
  · constructor
    · intro h
      obtain rfl : s.storedItems t = items := Option.some.inj (Except.ok.inj h)
      exact ⟨rfl, hcount.1 hanswer⟩
    · rintro ⟨rfl, -⟩
      rfl

theorem inlineItems_eq_error {e : String} (h : s.inlineItems t budget = .error e) :
    2 ^ 64 ≤ (storeItems.encode (s.storedItems t)).length := by
  rw [length_storeItems]
  rw [SnapshotStorage.inlineItems] at h
  rcases hanswer : countInline budget 8 (s.storedItems t) with e' | fits
  · exact countInline_eq_error hanswer
  · rw [hanswer] at h
    cases h

/-! ## The invitation -/

/-- `ShareAccess`, and `DocumentAccess`, which has the same variants. -/
inductive ShareAccess where
  | read
  | edit
  deriving DecidableEq

/-- `SharedDocument`. -/
structure SharedDocument where
  partition : String
  document : Bytes32
  deriving DecidableEq

/-- `DocumentGrant`. -/
structure DocumentGrant where
  document : SharedDocument
  recipientGroup : Bytes32
  access : ShareAccess
  authority : Bytes
  frontier : Bytes
  deriving DecidableEq

/-- `InvitationBody`. -/
structure InvitationBody where
  version : UInt8
  id : Bytes32
  senderRoot : Bytes32
  senderGroup : Bytes32
  senderDevice : Bytes32
  senderIdentity : Bytes
  recipientRoot : Bytes32
  recipientGroup : Bytes32
  documentType : String
  service : String
  label : String
  access : ShareAccess
  historyAndResharing : Bool
  grant : DocumentGrant
  inline : List (StoreItem Bytes)
  deriving DecidableEq

/-- `SignedInvitation`. -/
structure SignedInvitation where
  body : Bytes
  signature : Bytes
  deriving DecidableEq

/-- `Frame`. -/
inductive Frame where
  | invitation (signed : SignedInvitation)
  | received
  | refused (why : String)
  | done
  deriving DecidableEq

def shareAccess : Bincode.Codec ShareAccess :=
  tagged [.read, .edit]

theorem lawful_shareAccess : shareAccess.Lawful := by
  apply lawful_tagged
  · intro access
    cases access <;> decide
  · decide

def sharedDocument : Bincode.Codec SharedDocument :=
  iso (pair text id32) (fun d => (d.partition, d.document)) fun (partition, document) =>
    { partition, document }

theorem lawful_sharedDocument : sharedDocument.Lawful :=
  lawful_iso (lawful_pair lawful_text lawful_id32) fun _ => rfl

def documentGrant : Bincode.Codec DocumentGrant :=
  iso (pair sharedDocument (pair id32 (pair shareAccess (pair bytes bytes))))
    (fun g => (g.document, g.recipientGroup, g.access, g.authority, g.frontier))
    fun (document, recipientGroup, access, authority, frontier) =>
      { document, recipientGroup, access, authority, frontier }

theorem lawful_documentGrant : documentGrant.Lawful :=
  lawful_iso (lawful_pair lawful_sharedDocument (lawful_pair lawful_id32
    (lawful_pair lawful_shareAccess (lawful_pair lawful_bytes lawful_bytes)))) fun _ => rfl

def invitationBody : Bincode.Codec InvitationBody :=
  iso (pair byte (pair id32 (pair id32 (pair id32 (pair id32 (pair bytes (pair id32 (pair id32
      (pair text (pair text (pair text (pair shareAccess (pair bool (pair documentGrant
        storeItems))))))))))))))
    (fun b => (b.version, b.id, b.senderRoot, b.senderGroup, b.senderDevice, b.senderIdentity,
      b.recipientRoot, b.recipientGroup, b.documentType, b.service, b.label, b.access,
      b.historyAndResharing, b.grant, b.inline))
    fun (version, id, senderRoot, senderGroup, senderDevice, senderIdentity, recipientRoot,
        recipientGroup, documentType, service, label, access, historyAndResharing, grant,
        inline) =>
      { version, id, senderRoot, senderGroup, senderDevice, senderIdentity, recipientRoot,
        recipientGroup, documentType, service, label, access, historyAndResharing, grant, inline }

theorem lawful_invitationBody : invitationBody.Lawful := by
  refine lawful_iso ?_ fun _ => rfl
  -- field by field, in the order of the structure
  refine lawful_pair lawful_byte (lawful_pair lawful_id32 (lawful_pair lawful_id32
    (lawful_pair lawful_id32 (lawful_pair lawful_id32 (lawful_pair lawful_bytes
      (lawful_pair lawful_id32 (lawful_pair lawful_id32 ?_)))))))
  exact lawful_pair lawful_text (lawful_pair lawful_text (lawful_pair lawful_text
    (lawful_pair lawful_shareAccess (lawful_pair lawful_bool (lawful_pair lawful_documentGrant
      lawful_storeItems)))))

def signedInvitation : Bincode.Codec SignedInvitation :=
  iso (pair bytes bytes) (fun signed => (signed.body, signed.signature)) fun (body, signature) =>
    { body, signature }

theorem lawful_signedInvitation : signedInvitation.Lawful :=
  lawful_iso (lawful_pair lawful_bytes lawful_bytes) fun _ => rfl

def frame : Bincode.Codec Frame where
  encode
    | .invitation signed => littleEndian 4 0 ++ signedInvitation.encode signed
    | .received => littleEndian 4 1
    | .refused why => littleEndian 4 2 ++ text.encode why
    | .done => littleEndian 4 3
  decode input := do
    let (tag, input) ← number 4 input
    match tag with
    | 0 => do
      let (signed, rest) ← signedInvitation.decode input
      return (.invitation signed, rest)
    | 1 => return (.received, input)
    | 2 => do
      let (why, rest) ← text.decode input
      return (.refused why, rest)
    | 3 => return (.done, input)
    | _ => none

theorem lawful_frame : frame.Lawful := by
  have htag : ∀ (tag : ℕ) (rest : Bytes), tag < 4 →
      number 4 (littleEndian 4 tag ++ rest) = some (tag, rest) := fun tag rest h =>
    number_littleEndian (by omega) rest
  rintro (signed | - | why | -) rest h
  · simp only [frame, List.length_append, length_littleEndian] at h
    simp only [frame, List.append_assoc, htag, Nat.reduceLT, Option.bind_eq_bind,
      Option.bind_some, lawful_signedInvitation signed rest (by omega)]
    rfl
  · simp only [frame, htag, Nat.reduceLT, Option.bind_eq_bind, Option.bind_some]
    rfl
  · simp only [frame, List.length_append, length_littleEndian] at h
    simp only [frame, List.append_assoc, htag, Nat.reduceLT, Option.bind_eq_bind,
      Option.bind_some, lawful_text why rest (by omega)]
    rfl
  · simp only [frame, htag, Nat.reduceLT, Option.bind_eq_bind, Option.bind_some]
    rfl

/-! ## Building and reading -/

/-- `INVITATION_BUDGET`. -/
def invitationBudget : ℕ := 512 * 1024

/-- `DOMAIN`. -/
def domain : Bytes := utf8 "polyvisor:document-invitation:v0" ++ [0]

/-- `sign_invitation`, with what the key makes of a message. -/
def signInvitation (sign : Bytes → Bytes) (body : InvitationBody) : SignedInvitation :=
  let body := invitationBody.encode body
  { body := body, signature := sign (domain ++ body) }

/-- `bincode::serialize(&Frame::Invitation(sign_invitation(&key, body.clone())?))`. -/
def wireOf (sign : Bytes → Bytes) (body : InvitationBody) : Bytes :=
  frame.encode (.invitation (signInvitation sign body))

/-- `document_inline_items`, of an engine that has opened the document or failed to. -/
def documentInlineItems (opened : Except Error Unit) (s : SnapshotStorage Bytes) (t : TreeId)
    (budget : ℕ) : Except Error (Option (List (StoreItem Bytes))) :=
  match opened with
  | .error e => .error e
  | .ok () => (s.inlineItems t budget).mapError fun why => ⟨.failed, why⟩

/-- `build_invitation_wire`, with the body it leaves. -/
def buildInvitationWire (sign : Bytes → Bytes)
    (documentInlineItems : ℕ → Except Error (Option (List (StoreItem Bytes))))
    (body : InvitationBody) : Except Error (InvitationBody × Bytes) :=
  let empty := wireOf sign body
  let remaining := invitationBudget - (4 + empty.length)
  match documentInlineItems remaining with
  | .error e => .error e
  | .ok items =>
    let body := { body with inline := items.getD body.inline }
    let body :=
      if invitationBudget < (wireOf sign body).length + 4 then { body with inline := [] } else body
    if invitationBudget < (wireOf sign body).length + 4 then
      .error ⟨.refused, "the encoded invitation exceeds 512 KiB"⟩
    else .ok (body, wireOf sign body)

/-- `sharing_accept`: the frame of a message. -/
def acceptFrame (message : Bytes) : Option Frame :=
  if message.length + 4 ≤ invitationBudget then deserialize frame message else none

/-- What `verify_invitation` takes from `ed25519_dalek`. -/
structure Verifier where
  /-- `VerifyingKey::from_bytes`. -/
  validKey : Bytes32 → Bool
  /-- `Signature::from_slice`. -/
  validSignature : Bytes → Bool
  /-- Key, message, signature. -/
  verify : Bytes32 → Bytes → Bytes → Bool

/-- `verify_invitation`, up to the body. -/
def readBody (signed : SignedInvitation) : Except Error InvitationBody :=
  if invitationBudget < signed.body.length + signed.signature.length then
    .error ⟨.refused, "invitation exceeds 512 KiB"⟩
  else
    match deserialize invitationBody signed.body with
    | none => .error ⟨.refused, "invalid invitation body"⟩
    | some body => .ok body

/-- `verify_invitation`. -/
def verifyInvitation (keys : Verifier) (signed : SignedInvitation) :
    Except Error InvitationBody := do
  let body ← readBody signed
  if !keys.validKey body.senderDevice then throw ⟨.refused, "invalid sender device"⟩
  if !keys.validSignature signed.signature then throw ⟨.refused, "invalid invitation signature"⟩
  if !keys.verify body.senderDevice (domain ++ signed.body) signed.signature then
    throw ⟨.refused, "invitation signature did not verify"⟩
  if body.version ≠ 0 ∨ !body.historyAndResharing then
    throw ⟨.refused, "unsupported invitation semantics"⟩
  return body

variable {sign : Bytes → Bytes} {body body' : InvitationBody} {wire : Bytes}

theorem length_wireOf : (wireOf sign body).length = 20 + (signInvitation sign body).body.length +
    (signInvitation sign body).signature.length := by
  show (littleEndian 4 0 ++ (bytes.encode (signInvitation sign body).body ++
    bytes.encode (signInvitation sign body).signature)).length = _
  simp only [List.length_append, length_littleEndian, bytes]
  omega

/-- Whatever the engine answers, a wire that is built is that of the body left, and within the
budget; the body differs from the one given in the inline items only. -/
theorem buildInvitationWire_eq_ok
    {documentInlineItems : ℕ → Except Error (Option (List (StoreItem Bytes)))}
    (h : buildInvitationWire sign documentInlineItems body = .ok (body', wire)) :
    wire = wireOf sign body' ∧ wire.length + 4 ≤ invitationBudget ∧
      ∃ items, documentInlineItems (invitationBudget - (4 + (wireOf sign body).length)) =
          .ok items ∧
        (body' = { body with inline := items.getD body.inline } ∨
          body' = { body with inline := [] }) := by
  rw [buildInvitationWire] at h
  rcases hitems : documentInlineItems (invitationBudget - (4 + (wireOf sign body).length)) with
    e | items
  · simp only [hitems] at h
    exact nomatch h
  · simp only [hitems] at h
    split_ifs at h with hlarge hstill
    · obtain ⟨rfl, rfl⟩ := Prod.mk.inj (Except.ok.inj h)
      exact ⟨rfl, not_lt.1 hstill, items, rfl, .inr rfl⟩
    · obtain ⟨rfl, rfl⟩ := Prod.mk.inj (Except.ok.inj h)
      exact ⟨rfl, not_lt.1 hlarge, items, rfl, .inl rfl⟩

/-- A wire within the budget is read as the invitation, and the invitation as the body. -/
theorem read_wireOf (h : (wireOf sign body).length + 4 ≤ invitationBudget) :
    acceptFrame (wireOf sign body) = some (.invitation (signInvitation sign body)) ∧
      readBody (signInvitation sign body) = .ok body := by
  have hbudget : invitationBudget < 2 ^ 64 := by decide
  have hlength : (wireOf sign body).length = _ := length_wireOf
  constructor
  · rw [acceptFrame, if_pos h]
    exact deserialize_encode lawful_frame _ (by rw [← wireOf]; omega)
  · have hbody : (invitationBody.encode body).length = (signInvitation sign body).body.length := rfl
    have hdecodes : deserialize invitationBody (signInvitation sign body).body = some body :=
      deserialize_encode lawful_invitationBody body (by omega)
    rw [readBody, if_neg (by omega)]
    simp only [hdecodes]

/-- The whole of `verify_invitation`, of a wire within the budget: the keys decide, and the two
fields that every invitation has the same. -/
theorem verifyInvitation_signInvitation {keys : Verifier}
    (h : (wireOf sign body).length + 4 ≤ invitationBudget)
    (hkey : keys.validKey body.senderDevice = true)
    (hsignature : keys.validSignature (signInvitation sign body).signature = true)
    (hverify : keys.verify body.senderDevice (domain ++ (signInvitation sign body).body)
      (signInvitation sign body).signature = true) :
    verifyInvitation keys (signInvitation sign body) =
      if body.version ≠ 0 ∨ !body.historyAndResharing then
        .error ⟨.refused, "unsupported invitation semantics"⟩
      else .ok body := by
  have hread := (read_wireOf h).2
  simp only [verifyInvitation, hread, hkey, hsignature, hverify, bind, Except.bind, Bool.not_true,
    Bool.false_eq_true, if_false]
  split_ifs with hfields
  · rfl
  · rfl

theorem documentInlineItems_eq_ok {opened : Except Error Unit} {s : SnapshotStorage Bytes}
    {t : TreeId} {budget : ℕ} {items : Option (List (StoreItem Bytes))}
    (h : documentInlineItems opened s t budget = .ok items) :
    s.inlineItems t budget = .ok items := by
  rcases opened with e | ⟨⟩
  · exact nomatch h
  · rw [documentInlineItems] at h
    rcases hanswer : s.inlineItems t budget with e | found
    · rw [hanswer] at h
      exact nomatch h
    · rw [hanswer] at h
      exact congrArg _ (Except.ok.inj h)

/-- `inline_items` answers all items of the tree or none: it answers them exactly if there are none
or their encoding, whose length is the size it counts, is within the budget, and it fails only where
that length does not fit in 64 bits. Whatever the engine answers of a document, a wire that is built
is within the budget with its four bytes of length, the receiver takes it as the invitation that was
signed, and reads the body that was signed, which is the given one but for the inline items. -/
theorem wire_within_budget :
    (∀ (s : SnapshotStorage Bytes) (t : TreeId),
        s.inlineSize t = (storeItems.encode (s.storedItems t)).length) ∧
      (∀ budget < 2 ^ 64, ∀ (s : SnapshotStorage Bytes) (t : TreeId)
        (items : List (StoreItem Bytes)),
        s.inlineItems t budget = .ok (some items) ↔ items = s.storedItems t ∧
          (items = [] ∨ (storeItems.encode items).length ≤ budget)) ∧
      (∀ (budget : ℕ) (s : SnapshotStorage Bytes) (t : TreeId) (e : String),
        s.inlineItems t budget = .error e →
          2 ^ 64 ≤ (storeItems.encode (s.storedItems t)).length) ∧
      ∀ (sign : Bytes → Bytes) (opened : Except Error Unit) (s : SnapshotStorage Bytes)
        (t : TreeId) (body body' : InvitationBody) (wire : Bytes),
        buildInvitationWire sign (documentInlineItems opened s t) body = .ok (body', wire) →
          wire.length + 4 ≤ invitationBudget ∧
            acceptFrame wire = some (.invitation (signInvitation sign body')) ∧
            readBody (signInvitation sign body') = .ok body' ∧
            body' = { body with inline := body'.inline } ∧
            (body'.inline = s.storedItems t ∨ body'.inline = body.inline ∨ body'.inline = []) := by
  refine ⟨fun s t => (length_storeItems _).symm, fun budget hbudget s t items =>
    inlineItems_iff hbudget, fun budget s t e h => inlineItems_eq_error h, ?_⟩
  intro sign opened s t body body' wire h
  obtain ⟨rfl, hwire, items, hitems, hbody⟩ := buildInvitationWire_eq_ok h
  obtain ⟨hframe, hread⟩ := read_wireOf hwire
  refine ⟨hwire, hframe, hread, ?_⟩
  rcases hbody with rfl | rfl
  · refine ⟨rfl, ?_⟩
    rcases items with - | items
    · exact .inr (.inl rfl)
    · -- what the engine answers are the stored items
      have hbudget : invitationBudget - (4 + (wireOf sign body).length) < 2 ^ 64 :=
        (Nat.sub_le _ _).trans_lt (by decide)
      exact .inl ((inlineItems_iff hbudget).1 (documentInlineItems_eq_ok hitems)).1
  · exact ⟨rfl, .inr (.inr rfl)⟩

/-- An invitation to a list with one change. -/
def sampleBody : InvitationBody where
  version := 0
  id := 1
  senderRoot := 2
  senderGroup := 3
  senderDevice := 4
  senderIdentity := [5, 6]
  recipientRoot := 7
  recipientGroup := 8
  documentType := "polyvisor.todo/v0"
  service := "todomvc"
  label := "Groceries"
  access := .edit
  historyAndResharing := true
  grant :=
    { document := { partition := "document:09", document := 9 }
      recipientGroup := 8
      access := .edit
      authority := [10]
      frontier := [] }
  inline := []

/-- A tree with one commit. -/
def sampleTree : Tree Bytes where
  commits := Std.ExtTreeMap.ofList
    [((1 : CommitId), ((⟨7, [1], some ⟨20, 1, [], ⟨0, 0⟩⟩⟩ : Signed LooseCommit), ([5] : Bytes)))]

def sampleStorage : SnapshotStorage Bytes where
  trees := Std.ExtTreeMap.ofList [((20 : TreeId), sampleTree)]

theorem wire_within_budget_sample : ∃ body' wire,
    buildInvitationWire (fun _ => List.replicate 64 9)
        (documentInlineItems (.ok ()) sampleStorage 20) sampleBody = .ok (body', wire) ∧
      wire.length + 4 ≤ invitationBudget ∧ readBody (signInvitation (fun _ => List.replicate 64 9)
        body') = .ok body' ∧
      sampleStorage.inlineItems 20 200 = .ok (some (sampleStorage.storedItems 20)) := by
  obtain ⟨-, hitems, -, hwire⟩ := wire_within_budget
  rcases hbuilt : buildInvitationWire (fun _ => List.replicate 64 9)
      (documentInlineItems (.ok ()) sampleStorage 20) sampleBody with e | ⟨body', wire⟩
  · have hok : (buildInvitationWire (fun _ => List.replicate 64 9)
        (documentInlineItems (.ok ()) sampleStorage 20) sampleBody).isOk = true := by
      decide +kernel
    rw [hbuilt] at hok
    exact nomatch hok
  · obtain ⟨hlength, -, hread, -⟩ := hwire _ _ _ _ _ _ _ hbuilt
    refine ⟨body', wire, rfl, hlength, hread, (hitems 200 (by decide) _ _ _).2 ⟨rfl, .inr ?_⟩⟩
    decide +kernel

end Polyvisor.InvitationWire
