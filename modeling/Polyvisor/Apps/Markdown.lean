import Polyvisor.Engine.Item
import Polyvisor.Lib.Splice
import Polyvisor.Lib.Transition

/-!
# The Markdown editor

`MarkdownDocument` and the handlers of `app` in `apps/markdown/src/lib.rs`, in runs of the load, the
watch loop, the publisher and the events of the text control in any order. An event carries the
control's whole state. It says nothing about which showing of the text the user was editing, so
the model adds that: the showings are counted, and an event that carries an edited value names the
last showing the control had when the edit was made.

Automerge is not part of the repository: `Automerge` lists what the editor calls of it, `Lawful`
what the results take from it. A string is the list of its Unicode scalar values. The preview,
the panes and the two places that render nothing are left out.

## Main results

* `text_input`: after an edit the document's text is the value the event carried.
* `mem_ids_edited_iff`: a character stays iff the document and the value agree around it.
* `kept_iff`: an event leaves what was merged behind its back alone iff it is `Timely`, and
  `stale_events_kept`: so do all events of a run.
* `landedAfter_of_composing`: nothing is merged while a composition lasts.
-/

open Transition Splice

namespace Polyvisor.Markdown

/-! ## What the editor calls -/

/-- `CursorPosition`. -/
inductive CursorPosition where
  | start
  | «end»

/-- `MoveCursor`. -/
inductive MoveCursor where
  | before
  | after

/-- What the editor calls of Automerge. A text object is the list of its visible characters with
the ids of the operations that inserted them. -/
structure Automerge where
  /-- `Automerge`, a document. -/
  Doc : Type
  ObjId : Type
  Cursor : Type
  Heads : Type
  OpId : Type
  [decidableEq : DecidableEq OpId]
  /-- `Automerge::new().with_actor`. -/
  new : Bytes → Doc
  setActor : Doc → Bytes → Doc
  /-- `put_object(ROOT, BODY, ObjType::Text)` in a transaction. -/
  putBody : Doc → Doc × ObjId
  /-- `get(ROOT, BODY)`: nothing, a text object, or (`some none`) another value. -/
  getBody : Doc → Except String (Option (Option ObjId))
  getHeads : Doc → Heads
  /-- The raw bytes of the changes since the heads. -/
  getChanges : Doc → Heads → List Bytes
  load : Bytes → Except String Doc
  merge : Doc → Doc → Doc × Except String Unit
  characters : Doc → ObjId → Except String (List (OpId × Char))
  /-- `splice_text` in a transaction. -/
  spliceText : Doc → ObjId → ℕ → ℕ → List Char → Except String Doc
  /-- `Cursor::Start`. -/
  cursorStart : Cursor
  getCursor : Doc → ObjId → CursorPosition → Except String Cursor
  getCursorMoving : Doc → ObjId → ℕ → MoveCursor → Except String Cursor
  getCursorPosition : Doc → ObjId → Cursor → Except String ℕ

attribute [instance] Automerge.decidableEq

namespace Automerge

variable (A : Automerge)

/-- `text`. -/
def text (doc : A.Doc) (body : A.ObjId) : Except String (List Char) :=
  (A.characters doc body).map (·.map Prod.snd)

/-- What is taken from Automerge: operations have ids of their own, and a splice within the text
replaces the characters it names by new ones. -/
structure Lawful : Prop where
  nodup : ∀ {doc body chars}, A.characters doc body = .ok chars → (chars.map Prod.fst).Nodup
  splice : ∀ {doc body chars} start deleted inserted, A.characters doc body = .ok chars →
    start + deleted ≤ chars.length →
    ∃ doc' new, A.spliceText doc body start deleted inserted = .ok doc' ∧
      A.characters doc' body = .ok (splice chars start deleted new) ∧
      new.map Prod.snd = inserted ∧ ∀ char ∈ new, char.1 ∉ chars.map Prod.fst

end Automerge

/-- `TextControlSelectionDirection`. -/
inductive TextControlSelectionDirection where
  | none
  | forward
  | backward
  deriving DecidableEq

/-- `TextControlState`: the control's text and its selection, in UTF-16 units. -/
structure TextControlState where
  value : List Char
  selectionStart : ℕ
  selectionEnd : ℕ
  direction : TextControlSelectionDirection := .none
  isComposing : Bool := false
  deriving DecidableEq

/-! ## Positions -/

/-- `scalar_diff`: where the two texts differ, as one replacement. -/
def scalarDiff (old new : List Char) : ℕ × ℕ × List Char :=
  let shared := sharedPrefix old new
  let oldTail := old.drop shared
  let newTail := new.drop shared
  let suffix := sharedSuffix oldTail newTail
  (shared, oldTail.length - suffix, (new.take (new.length - suffix)).drop shared)

/-- `char::len_utf16`. -/
def lenUtf16 (ch : Char) : ℕ :=
  if ch.toNat < 0x10000 then 1 else 2

/-- The loop of `utf16_to_scalar`, `scalar` characters and `utf16` units into the text. -/
def utf16ToScalarFrom (scalar utf16 : ℕ) : List Char → ℕ → Except String ℕ
  | [], offset =>
    if utf16 = offset then .ok scalar else .error "selection lies beyond the Markdown text"
  | ch :: rest, offset =>
    if utf16 = offset then .ok scalar
    else if offset < utf16 + lenUtf16 ch then
      .error "selection splits a UTF-16 surrogate pair"
    else utf16ToScalarFrom (scalar + 1) (utf16 + lenUtf16 ch) rest offset

/-- `utf16_to_scalar`. -/
def utf16ToScalar (value : List Char) (offset : ℕ) : Except String ℕ :=
  utf16ToScalarFrom 0 0 value offset

/-- The sum of `scalar_to_utf16`, a `u32` that is checked. -/
def utf16Length (total : ℕ) : List Char → Except String ℕ
  | [] => .ok total
  | ch :: rest =>
    if total + lenUtf16 ch < 2 ^ 32 then utf16Length (total + lenUtf16 ch) rest
    else .error "Markdown selection is too large"

/-- `scalar_to_utf16`. -/
def scalarToUtf16 (value : List Char) (position : ℕ) : Except String ℕ :=
  if value.length < position then .error "selection lies beyond the Markdown text"
  else utf16Length 0 (value.take position)

/-! ## The document -/

variable {A : Automerge}

/-- `StableSelection`. -/
structure StableSelection (A : Automerge) where
  start : A.Cursor
  «end» : A.Cursor
  direction : TextControlSelectionDirection
  isComposing : Bool

/-- `MarkdownDocument`. -/
structure MarkdownDocument (A : Automerge) where
  doc : A.Doc
  body : A.ObjId
  genesis : List Bytes
  selection : StableSelection A

/-- `GENESIS_ACTOR`, `polyvisor-markdown-genesis-v1`. -/
def genesisActor : Bytes :=
  [112, 111, 108, 121, 118, 105, 115, 111, 114, 45, 109, 97, 114, 107, 100, 111, 119, 110, 45,
    103, 101, 110, 101, 115, 105, 115, 45, 118, 49]

/-- `boundary_cursor`; the length is that of the text. -/
def boundaryCursor (doc : A.Doc) (body : A.ObjId) (position : ℕ) (movement : MoveCursor) :
    Except String A.Cursor :=
  if position = 0 then A.getCursor doc body .start
  else if (A.characters doc body).toOption.map List.length = some position then
    A.getCursor doc body .end
  else A.getCursorMoving doc body position movement

namespace MarkdownDocument

/-- `new`: the genesis change is made by a fixed actor, so that every replica makes the same. -/
def new (A : Automerge) (actor : Bytes) : MarkdownDocument A :=
  let empty := A.new genesisActor
  let before := A.getHeads empty
  let (doc, body) := A.putBody empty
  { doc := A.setActor doc actor
    body := body
    genesis := A.getChanges doc before
    selection :=
      { start := A.cursorStart, «end» := A.cursorStart, direction := .none, isComposing := false } }

/-- `merge_snapshot`, which says whether the snapshot has a body. -/
def mergeSnapshot (d : MarkdownDocument A) (bytes : Bytes) :
    MarkdownDocument A × Except String Bool :=
  if bytes = [] then (d, .ok false)
  else
    match A.load bytes with
    | .error message => (d, .error message)
    | .ok remote =>
      match A.getBody remote with
      | .error message => (d, .error message)
      | .ok found =>
        let remoteHasGenesis := found.join.isSome
        match A.merge d.doc remote with
        | (doc, .error message) => ({ d with doc := doc }, .error message)
        | (doc, .ok ()) =>
          match A.getBody doc with
          | .error message => ({ d with doc := doc }, .error message)
          | .ok none | .ok (some none) =>
            ({ d with doc := doc }, .error "Markdown body is missing after history merge")
          | .ok (some (some body)) => ({ d with doc := doc, body := body }, .ok remoteHasGenesis)

/-- `control_state`. -/
def controlState (d : MarkdownDocument A) : Except String TextControlState := do
  let value ← A.text d.doc d.body
  let start ← A.getCursorPosition d.doc d.body d.selection.start
  let stop ← A.getCursorPosition d.doc d.body d.selection.end
  return {
    value := value
    selectionStart := ← scalarToUtf16 value start
    selectionEnd := ← scalarToUtf16 value stop
    direction := d.selection.direction
    isComposing := d.selection.isComposing }

/-- The selection `capture_selection` takes from the control, whose text has to be the
document's. -/
def selectionOf (d : MarkdownDocument A) (state : TextControlState) :
    Except String (StableSelection A) := do
  let value ← A.text d.doc d.body
  if value ≠ state.value then
    throw "selection snapshot does not match the current Markdown text"
  let start ← utf16ToScalar value state.selectionStart
  let stop ← utf16ToScalar value state.selectionEnd
  let startCursor ← boundaryCursor d.doc d.body start .after
  let endCursor ←
    if start = stop then pure startCursor else boundaryCursor d.doc d.body stop .after
  return {
    start := startCursor
    «end» := endCursor
    direction := state.direction
    isComposing := state.isComposing }

/-- `capture_selection`. -/
def captureSelection (d : MarkdownDocument A) (state : TextControlState) :
    MarkdownDocument A × Except String Unit :=
  match d.selectionOf state with
  | .error message => (d, .error message)
  | .ok selection => ({ d with selection := selection }, .ok ())

/-- `input`. The transaction is committed before the selection is looked at, so an edit stays when
its selection is refused. -/
def input (d : MarkdownDocument A) (state : TextControlState) :
    MarkdownDocument A × Except String (List Bytes) :=
  match A.text d.doc d.body with
  | .error message => (d, .error message)
  | .ok old =>
    let (start, deleted, inserted) := scalarDiff old state.value
    match A.spliceText d.doc d.body start deleted inserted with
    | .error message => (d, .error message)
    | .ok doc =>
      let (after, captured) := captureSelection { d with doc := doc } state
      (after, captured.map fun _ => A.getChanges after.doc (A.getHeads d.doc))

/-- The visible characters, none when there is no text to read. -/
def characters (d : MarkdownDocument A) : List (A.OpId × Char) :=
  (A.characters d.doc d.body).toOption.getD []

/-- The ids of the visible characters. -/
def ids (d : MarkdownDocument A) : List A.OpId :=
  d.characters.map Prod.fst

/-- The text, empty when there is none to read. -/
def text (d : MarkdownDocument A) : List Char :=
  d.characters.map Prod.snd

end MarkdownDocument

/-! ## The editor -/

/-- The publisher's coroutine. -/
inductive Publisher where
  | idle
  /-- `publish` was called with these changes, which cover so many batches. -/
  | publishing (changes : List Bytes) (coalesced : ℕ)
  /-- A publish failed. -/
  | stopped

/-- The signals of `app` and where its tasks are. -/
structure App (A : Automerge) where
  document : MarkdownDocument A
  revision : ℕ := 0
  generation : ℕ := 0
  status : String := "Loading…"
  ready : Bool := false
  /-- The text control is read-only from then on. -/
  failed : Bool := false
  composing : Bool := false
  deferredIme : Option Bytes := none
  completedComposition : Option TextControlState := none
  pending : ℕ := 0
  loading : Bool := true
  watching : Bool := true
  batches : List (List Bytes) := []
  publisher : Publisher := .idle

/-- What happens to the editor. An event that carries an edited value names the showing the value
was edited from. -/
inductive Event where
  /-- `history::read` returned. -/
  | read (result : Except String (ℕ × Bytes))
  /-- `history::watch` returned. -/
  | watched (result : Except String (ℕ × Bytes))
  /-- The control is rendered with `control_state`. -/
  | shown
  /-- `onselect` or `onselectionchange`, which have one handler. -/
  | selected (control : Option TextControlState)
  | compositionstart
  | compositionend (basis : ℕ) (control : Option TextControlState)
  | input (basis : ℕ) (control : Option TextControlState)
  /-- The publisher takes up the batches in its queue. -/
  | publish
  /-- `history::publish` returned. -/
  | published (result : Except String Unit)

/-- `drain_backlog`. -/
def drainBacklog (first : List Bytes) (queued : List (List Bytes)) : List Bytes × ℕ :=
  (first ++ queued.flatten, queued.length + 1)

/-- `selection_snapshot_is_stable`. -/
def selectionSnapshotIsStable (composing : Bool) (state : TextControlState) : Bool :=
  !composing && !state.isComposing

namespace App

/-- `set_progress`. -/
def setProgress (a : App A) (message : String) : App A :=
  if a.failed then a else { a with status := message }

def fail (a : App A) (message : String) : App A :=
  { a with failed := true, status := message }

/-- The load. A body that no replica has made yet is published. -/
def loaded (a : App A) (result : Except String (ℕ × Bytes)) : App A :=
  if a.loading = false then a
  else
    let a := { a with loading := false }
    match result with
    | .error message => a.fail ("Load failed: " ++ message)
    | .ok (rev, bytes) =>
      match a.document.mergeSnapshot bytes with
      | (document, .error message) =>
        { a with document := document }.fail ("Load failed: " ++ message)
      | (document, .ok remoteHasGenesis) =>
        let a :=
          { a with
            document := document
            revision := rev
            ready := true
            generation := a.generation + 1 }
        if remoteHasGenesis then a.setProgress "Saved locally"
        else
          let a := { a with pending := a.pending + 1 }.setProgress "Saving locally…"
          { a with batches := a.batches ++ [document.genesis] }

/-- One turn of the watch loop. A composition owns the control's text, so the newest snapshot waits
for its end. -/
def watched (a : App A) (result : Except String (ℕ × Bytes)) : App A :=
  if a.watching = false then a
  else
    match result with
    | .error message =>
      if a.failed then { a with watching := false }
      else { a with watching := false }.fail ("Sync stopped: " ++ message)
    | .ok (rev, bytes) =>
      if rev ≤ a.revision then a
      else
        let a := { a with revision := rev }
        if a.composing then { a with deferredIme := some bytes }
        else
          match a.document.mergeSnapshot bytes with
          | (document, .ok _) => { a with document := document, generation := a.generation + 1 }
          | (document, .error message) =>
            { a with document := document, watching := false }.fail ("Sync failed: " ++ message)

/-- `enqueue`. -/
def enqueue (a : App A) : Except String (List Bytes) → App A
  | .ok [] => a
  | .ok (change :: changes) =>
    let a := { a with pending := a.pending + 1 }.setProgress "Saving locally…"
    { a with batches := a.batches ++ [change :: changes], generation := a.generation + 1 }
  | .error message => a.fail ("Edit failed: " ++ message)

/-- `input` on the document, and what it returned to `enqueue`. -/
def author (a : App A) (state : TextControlState) : App A :=
  let (document, result) := a.document.input state
  { a with document := document }.enqueue result

/-- `onselect` and `onselectionchange`. -/
def onselect (a : App A) : Option TextControlState → App A
  | none => a
  | some state =>
    if selectionSnapshotIsStable a.composing state then
      match a.document.captureSelection state with
      | (document, .ok ()) => { a with document := document }
      | (document, .error message) =>
        { a with document := document }.fail ("Selection failed: " ++ message)
    else a

/-- `oncompositionstart`. -/
def oncompositionstart (a : App A) : App A :=
  { a with composing := true, completedComposition := none }

/-- `oncompositionend` up to the merge of the deferred snapshot. -/
def composed (a : App A) (control : Option TextControlState) : App A :=
  let a := { a with composing := false, completedComposition := control }
  match control with
  | none => a.enqueue (.error "compositionend omitted text-control state")
  | some state => a.author state

/-- The rest of `oncompositionend`. -/
def mergeDeferred (a : App A) : App A :=
  match a.deferredIme with
  | none => a
  | some bytes =>
    let a := { a with deferredIme := none }
    match a.document.mergeSnapshot bytes with
    | (document, .ok _) => { a with document := document, generation := a.generation + 1 }
    | (document, .error message) =>
      { a with document := document }.fail ("Sync failed: " ++ message)

/-- `oninput`. The browser repeats a composition's final value as an input: `compositionend` has
taken it up already, so that one value is dropped, and whatever comes first ends the wait. -/
def oninput (a : App A) : Option TextControlState → App A
  | none => a.fail "Edit failed: input event omitted text-control state"
  | some state =>
    if !state.isComposing && !a.composing then
      let echo := a.completedComposition = some state
      let a := { a with completedComposition := none }
      if echo then a else a.author state
    else a

/-- The publisher drains its queue into one call. -/
def publish (a : App A) : App A :=
  match a.publisher, a.batches with
  | .idle, first :: queued =>
    let (changes, coalesced) := drainBacklog first queued
    { a with publisher := .publishing changes coalesced, batches := [] }
  | _, _ => a

/-- The publisher's call returned. -/
def published (a : App A) (result : Except String Unit) : App A :=
  match a.publisher, result with
  | .publishing _ coalesced, .ok () =>
    let remaining := a.pending - coalesced
    let a := { a with pending := remaining, publisher := .idle }
    if remaining = 0 then a.setProgress "Saved locally" else a
  | .publishing _ _, .error message =>
    { a with publisher := .stopped }.fail ("Save failed: " ++ message)
  | _, _ => a

/-- What the event itself writes into the document: at a composition's end, before the deferred
snapshot is merged. -/
def edited (a : App A) : Event → App A
  | .input _ control => a.oninput control
  | .compositionend _ control => a.composed control
  | _ => a

/-- One event. -/
def handle (a : App A) : Event → App A
  | .read result => a.loaded result
  | .watched result => a.watched result
  | .shown => a
  | .selected control => a.onselect control
  | .compositionstart => a.oncompositionstart
  | .compositionend _ control => (a.composed control).mergeDeferred
  | .input _ control => a.oninput control
  | .publish => a.publish
  | .published result => a.published result

/-- The value that the event has written into the document, with the showing it was edited from.
An input during a composition is passed over, and so is the repetition of its final value. -/
def takes (a : App A) : Event → Option (ℕ × TextControlState)
  | .compositionend basis control => control.map (basis, ·)
  | .input basis (some state) =>
    if !state.isComposing && !a.composing then
      if a.completedComposition = some state then none else some (basis, state)
    else none
  | _ => none

end App

namespace Event

/-- The showing that the value the event carries was edited from. -/
def basis : Event → Option ℕ
  | .compositionend basis _ | .input basis _ => some basis
  | _ => none

/-- The control's state in a selection event. -/
def selection : Event → Option TextControlState
  | .selected control => control
  | _ => none

end Event

/-! ## Runs -/

/-- The editor with what has happened to its document. -/
structure Session (A : Automerge) where
  app : App A
  /-- How often the control was rendered. -/
  showings : ℕ := 0
  /-- The characters that merges brought in, with the number of showings before. -/
  landed : List (A.OpId × ℕ) := []
  /-- The texts the document had. -/
  texts : List (List Char) := []

namespace Session

def init (A : Automerge) (actor : Bytes) : Session A :=
  { app := { document := .new A actor } }

def step (s : Session A) (e : Event) : Session A :=
  let app := s.app.handle e
  let arrived := app.document.ids.filter (· ∉ (s.app.edited e).document.ids)
  { app := app
    showings :=
      match e, s.app.document.controlState with
      | .shown, .ok _ => s.showings + 1
      | _, _ => s.showings
    landed := s.landed ++ arrived.map (·, s.showings)
    texts := s.texts ++ [s.app.document.text] }

/-- The characters merged in after the showing. -/
def landedAfter (s : Session A) (basis : ℕ) : List A.OpId :=
  (s.landed.filter fun arrival => decide (basis < arrival.2)).map Prod.fst

/-- The document had the text before and has another now. -/
def Older (s : Session A) (value : List Char) : Prop :=
  value ∈ s.texts ∧ value ≠ s.app.document.text

instance decidableOlder (s : Session A) (value : List Char) : Decidable (s.Older value) :=
  inferInstanceAs (Decidable (_ ∧ _))

/-- The event deletes nothing that was merged in behind its back, and a selection in an older text
does not stop the editor. -/
structure Kept (s : Session A) (e : Event) : Prop where
  text : ∀ basis ∈ e.basis, ∀ id ∈ s.landedAfter basis,
    id ∈ s.app.document.ids → id ∈ (s.app.edited e).document.ids
  selection : ∀ state ∈ e.selection, s.Older state.value →
    s.app.failed = false → (s.app.handle e).failed = false

/-- Where a value is taken up, it agrees with the document around each character that was merged in
behind its back. A selection in an older text comes during a composition only. -/
structure Timely (s : Session A) (e : Event) : Prop where
  text : ∀ take ∈ s.app.takes e, ∀ i (hi : i < s.app.document.characters.length),
    (s.app.document.characters[i]).1 ∈ s.landedAfter take.1 →
      Agrees s.app.document.text take.2.value i
  selection : ∀ state ∈ e.selection, s.Older state.value →
    s.app.failed = false → selectionSnapshotIsStable s.app.composing state = false

instance decidableKept (s : Session A) (e : Event) : Decidable (s.Kept e) :=
  decidable_of_iff (_ ∧ _) ⟨fun h => ⟨h.1, h.2⟩, fun h => ⟨h.text, h.selection⟩⟩

instance decidableTimely (s : Session A) (e : Event) : Decidable (s.Timely e) :=
  decidable_of_iff (_ ∧ _) ⟨fun h => ⟨h.1, h.2⟩, fun h => ⟨h.text, h.selection⟩⟩

end Session

/-! ## One edit -/

theorem scalarDiff_eq (old new : List Char) {start deleted : ℕ} {inserted : List Char}
    (hdiff : scalarDiff old new = (start, deleted, inserted)) :
    start = sharedPrefix old new ∧ start ≤ old.length ∧
      ∃ suffix, suffix = sharedSuffix (old.drop start) (new.drop start) ∧
        deleted = (old.drop start).length - suffix ∧
        inserted = (new.take (new.length - suffix)).drop start := by
  simp only [scalarDiff, Prod.mk.injEq] at hdiff
  obtain ⟨rfl, hdeleted, hinserted⟩ := hdiff
  exact ⟨rfl, sharedPrefix_le_left old new, _, rfl, hdeleted.symm, hinserted.symm⟩

namespace MarkdownDocument

@[simp]
theorem characters_captureSelection (d : MarkdownDocument A) (state : TextControlState) :
    (d.captureSelection state).1.characters = d.characters := by
  unfold captureSelection
  split <;> rfl

/-- A text that cannot be read is left alone; one that can has the stretch that differs from the
value replaced by new characters. -/
theorem characters_input (hA : A.Lawful) (d : MarkdownDocument A) (state : TextControlState) :
    (A.characters d.doc d.body).isOk = false ∧ (d.input state).1 = d ∨
      ∃ start deleted inserted new, scalarDiff d.text state.value = (start, deleted, inserted) ∧
        (d.input state).1.characters = splice d.characters start deleted new ∧
        new.map Prod.snd = inserted ∧ ∀ char ∈ new, char.1 ∉ d.ids := by
  rcases hread : A.characters d.doc d.body with message | chars
  · left
    simp [input, Automerge.text, hread, Except.map, Except.isOk, Except.toBool]
  right
  have hchars : d.characters = chars := by
    simp [characters, hread, Except.toOption]
  have htext : A.text d.doc d.body = .ok d.text := by
    simp [Automerge.text, hread, text, hchars, Except.map]
  rcases hdiff : scalarDiff d.text state.value with ⟨start, deleted, inserted⟩
  obtain ⟨-, hstart, suffix, -, hdeleted, -⟩ := scalarDiff_eq _ _ hdiff
  have hbound : start + deleted ≤ chars.length := by
    have hlength : d.text.length = chars.length := by simp [text, hchars]
    rw [List.length_drop] at hdeleted
    omega
  obtain ⟨doc, new, hspliced, hafter, hvalue, hfresh⟩ :=
    hA.splice start deleted inserted hread hbound
  refine ⟨start, deleted, inserted, new, rfl, ?_, hvalue, by simpa [ids, hchars] using hfresh⟩
  simp only [input, htext, hdiff, hspliced, characters_captureSelection]
  simp [characters, hafter, hread, Except.toOption]

/-- After an edit the text is the value the control carried. -/
theorem text_input (hA : A.Lawful) (d : MarkdownDocument A) (state : TextControlState)
    (hread : (A.characters d.doc d.body).isOk) : (d.input state).1.text = state.value := by
  obtain ⟨hbad, -⟩ | ⟨start, deleted, inserted, new, hdiff, hafter, hvalue, -⟩ :=
    characters_input hA d state
  · rw [hread] at hbad
    contradiction
  obtain ⟨hstart, -, suffix, hsuffix, rfl, rfl⟩ := scalarDiff_eq _ _ hdiff
  rw [text, hafter]
  have hmap : (splice d.characters start ((d.text.drop start).length - suffix) new).map Prod.snd =
      splice d.text start ((d.text.drop start).length - suffix) (new.map Prod.snd) := by
    simp [splice, text, List.map_take, List.map_drop]
  rw [hmap, hvalue, splice_shared _ _ hstart hsuffix]

/-- The characters an edit leaves in place are those around which the document and the value
agree. -/
theorem mem_ids_input_iff (hA : A.Lawful) (d : MarkdownDocument A) (state : TextControlState)
    {i : ℕ} (hi : i < d.characters.length) :
    (d.characters[i]).1 ∈ (d.input state).1.ids ↔ Agrees d.text state.value i := by
  have hget : d.characters[i]? = some d.characters[i] := List.getElem?_eq_getElem hi
  obtain ⟨hbad, -⟩ | ⟨start, deleted, inserted, new, hdiff, hafter, -, hfresh⟩ :=
    characters_input hA d state
  · rcases hread : A.characters d.doc d.body with message | chars
    · simp [characters, hread, Except.toOption] at hi
    · rw [hread] at hbad
      exact Bool.noConfusion hbad
  obtain ⟨hstart, -, suffix, hsuffix, rfl, -⟩ := scalarDiff_eq _ _ hdiff
  have hnodup : (d.characters.map Prod.fst).Nodup := by
    rcases hread : A.characters d.doc d.body with message | chars
    · simp [characters, hread, Except.toOption]
    · simpa [characters, hread, Except.toOption] using hA.nodup hread
  have hlength : i < d.text.length := by simpa [text] using hi
  rw [agrees_iff hlength hstart hsuffix, ids, hafter]
  exact key_mem_splice_iff hnodup hfresh hget

/-- A selection in another text than the document's is refused. -/
theorem selectionOf_of_ne (d : MarkdownDocument A) (state : TextControlState)
    (hne : state.value ≠ d.text) : ∃ message, d.selectionOf state = .error message := by
  rcases hread : A.characters d.doc d.body with message | chars
  · exact ⟨message, by simp [selectionOf, Automerge.text, hread, Except.map]; rfl⟩
  · have htext : A.text d.doc d.body = .ok d.text := by
      simp [Automerge.text, hread, text, characters, Except.map, Except.toOption]
    refine ⟨"selection snapshot does not match the current Markdown text", ?_⟩
    rw [selectionOf, htext]
    simp only [bind, Except.bind, if_pos hne.symm]
    rfl

end MarkdownDocument

/-! ## One event -/

namespace App

@[simp]
theorem document_setProgress (a : App A) (message : String) :
    (a.setProgress message).document = a.document := by
  unfold setProgress
  split <;> rfl

@[simp]
theorem document_fail (a : App A) (message : String) :
    (a.fail message).document = a.document := rfl

@[simp]
theorem document_enqueue (a : App A) (result : Except String (List Bytes)) :
    (a.enqueue result).document = a.document := by
  unfold enqueue
  split <;> simp

@[simp]
theorem document_author (a : App A) (state : TextControlState) :
    (a.author state).document = (a.document.input state).1 := by
  simp [author]

/-- What an event writes is the value it takes up, and nothing where it takes up none. -/
theorem document_edited (a : App A) (e : Event) :
    (a.edited e).document =
      match a.takes e with
      | none => a.document
      | some (_, state) => (a.document.input state).1 := by
  rcases e with result | result | - | control | - | ⟨basis, control⟩ | ⟨basis, control⟩ | - | result
  case compositionend =>
    rcases control with _ | state <;> simp [edited, composed, takes]
  case input =>
    rcases control with _ | state
    · rfl
    by_cases hstable : (!state.isComposing && !a.composing) = true
    · by_cases hecho : a.completedComposition = some state
      · simp only [edited, oninput, takes, if_pos hstable, if_pos hecho]
      · simp only [edited, oninput, takes, if_pos hstable, if_neg hecho, document_author]
    · simp only [edited, oninput, takes, if_neg hstable]
  all_goals rfl

theorem basis_of_takes {a : App A} {e : Event} {take : ℕ × TextControlState}
    (htake : a.takes e = some take) : e.basis = some take.1 := by
  rcases e with result | result | - | control | - | ⟨basis, control⟩ | ⟨basis, control⟩ | - | result
  case compositionend =>
    obtain ⟨state, -, rfl⟩ := Option.map_eq_some_iff.1 htake
    rfl
  case input =>
    rcases control with _ | state
    · exact nomatch htake
    · obtain ⟨-, htaken⟩ := Option.ite_none_right_eq_some.1 htake
      obtain ⟨-, heq⟩ := Option.ite_none_left_eq_some.1 htaken
      rw [← Option.some.inj heq]
      rfl
  all_goals exact nomatch htake

/-- A selection in another text stops the editor, unless a composition goes on. -/
theorem failed_onselect (a : App A) (state : TextControlState)
    (hne : state.value ≠ a.document.text) (hfailed : a.failed = false) :
    (a.onselect (some state)).failed = selectionSnapshotIsStable a.composing state := by
  obtain ⟨message, hrefused⟩ := a.document.selectionOf_of_ne state hne
  rcases hstable : selectionSnapshotIsStable a.composing state with _ | _
  · simp [onselect, hstable, hfailed]
  · simp [onselect, hstable, MarkdownDocument.captureSelection, hrefused, fail]

end App

/-! ## All events -/

namespace Session

variable {s : Session A} {e : Event}

/-- An event spares what was merged in behind its back iff it is timely. -/
theorem kept_iff (hA : A.Lawful) : s.Kept e ↔ s.Timely e := by
  have hedited := s.app.document_edited e
  have hselection : (∀ state ∈ e.selection, s.Older state.value → s.app.failed = false →
        (s.app.handle e).failed = false) ↔
      ∀ state ∈ e.selection, s.Older state.value → s.app.failed = false →
        selectionSnapshotIsStable s.app.composing state = false := by
    refine forall₂_congr fun state hstate => forall₂_congr fun holder hfailed => ?_
    rcases e with _ | _ | _ | control | _ | _ | _ | _ | _
    case selected =>
      obtain rfl : control = some state := hstate
      show (s.app.onselect (some state)).failed = false ↔ _
      rw [App.failed_onselect s.app state holder.2 hfailed]
    all_goals exact nomatch hstate
  constructor
  · intro h
    refine ⟨fun take htake i hi hlanded => ?_, hselection.1 h.selection⟩
    have hstays := h.text take.1 (App.basis_of_takes htake) _ hlanded
      (List.mem_map_of_mem (List.getElem_mem hi))
    rw [hedited, show s.app.takes e = some take from htake] at hstays
    exact (MarkdownDocument.mem_ids_input_iff hA _ _ hi).1 hstays
  · intro h
    refine ⟨fun basis hbasis id hlanded hid => ?_, hselection.2 h.selection⟩
    rw [hedited]
    rcases htake : s.app.takes e with _ | take
    · exact hid
    · obtain rfl : basis = take.1 :=
        Option.some.inj ((show e.basis = some basis from hbasis) ▸ App.basis_of_takes htake)
      obtain ⟨char, hmem, rfl⟩ := List.mem_map.1 hid
      obtain ⟨i, hi, rfl⟩ := List.getElem_of_mem hmem
      exact (MarkdownDocument.mem_ids_input_iff hA _ _ hi).2 (h.text take htake i hi hlanded)

/-- In a run every event spares what was merged in behind its back iff every event is timely. -/
theorem stale_events_kept (hA : A.Lawful) (actor : Bytes) (es : List Event) :
    Meets step Kept (init A actor) es ↔ Meets step Timely (init A actor) es := by
  have hiff : Kept (A := A) = Timely := by
    ext s e
    exact kept_iff hA
  rw [hiff]

end Session

/-! ## Compositions -/

/-- While a composition lasts and the load is done, only the composition's end merges anything. -/
theorem Session.step_of_composing (s : Session A) {e : Event} (hcomposing : s.app.composing)
    (hloading : s.app.loading = false) (hend : ∀ basis control, e ≠ .compositionend basis control) :
    (s.step e).landed = s.landed ∧ (s.step e).app.composing ∧ (s.step e).app.loading = false := by
  have hdoc : (s.app.handle e).document.ids = (s.app.edited e).document.ids ∧
      (s.app.handle e).composing ∧ (s.app.handle e).loading = false := by
    rcases e with result | result | - | control | - | ⟨basis, control⟩ | ⟨basis, control⟩ | - |
      result
    case read => simp [App.handle, App.loaded, App.edited, hloading, hcomposing]
    case watched =>
      rcases result with message | ⟨rev, bytes⟩
      · simp only [App.handle, App.watched, App.edited]
        split
        · exact ⟨rfl, hcomposing, hloading⟩
        · split <;> exact ⟨rfl, hcomposing, hloading⟩
      · simp only [App.handle, App.watched, App.edited, hcomposing, if_true]
        split
        · exact ⟨rfl, hcomposing, hloading⟩
        · split <;> exact ⟨rfl, by simp [hcomposing], hloading⟩
    case compositionend => exact absurd rfl (hend basis control)
    case input =>
      rcases control with _ | state
      · exact ⟨rfl, hcomposing, hloading⟩
      · simp [App.handle, App.oninput, App.edited, hcomposing, hloading]
    case selected =>
      rcases control with _ | state
      · exact ⟨rfl, hcomposing, hloading⟩
      · simp [App.handle, App.onselect, App.edited, selectionSnapshotIsStable, hcomposing,
          hloading]
    case publish =>
      simp only [App.handle, App.publish, App.edited]
      split <;> exact ⟨rfl, hcomposing, hloading⟩
    case published =>
      simp only [App.handle, App.published, App.edited]
      split
      · split
        · unfold App.setProgress
          split <;> exact ⟨rfl, hcomposing, hloading⟩
        · exact ⟨rfl, hcomposing, hloading⟩
      · exact ⟨rfl, hcomposing, hloading⟩
      · exact ⟨rfl, hcomposing, hloading⟩
    all_goals exact ⟨rfl, by first | rfl | exact hcomposing, hloading⟩
  refine ⟨?_, hdoc.2⟩
  have harrived :
      (s.app.handle e).document.ids.filter (· ∉ (s.app.edited e).document.ids) = [] := by
    rw [hdoc.1, List.filter_eq_nil_iff]
    intro id hid
    simpa using hid
  show s.landed ++ _ = s.landed
  rw [harrived]
  simp

/-- Nothing is merged while a composition lasts: its end finds behind its back what its start
would have found. -/
theorem Session.landedAfter_of_composing (s : Session A) (hcomposing : s.app.composing)
    (hloading : s.app.loading = false) (es : List Event)
    (hends : ∀ e ∈ es, ∀ basis control, e ≠ .compositionend basis control) (basis : ℕ) :
    (run step s es).landedAfter basis = s.landedAfter basis := by
  induction es generalizing s with
  | nil => rfl
  | cons e es ih =>
    obtain ⟨hlanded, hcomposing', hloading'⟩ :=
      s.step_of_composing hcomposing hloading (hends e List.mem_cons_self)
    rw [run_cons, ih (s.step e) hcomposing' hloading' fun e' he' =>
      hends e' (List.mem_cons_of_mem e he')]
    rw [landedAfter, landedAfter, hlanded]

/-! ## A replica -/

/-- A small replicated text: characters with the actor and the number of the operation that
inserted them. A snapshot is the text of one other actor, a byte a character. -/
structure Replica where
  actor : Bytes
  hasBody : Bool
  chars : List ((Bytes × ℕ) × Char)
  nodup : (chars.map Prod.fst).Nodup

namespace Replica

/-- The characters an actor inserts with its operations from `next` on. -/
def inserted (actor : Bytes) (next : ℕ) : List Char → List ((Bytes × ℕ) × Char)
  | [] => []
  | ch :: rest => ((actor, next), ch) :: inserted actor (next + 1) rest

theorem le_of_mem_inserted {actor : Bytes} {next : ℕ} {chars : List Char} {char}
    (h : char ∈ inserted actor next chars) : next ≤ char.1.2 := by
  induction chars generalizing next with
  | nil => exact absurd h List.not_mem_nil
  | cons ch rest ih =>
    rcases List.mem_cons.1 h with rfl | hrest
    · exact le_rfl
    · have := ih hrest
      omega

theorem nodup_inserted (actor : Bytes) (next : ℕ) (chars : List Char) :
    ((inserted actor next chars).map Prod.fst).Nodup := by
  induction chars generalizing next with
  | nil => exact List.nodup_nil
  | cons ch rest ih =>
    refine List.nodup_cons.2 ⟨fun h => ?_, ih (next + 1)⟩
    obtain ⟨char, hmem, heq⟩ := List.mem_map.1 h
    have hle := le_of_mem_inserted hmem
    have hnumber : char.1.2 = next := congrArg Prod.snd heq
    omega

theorem map_inserted (actor : Bytes) (next : ℕ) (chars : List Char) :
    (inserted actor next chars).map Prod.snd = chars := by
  induction chars generalizing next with
  | nil => rfl
  | cons ch rest ih => rw [inserted, List.map_cons, ih]

/-- A number above those of all characters. -/
def next (r : Replica) : ℕ :=
  (r.chars.map fun char => char.1.2).foldr max 0 + 1

theorem lt_next {r : Replica} {char} (h : char ∈ r.chars) : char.1.2 < r.next := by
  have hle : ∀ numbers : List ℕ, ∀ n ∈ numbers, n ≤ numbers.foldr max 0 := by
    intro numbers
    induction numbers with
    | nil => exact fun n hn => absurd hn List.not_mem_nil
    | cons m numbers ih =>
      intro n hn
      rcases List.mem_cons.1 hn with rfl | hn
      · exact le_max_left _ _
      · exact (ih n hn).trans (le_max_right _ _)
  have := hle _ _ (List.mem_map_of_mem (f := fun char => char.1.2) h)
  rw [next]
  omega

theorem inserted_fresh (r : Replica) (chars : List Char) :
    ∀ char ∈ inserted r.actor r.next chars, char.1 ∉ r.chars.map Prod.fst := by
  intro char hmem hold
  obtain ⟨old, hold, heq⟩ := List.mem_map.1 hold
  have hlt := lt_next hold
  have hle := le_of_mem_inserted hmem
  rw [heq] at hlt
  omega

/-- The other characters behind this text's own. -/
def merge (r other : Replica) : Replica where
  actor := r.actor
  hasBody := r.hasBody || other.hasBody
  chars := r.chars ++ other.chars.filter (·.1 ∉ r.chars.map Prod.fst)
  nodup := by
    rw [List.map_append]
    refine List.Nodup.append r.nodup
      (other.nodup.sublist (List.filter_sublist.map Prod.fst)) fun id hid hother => ?_
    obtain ⟨char, hmem, rfl⟩ := List.mem_map.1 hother
    exact of_decide_eq_true (List.mem_filter.1 hmem).2 hid

/-- `splice_text`, which refuses a position outside the text. -/
def spliceText (r : Replica) (start deleted : ℕ) (chars : List Char) : Except String Replica :=
  if start + deleted ≤ r.chars.length then
    .ok {
      actor := r.actor
      hasBody := r.hasBody
      chars := splice r.chars start deleted (inserted r.actor r.next chars)
      nodup := nodup_splice r.nodup (nodup_inserted _ _ _) (r.inserted_fresh chars) }
  else .error "index out of bounds"

end Replica

/-- The replica as what the editor calls. -/
def replica : Automerge where
  Doc := Replica
  ObjId := Unit
  Cursor := ℕ
  Heads := Bool × List (Bytes × ℕ)
  OpId := Bytes × ℕ
  new actor := { actor, hasBody := false, chars := [], nodup := List.nodup_nil }
  setActor r actor := { r with actor }
  putBody r := ({ r with hasBody := true }, ())
  getBody r := .ok (if r.hasBody then some (some ()) else none)
  getHeads r := (r.hasBody, r.chars.map Prod.fst)
  getChanges r heads :=
    if heads = (r.hasBody, r.chars.map Prod.fst) then []
    else [r.chars.map fun char => UInt8.ofNat char.2.toNat]
  load bytes := .ok {
    actor := [0]
    hasBody := true
    chars := Replica.inserted [0] 1 (bytes.map fun byte => Char.ofNat byte.toNat)
    nodup := Replica.nodup_inserted _ _ _ }
  merge r other := (r.merge other, .ok ())
  characters r _ := .ok r.chars
  spliceText r _ start deleted chars := r.spliceText start deleted chars
  cursorStart := 0
  getCursor r _
    | .start => .ok 0
    | .end => .ok r.chars.length
  getCursorMoving _ _ position _ := .ok position
  getCursorPosition _ _ cursor := .ok cursor

theorem replica_lawful : replica.Lawful where
  nodup {r _ chars} h := Except.ok.inj h ▸ r.nodup
  splice {r _ chars} start deleted inserted h hbound := by
    obtain rfl : r.chars = chars := Except.ok.inj h
    refine ⟨_, Replica.inserted r.actor r.next inserted, if_pos hbound, rfl,
      Replica.map_inserted _ _ _, r.inserted_fresh inserted⟩

/-- The control shows the empty text, another replica's `x` arrives, and an input that started from
the empty text puts `ax` in: the `x` that the text and the value share stays. -/
theorem stale_events_kept_typing_before :
    Meets Session.step Session.Kept (Session.init replica [7])
      [.read (.ok (0, [])), .shown, .watched (.ok (1, [120])),
        .input 0 (some { value := ['a', 'x'], selectionStart := 2, selectionEnd := 2 })] :=
  (Session.stale_events_kept replica_lawful [7] _).2 (by decide)

/-- The `x` arrives while the `a` is typed into the empty text: the input deletes it. A selection
in the empty text, as late, stops the editor. -/
theorem stale_input_deletes :
    ¬ Meets Session.step Session.Kept (Session.init replica [7])
        [.read (.ok (0, [])), .shown, .watched (.ok (1, [120])),
          .input 0 (some { value := ['a'], selectionStart := 1, selectionEnd := 1 })] ∧
      ¬ Meets Session.step Session.Kept (Session.init replica [7])
        [.read (.ok (0, [])), .shown, .watched (.ok (1, [120])),
          .selected (some { value := [], selectionStart := 0, selectionEnd := 0 })] := by
  decide

end Polyvisor.Markdown
