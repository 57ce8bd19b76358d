import Mathlib.Algebra.Order.BigOperators.Group.List
import Mathlib.Algebra.Order.Group.Nat
import Polyvisor.Apps.Selection
import Polyvisor.Lib.Transition

/-!
# What the Markdown editor publishes

Runs of `input`, `capture_selection` and `merge_snapshot` on one document, in any order, calls that
fail included. A batch is what an `input` returned. `input` commits its edit before it looks at the
selection, and takes its batch from the heads at the start of the same call: the change of an
`input` that fails at the selection is in no batch, neither its own nor a later one.

The editor does not look into changes. `Automerge.History` names what a document holds of them and
which depend on which; `Authors` is what the results take from Automerge about it.

## Main results

* `input_cases`: what an edit leaves behind, for a selection that is accepted and for one that is
  not.
* `published_of_accepted`: a run publishes every change and fails without touching the text if each
  of its calls is `Accepted`, and only if its edits are.
* `refused_selection_loses_the_change`: an edit whose selection splits a surrogate pair.
-/

open Transition Splice

namespace Polyvisor.Markdown

variable {A : Automerge}

/-! ## Changes -/

/-- The changes of a document, and which of two changes depends on the other. -/
structure Automerge.History (A : Automerge) where
  /-- `get_changes(&[])`. -/
  changes : A.Doc → List Bytes
  DependsOn : Bytes → Bytes → Prop
  /-- A change that the second document has and the first one lacks edits the text of an object. -/
  Edits : A.Doc → A.Doc → A.ObjId → Prop

/-- What is taken from Automerge. A document has no changes since its own heads. A transaction that
replaces nothing makes no change; any other makes one, new to the document and depending on what it
holds, and that is what has come since the heads before. A merge drops nothing, and leaves alone the
text of an object that no change of the other document edits. -/
structure Automerge.Authors (A : Automerge) (H : A.History) : Prop where
  self : ∀ doc, A.getChanges doc (A.getHeads doc) = []
  nothing : ∀ {doc body start doc'}, A.spliceText doc body start 0 [] = .ok doc' →
    A.getChanges doc' (A.getHeads doc) = [] ∧ H.changes doc' = H.changes doc
  something : ∀ {doc body start deleted inserted doc'}, 0 < deleted ∨ inserted ≠ [] →
    A.spliceText doc body start deleted inserted = .ok doc' →
    ∃ change, A.getChanges doc' (A.getHeads doc) = [change] ∧ change ∉ H.changes doc ∧
      (∀ old ∈ H.changes doc, ¬ H.DependsOn old change) ∧
      H.changes doc' = H.changes doc ++ [change]
  merge : ∀ {doc remote change}, change ∈ H.changes doc →
    change ∈ H.changes (A.merge doc remote).1
  unedited : ∀ {doc remote body}, ¬ H.Edits doc remote body →
    A.characters (A.merge doc remote).1 body = A.characters doc body

/-! ## Runs -/

/-- A call of the document. -/
inductive Call where
  | input (state : TextControlState)
  | captureSelection (state : TextControlState)
  | mergeSnapshot (bytes : Bytes)

/-- The document with what has become of its changes. -/
structure Editing (A : Automerge) where
  document : MarkdownDocument A
  /-- The changes its transactions have made. -/
  authored : List Bytes := []
  /-- The batches that `input` has returned, one behind the other. -/
  published : List Bytes := []
  /-- No call that failed has changed the text. -/
  textKept : Bool := true

namespace Editing

def init (A : Automerge) (actor : Bytes) : Editing A :=
  { document := .new A actor }

/-- The text after a call that returned `result`. -/
def keeps {α : Type} (s : Editing A) (document : MarkdownDocument A) (result : Except String α) :
    Bool :=
  s.textKept && (result.isOk || decide (document.text = s.document.text))

def step (s : Editing A) : Call → Editing A
  | .input state =>
    let (document, result) := s.document.input state
    { document := document
      authored := s.authored ++ A.getChanges document.doc (A.getHeads s.document.doc)
      published := s.published ++ result.toOption.getD []
      textKept := s.keeps document result }
  | .captureSelection state =>
    let (document, result) := s.document.captureSelection state
    { s with document := document, textKept := s.keeps document result }
  | .mergeSnapshot bytes =>
    let (document, result) := s.document.mergeSnapshot bytes
    { s with document := document, textKept := s.keeps document result }

/-- Every change that the document has authored is in the batches exactly once, none in front of one
it depends on, and no call that failed has changed the text. -/
structure Published (H : A.History) (s : Editing A) : Prop where
  once : ∀ change ∈ s.authored, s.published.count change = 1
  causal : s.published.Pairwise fun first second => ¬ H.DependsOn first second
  textKept : s.textKept

end Editing

/-- The merge of a snapshot leaves a text at the body, or it edits nothing in this one's. -/
def MarkdownDocument.KeepsBody (H : A.History) (d : MarkdownDocument A) (bytes : Bytes) : Prop :=
  ∀ remote found, A.load bytes = .ok remote → A.getBody remote = .ok found →
    (A.merge d.doc remote).2 = .ok () ∧
        (∃ body, A.getBody (A.merge d.doc remote).1 = .ok (some (some body))) ∨
      ¬ H.Edits d.doc remote d.body

namespace Editing

/-- An edit comes with a selection between characters of its text. -/
def Bounded (s : Editing A) : Call → Prop
  | .input state => ∀ old, A.text s.document.doc s.document.body = .ok old → old ≠ state.value →
      OnBoundary state.value state.selectionStart ∧ OnBoundary state.value state.selectionEnd
  | _ => True

/-- And a snapshot leaves a text to edit, or the text alone. -/
def Accepted (H : A.History) (s : Editing A) : Call → Prop
  | .mergeSnapshot bytes => bytes = [] ∨ s.document.KeepsBody H bytes
  | call => s.Bounded call

end Editing

/-- What a snapshot that fails to merge must leave for the text to be the same. -/
def MarkdownDocument.Spares (d : MarkdownDocument A) (bytes : Bytes) : Prop :=
  ∀ remote found, A.load bytes = .ok remote → A.getBody remote = .ok found →
    (A.merge d.doc remote).2 = .ok () ∧
        (∃ body, A.getBody (A.merge d.doc remote).1 = .ok (some (some body))) ∨
      ({ d with doc := (A.merge d.doc remote).1 } : MarkdownDocument A).text = d.text

/-- A call that does no harm, whatever it returns. -/
def Editing.Harmless (s : Editing A) : Call → Prop
  | .mergeSnapshot bytes => bytes = [] ∨ s.document.Spares bytes
  | call => s.Bounded call

/-! ## One call -/

theorem text_of_eq_ok {d : MarkdownDocument A} {value : List Char}
    (h : A.text d.doc d.body = .ok value) : d.text = value := by
  obtain ⟨chars, hchars, rfl⟩ := text_eq_ok.1 h
  rw [MarkdownDocument.text, MarkdownDocument.characters, hchars]
  rfl

/-- A text differs from itself in nothing. -/
theorem scalarDiff_self (value : List Char) :
    ∃ start, scalarDiff value value = (start, 0, []) := by
  rcases hdiff : scalarDiff value value with ⟨start, deleted, inserted⟩
  obtain ⟨suffix, hold, hnew, hkept⟩ := kept_parts value value hdiff
  have hstart := hkept.longest_front value.length le_rfl le_rfl rfl
  have hnil : inserted = [] := List.length_eq_zero_iff.1 (by omega)
  exact ⟨start, by rw [hnil, show deleted = 0 by omega]⟩

/-- Where two texts differ something is replaced. -/
theorem replaced_of_ne {old new : List Char} (hne : old ≠ new) {start deleted : ℕ}
    {inserted : List Char} (hdiff : scalarDiff old new = (start, deleted, inserted)) :
    0 < deleted ∨ inserted ≠ [] := by
  by_contra hnothing
  obtain ⟨hdeleted, hinserted⟩ := not_or.1 hnothing
  obtain ⟨hstart, -, suffix, hsuffix, hd, hi⟩ := scalarDiff_eq old new hdiff
  have hspliced := splice_shared old new hstart hsuffix
  rw [← hd, ← hi, not_not.1 hinserted, Nat.eq_zero_of_not_pos hdeleted, splice, List.append_nil,
    Nat.add_zero, List.take_append_drop] at hspliced
  exact hne hspliced

/-- The transaction of an edit goes through and leaves the text that the control has. -/
theorem spliceText_ok (hA : A.Lawful) {d : MarkdownDocument A} {old value : List Char}
    (hold : A.text d.doc d.body = .ok old) {start deleted : ℕ} {inserted : List Char}
    (hdiff : scalarDiff old value = (start, deleted, inserted)) :
    ∃ doc, A.spliceText d.doc d.body start deleted inserted = .ok doc ∧
      A.text doc d.body = .ok value := by
  obtain ⟨chars, hchars, rfl⟩ := text_eq_ok.1 hold
  obtain ⟨suffix, hlength, -, -⟩ := kept_parts _ _ hdiff
  rw [List.length_map] at hlength
  obtain ⟨doc, new, hspliced, hafter, hvalue, -⟩ :=
    hA.splice start deleted inserted hchars (by omega)
  refine ⟨doc, hspliced, text_eq_ok.2 ⟨_, hafter, ?_⟩⟩
  obtain ⟨hstart, -, suffix', hsuffix, hd, hi⟩ := scalarDiff_eq _ _ hdiff
  have hnew := splice_shared _ _ hstart hsuffix
  rw [← hd, ← hi] at hnew
  rw [← hnew, ← hvalue]
  simp [splice, List.map_take, List.map_drop]

/-- What an edit leaves behind where the text can be read: the control's text, whether or not the
selection is accepted, and a batch if it is. -/
structure Edited (d : MarkdownDocument A) (state : TextControlState) (H : A.History)
    (old : List Char) (doc : A.Doc) : Prop where
  text : A.text doc d.body = .ok state.value
  same : old = state.value →
    A.getChanges doc (A.getHeads d.doc) = [] ∧ H.changes doc = H.changes d.doc
  change : old ≠ state.value → ∃ change, A.getChanges doc (A.getHeads d.doc) = [change] ∧
    change ∉ H.changes d.doc ∧ (∀ old ∈ H.changes d.doc, ¬ H.DependsOn old change) ∧
    H.changes doc = H.changes d.doc ++ [change]
  accepted : OnBoundary state.value state.selectionStart ∧
      OnBoundary state.value state.selectionEnd →
    ∃ selection, d.input state =
      ({ d with doc := doc, selection := selection }, .ok (A.getChanges doc (A.getHeads d.doc)))
  refused : ¬ (OnBoundary state.value state.selectionStart ∧
      OnBoundary state.value state.selectionEnd) →
    ∃ message, d.input state = ({ d with doc := doc }, .error message)

theorem input_cases (hA : A.Lawful) (hanchored : A.Anchored) {H : A.History} (hH : A.Authors H)
    (d : MarkdownDocument A) (state : TextControlState) :
    (∃ message message', A.text d.doc d.body = .error message ∧
      d.input state = (d, .error message')) ∨
    ∃ old doc, A.text d.doc d.body = .ok old ∧ Edited d state H old doc := by
  rcases hread : A.text d.doc d.body with message | old
  · exact .inl ⟨message, message, rfl, by rw [MarkdownDocument.input, hread]⟩
  refine .inr ⟨old, ?_⟩
  rcases hdiff : scalarDiff old state.value with ⟨start, deleted, inserted⟩
  obtain ⟨doc, hspliced, htext⟩ := spliceText_ok hA hread hdiff
  have hinput : d.input state =
      ((MarkdownDocument.captureSelection { d with doc := doc } state).1,
        (MarkdownDocument.captureSelection { d with doc := doc } state).2.map fun _ =>
          A.getChanges (MarkdownDocument.captureSelection { d with doc := doc } state).1.doc
            (A.getHeads d.doc)) := by
    unfold MarkdownDocument.input
    simp only [hread, hdiff, hspliced]
  refine ⟨doc, rfl, htext, ?_, ?_, ?_, ?_⟩
  · rintro rfl
    obtain ⟨start', hself⟩ := scalarDiff_self state.value
    rw [hself, Prod.mk.injEq, Prod.mk.injEq] at hdiff
    obtain ⟨rfl, rfl, rfl⟩ := hdiff
    exact hH.nothing hspliced
  · intro hne
    exact hH.something (replaced_of_ne hne hdiff) hspliced
  · rintro ⟨hstart, hend⟩
    obtain ⟨selection, hcaptured⟩ := selection_captured hanchored { d with doc := doc } state htext
      hstart hend
    exact ⟨selection, by rw [hinput, hcaptured]; rfl⟩
  · intro hrefused
    obtain ⟨message, hmessage⟩ := selection_refused { d with doc := doc } state htext hrefused
    exact ⟨message, by rw [hinput, hmessage]; rfl⟩

namespace Editing

/-! ## Runs -/

/-- What holds after any calls: the authored changes are different, none in front of one it depends
on, all in the document, and what is published is a part of them. -/
structure Traced (H : A.History) (s : Editing A) : Prop where
  nodup : s.authored.Nodup
  causal : s.authored.Pairwise fun first second => ¬ H.DependsOn first second
  known : ∀ change ∈ s.authored, change ∈ H.changes s.document.doc
  part : s.published.Sublist s.authored

/-- Every change is published exactly once iff no other list than the authored one is. -/
theorem published_iff {H : A.History} {s : Editing A} (h : Traced H s) :
    Published H s ↔ s.published = s.authored ∧ s.textKept := by
  constructor
  · intro hp
    refine ⟨h.part.eq_of_length_le ?_, hp.textKept⟩
    apply List.Subperm.length_le
    apply List.subperm_of_subset h.nodup
    intro change hchange
    have honce := hp.once change hchange
    exact List.count_pos_iff.1 (by omega)
  · rintro ⟨heq, hkept⟩
    constructor
    · intro change hchange
      rw [heq]
      exact List.count_eq_one_of_mem h.nodup hchange
    · rw [heq]
      exact h.causal
    · exact hkept

theorem keeps_iff {α : Type} {s : Editing A} (hkept : s.textKept) (document : MarkdownDocument A)
    (result : Except String α) :
    s.keeps document result ↔ result.isOk ∨ document.text = s.document.text := by
  rw [keeps, hkept, Bool.true_and, Bool.or_eq_true, decide_eq_true_iff]

/-- A new change behind those there are. -/
theorem Traced.author {H : A.History} {s : Editing A} (h : Traced H s) {change : Bytes}
    (hnew : change ∉ H.changes s.document.doc)
    (hcausal : ∀ old ∈ H.changes s.document.doc, ¬ H.DependsOn old change)
    {document : MarkdownDocument A}
    (hdoc : H.changes document.doc = H.changes s.document.doc ++ [change]) {published : List Bytes}
    (hpublished : published = s.published ∨ published = s.published ++ [change])
    (textKept : Bool) : Traced H ⟨document, s.authored ++ [change], published, textKept⟩ := by
  constructor
  · apply List.nodup_append.2
    refine ⟨h.nodup, List.nodup_singleton change, fun a ha b hb => ?_⟩
    rw [List.mem_singleton.1 hb]
    rintro rfl
    exact hnew (h.known a ha)
  · apply List.pairwise_append.2
    refine ⟨h.causal, List.pairwise_singleton _ _, fun a ha b hb => ?_⟩
    rw [List.mem_singleton.1 hb]
    exact hcausal a (h.known a ha)
  · intro a ha
    show a ∈ H.changes document.doc
    rw [hdoc]
    rcases List.mem_append.1 ha with ha | ha
    · exact List.mem_append_left _ (h.known a ha)
    · exact List.mem_append_right _ ha
  · rcases hpublished with rfl | rfl
    · exact h.part.trans (List.sublist_append_left _ _)
    · exact h.part.append (List.Sublist.refl _)

/-- A call that makes no change. -/
theorem Traced.of_same {H : A.History} {s : Editing A} (h : Traced H s)
    {document : MarkdownDocument A}
    (hdoc : ∀ change ∈ H.changes s.document.doc, change ∈ H.changes document.doc)
    (textKept : Bool) : Traced H ⟨document, s.authored, s.published, textKept⟩ :=
  ⟨h.nodup, h.causal, fun change hchange => hdoc change (h.known change hchange), h.part⟩

theorem step_of_input {s : Editing A} {state : TextControlState} {document : MarkdownDocument A}
    {result : Except String (List Bytes)} (h : s.document.input state = (document, result)) :
    s.step (.input state) =
      ⟨document, s.authored ++ A.getChanges document.doc (A.getHeads s.document.doc),
        s.published ++ result.toOption.getD [], s.keeps document result⟩ := by
  simp only [step, h]

variable {H : A.History}

/-- One edit: what was authored so far stays traced, and it is published and harmless iff the edit
is accepted. -/
theorem step_input (hA : A.Lawful) (hanchored : A.Anchored) (hH : A.Authors H) {s : Editing A}
    (h : Traced H s) (state : TextControlState) :
    Traced H (s.step (.input state)) ∧ (s.published = s.authored ∧ s.textKept →
      ((s.step (.input state)).published = (s.step (.input state)).authored ∧
        (s.step (.input state)).textKept ↔ s.Harmless (.input state))) := by
  rcases input_cases hA hanchored hH s.document state with
    ⟨message, message', hread, hinput⟩ | ⟨old, doc, hread, hedited⟩
  · -- There is no text to edit, and the document is as it was.
    rw [step_of_input hinput, hH.self, List.append_nil]
    refine ⟨?_, fun hp => ?_⟩
    · rw [show (Except.error message' : Except String (List Bytes)).toOption.getD [] = [] from rfl,
        List.append_nil]
      exact h.of_same (fun _ hchange => hchange) _
    · refine iff_of_true ⟨?_, (keeps_iff hp.2 _ _).2 (.inr rfl)⟩ fun old hold => ?_
      · show s.published ++ [] = s.authored
        rw [List.append_nil, hp.1]
      · exact nomatch hread.symm.trans hold
  have htext : s.document.text = old := text_of_eq_ok hread
  have haccepted : s.Harmless (.input state) ↔ (old ≠ state.value →
      OnBoundary state.value state.selectionStart ∧
        OnBoundary state.value state.selectionEnd) := by
    constructor
    · exact fun haccepted => haccepted old hread
    · intro haccepted found hfound
      rw [Except.ok.inj (hfound.symm.trans hread)]
      exact haccepted
  rw [haccepted]
  by_cases hselection : OnBoundary state.value state.selectionStart ∧
      OnBoundary state.value state.selectionEnd
  · -- The edit returns what it has authored.
    obtain ⟨selection, hinput⟩ := hedited.accepted hselection
    rw [step_of_input hinput]
    refine ⟨?_, fun hp => iff_of_true ⟨?_, (keeps_iff hp.2 _ _).2 (.inl rfl)⟩ fun _ => hselection⟩
    · by_cases hsame : old = state.value
      · obtain ⟨hnone, hchanges⟩ := hedited.same hsame
        show Traced H ⟨_, s.authored ++ A.getChanges doc _, s.published ++ A.getChanges doc _, _⟩
        rw [hnone, List.append_nil, List.append_nil]
        exact h.of_same (fun _ hchange => hchanges ▸ hchange) _
      · obtain ⟨change, hone, hnew, hcausal, hchanges⟩ := hedited.change hsame
        show Traced H ⟨_, s.authored ++ A.getChanges doc _, s.published ++ A.getChanges doc _, _⟩
        rw [hone]
        exact h.author hnew hcausal hchanges (.inr rfl) _
    · show s.published ++ A.getChanges doc _ = s.authored ++ A.getChanges doc _
      rw [hp.1]
  · -- The edit stays in the document and returns nothing.
    obtain ⟨message, hinput⟩ := hedited.refused hselection
    rw [step_of_input hinput]
    have hafter : MarkdownDocument.text { s.document with doc := doc } = state.value :=
      text_of_eq_ok hedited.text
    by_cases hsame : old = state.value
    · obtain ⟨hnone, hchanges⟩ := hedited.same hsame
      refine ⟨?_, fun hp => iff_of_true ⟨?_, (keeps_iff hp.2 _ _).2 (.inr ?_)⟩
        fun hne => absurd hsame hne⟩
      · show Traced H ⟨_, s.authored ++ A.getChanges doc _, s.published ++ [], _⟩
        rw [hnone, List.append_nil, List.append_nil]
        exact h.of_same (fun _ hchange => hchanges ▸ hchange) _
      · show s.published ++ [] = s.authored ++ A.getChanges doc _
        rw [hnone, hp.1]
      · rw [hafter, htext, hsame]
    · obtain ⟨change, hone, hnew, hcausal, hchanges⟩ := hedited.change hsame
      refine ⟨?_, fun hp => iff_of_false ?_ fun haccepted => hselection (haccepted hsame)⟩
      · show Traced H ⟨_, s.authored ++ A.getChanges doc _, s.published ++ [], _⟩
        rw [hone, List.append_nil]
        exact h.author hnew hcausal hchanges (.inl rfl) _
      · rintro ⟨-, hkept⟩
        rcases (keeps_iff hp.2 _ _).1 hkept with hok | hsametext
        · exact Bool.noConfusion hok
        · exact hsame (htext.symm.trans (hsametext.symm.trans hafter))

theorem step_captureSelection {s : Editing A} (h : Traced H s) (state : TextControlState) :
    Traced H (s.step (.captureSelection state)) ∧ (s.published = s.authored ∧ s.textKept →
      (s.step (.captureSelection state)).published = (s.step (.captureSelection state)).authored ∧
        (s.step (.captureSelection state)).textKept) := by
  rcases hcaptured : s.document.captureSelection state with ⟨document, result⟩
  have hfst : (s.document.captureSelection state).1 = document := by rw [hcaptured]
  have hdoc : document.doc = s.document.doc := by
    rw [← hfst]
    unfold MarkdownDocument.captureSelection
    split <;> rfl
  have htext : document.text = s.document.text := by
    rw [← hfst, MarkdownDocument.text, MarkdownDocument.characters_captureSelection]
    rfl
  have hstep : s.step (.captureSelection state) =
      ⟨document, s.authored, s.published, s.keeps document result⟩ := by
    simp only [step, hcaptured]
  rw [hstep]
  refine ⟨h.of_same (fun _ hchange => hdoc ▸ hchange) _, fun hp => ⟨hp.1, ?_⟩⟩
  exact (keeps_iff hp.2 _ _).2 (.inr htext)

/-- What a snapshot leaves behind: an error leaves the text alone iff the snapshot keeps the body,
and the changes are still there. -/
theorem mergeSnapshot_spec (hH : A.Authors H) (d : MarkdownDocument A) (bytes : Bytes) :
    ((d.mergeSnapshot bytes).2.isOk ∨ (d.mergeSnapshot bytes).1.text = d.text ↔
      bytes = [] ∨ d.Spares bytes) ∧
    ∀ change ∈ H.changes d.doc, change ∈ H.changes (d.mergeSnapshot bytes).1.doc := by
  by_cases hempty : bytes = []
  · have hmerged : d.mergeSnapshot bytes = (d, .ok false) := if_pos hempty
    rw [hmerged]
    exact ⟨iff_of_true (.inl rfl) (.inl hempty), fun _ hchange => hchange⟩
  simp only [hempty, false_or]
  rcases hload : A.load bytes with message | remote
  · have hmerged : d.mergeSnapshot bytes = (d, .error message) := by
      simp only [MarkdownDocument.mergeSnapshot, hempty, if_false, hload]
    rw [hmerged]
    exact ⟨iff_of_true (.inr rfl) fun remote found hremote =>
      (nomatch hload.symm.trans hremote), fun _ hchange => hchange⟩
  rcases hfound : A.getBody remote with message | found
  · have hmerged : d.mergeSnapshot bytes = (d, .error message) := by
      simp only [MarkdownDocument.mergeSnapshot, hempty, if_false, hload, hfound]
    rw [hmerged]
    refine ⟨iff_of_true (.inr rfl) fun remote' found' hremote hfound' => ?_,
      fun _ hchange => hchange⟩
    rw [Except.ok.inj (hload.symm.trans hremote)] at hfound
    exact nomatch hfound.symm.trans hfound'
  -- The document takes the snapshot's changes whatever comes of its body.
  have hkeeps : d.Spares bytes ↔ ((A.merge d.doc remote).2 = .ok () ∧
      ∃ body, A.getBody (A.merge d.doc remote).1 = .ok (some (some body))) ∨
      ({ d with doc := (A.merge d.doc remote).1 } : MarkdownDocument A).text = d.text := by
    constructor
    · exact fun hkeeps => hkeeps remote found hload hfound
    · intro hcase remote' found' hremote hfound'
      rw [← Except.ok.inj (hload.symm.trans hremote)]
      exact hcase
  rw [hkeeps]
  have hknown : ∀ change ∈ H.changes d.doc, change ∈ H.changes (A.merge d.doc remote).1 :=
    fun _ hchange => hH.merge hchange
  rcases hmerge : A.merge d.doc remote with ⟨doc, message | ⟨⟨⟩⟩⟩
  · rw [hmerge] at hknown
    have hmerged : d.mergeSnapshot bytes = ({ d with doc := doc }, .error message) := by
      simp only [MarkdownDocument.mergeSnapshot, hempty, if_false, hload, hfound, hmerge]
    rw [hmerged]
    refine ⟨?_, hknown⟩
    simp [Except.isOk, Except.toBool]
  · rw [hmerge] at hknown
    rcases hbody : A.getBody doc with message | ⟨- | ⟨- | body⟩⟩
    · have hmerged : d.mergeSnapshot bytes = ({ d with doc := doc }, .error message) := by
        simp only [MarkdownDocument.mergeSnapshot, hempty, if_false, hload, hfound, hmerge, hbody]
      rw [hmerged]
      refine ⟨?_, hknown⟩
      simp [Except.isOk, Except.toBool]
    · have hmerged : d.mergeSnapshot bytes =
          ({ d with doc := doc }, .error "Markdown body is missing after history merge") := by
        simp only [MarkdownDocument.mergeSnapshot, hempty, if_false, hload, hfound, hmerge, hbody]
      rw [hmerged]
      refine ⟨?_, hknown⟩
      simp [Except.isOk, Except.toBool]
    · have hmerged : d.mergeSnapshot bytes =
          ({ d with doc := doc }, .error "Markdown body is missing after history merge") := by
        simp only [MarkdownDocument.mergeSnapshot, hempty, if_false, hload, hfound, hmerge, hbody]
      rw [hmerged]
      refine ⟨?_, hknown⟩
      simp [Except.isOk, Except.toBool]
    · have hmerged : d.mergeSnapshot bytes =
          ({ d with doc := doc, body := body }, .ok found.join.isSome) := by
        simp only [MarkdownDocument.mergeSnapshot, hempty, if_false, hload, hfound, hmerge, hbody]
      rw [hmerged]
      exact ⟨iff_of_true (.inl rfl) (.inl ⟨rfl, body, rfl⟩), hknown⟩

theorem step_mergeSnapshot (hH : A.Authors H) {s : Editing A} (h : Traced H s) (bytes : Bytes) :
    Traced H (s.step (.mergeSnapshot bytes)) ∧ (s.published = s.authored ∧ s.textKept →
      ((s.step (.mergeSnapshot bytes)).published = (s.step (.mergeSnapshot bytes)).authored ∧
        (s.step (.mergeSnapshot bytes)).textKept ↔ s.Harmless (.mergeSnapshot bytes))) := by
  obtain ⟨hharmless, hknown⟩ := mergeSnapshot_spec hH s.document bytes
  have hstep : s.step (.mergeSnapshot bytes) =
      ⟨(s.document.mergeSnapshot bytes).1, s.authored, s.published,
        s.keeps (s.document.mergeSnapshot bytes).1 (s.document.mergeSnapshot bytes).2⟩ := rfl
  rw [hstep]
  refine ⟨h.of_same hknown _, fun hp => ?_⟩
  show (s.published = s.authored ∧ s.keeps _ _ = true) ↔ _
  rw [keeps_iff hp.2, hharmless]
  exact and_iff_right hp.1

/-- One call. -/
theorem step_spec (hA : A.Lawful) (hanchored : A.Anchored) (hH : A.Authors H) {s : Editing A}
    (h : Traced H s) (call : Call) :
    Traced H (s.step call) ∧ (Published H s → (Published H (s.step call) ↔ s.Harmless call)) := by
  have hstep : Traced H (s.step call) ∧ (s.published = s.authored ∧ s.textKept →
      ((s.step call).published = (s.step call).authored ∧ (s.step call).textKept ↔
        s.Harmless call)) := by
    rcases call with state | state | bytes
    · exact step_input hA hanchored hH h state
    · obtain ⟨htraced, hkept⟩ := step_captureSelection h state
      exact ⟨htraced, fun hp => iff_of_true (hkept hp) trivial⟩
    · exact step_mergeSnapshot hH h bytes
  refine ⟨hstep.1, fun hp => ?_⟩
  rw [published_iff hstep.1]
  exact hstep.2 ((published_iff h).1 hp)

/-- Nothing is authored before the first call. -/
theorem traced_init (actor : Bytes) : Traced H (init A actor) :=
  ⟨List.nodup_nil, List.Pairwise.nil, fun _ hchange => (nomatch hchange), List.nil_sublist _⟩

theorem published_init (actor : Bytes) : Published H (init A actor) :=
  ⟨fun _ hchange => (nomatch hchange), List.Pairwise.nil, rfl⟩

end Editing

namespace Editing

variable {H : A.History}

theorem published_iff_harmless (hA : A.Lawful) (hanchored : A.Anchored) (hH : A.Authors H)
    (actor : Bytes) (calls : List Call) :
    Throughout step (Published H) (init A actor) calls ↔
      Meets step Harmless (init A actor) calls := by
  have hstep : ∀ s call, Traced H s → Traced H (s.step call) ∧
      (Published H s → (Published H (s.step call) ↔ s.Harmless call)) :=
    fun _ call h => step_spec hA hanchored hH h call
  exact throughout_iff_meets (fun s call h => (hstep s call h).1)
    (fun s call h => (hstep s call h).2) calls (traced_init actor) (published_init actor)

theorem harmless_of_accepted (hH : A.Authors H) {s : Editing A} {call : Call}
    (h : s.Accepted H call) : s.Harmless call := by
  rcases call with state | state | bytes
  · exact h
  · exact h
  · refine h.imp_right fun hkeeps remote found hload hfound => ?_
    refine (hkeeps remote found hload hfound).imp_right fun hunedited => ?_
    rw [MarkdownDocument.text, MarkdownDocument.characters, hH.unedited hunedited]
    rfl

theorem bounded_of_harmless {s : Editing A} {call : Call} (h : s.Harmless call) :
    s.Bounded call := by
  rcases call with state | state | bytes
  · exact h
  · exact h
  · trivial

end Editing

open Editing in
/-- A run keeps every change in exactly one batch, behind what it depends on, and no failing call
touches the text, as long as each call finds its edit's selection between characters and its
snapshot's body in place. No run does otherwise as far as its edits are concerned. -/
theorem published_of_accepted (hA : A.Lawful) (hanchored : A.Anchored) {H : A.History}
    (hH : A.Authors H) (actor : Bytes) (calls : List Call) :
    (Meets step (Accepted H) (init A actor) calls →
        Throughout step (Published H) (init A actor) calls) ∧
      (Throughout step (Published H) (init A actor) calls →
        Meets step Bounded (init A actor) calls) := by
  rw [published_iff_harmless hA hanchored hH]
  have hany : ∀ (P : Editing A → Call → Prop) s call, P s call → True → True :=
    fun _ _ _ _ _ => trivial
  exact ⟨fun h => meets_of_meets (hany _) (fun _ _ _ => harmless_of_accepted hH) h trivial,
    fun h => meets_of_meets (hany _) (fun _ _ _ => bounded_of_harmless) h trivial⟩

/-! ## A replica that keeps its changes -/

/-- A replica with its changes. -/
structure Ledger where
  replica : Replica
  log : List Bytes

/-- The changes of a log are told apart by their lengths, and each depends on the shorter ones. -/
def nextChange (log : List Bytes) : Bytes :=
  List.replicate ((log.map List.length).sum + 1) 0

theorem length_lt_nextChange {log : List Bytes} {change : Bytes} (h : change ∈ log) :
    change.length < (nextChange log).length := by
  rw [nextChange, List.length_replicate]
  exact Nat.lt_succ_of_le (List.le_sum_of_mem (List.mem_map_of_mem h))

/-- A transaction that replaces nothing makes no change. -/
def ledger : Automerge where
  Doc := Ledger
  ObjId := Unit
  Cursor := ℕ
  Heads := ℕ
  OpId := Bytes × ℕ
  new actor := ⟨replica.new actor, []⟩
  setActor l actor := { l with replica := replica.setActor l.replica actor }
  putBody l := (⟨(replica.putBody l.replica).1, l.log ++ [nextChange l.log]⟩, ())
  getBody l := replica.getBody l.replica
  getHeads l := l.log.length
  getChanges l heads := l.log.drop heads
  load bytes := (replica.load bytes).map fun r => ⟨r, [bytes]⟩
  merge l other :=
    (⟨l.replica.merge other.replica, l.log ++ other.log.filter (· ∉ l.log)⟩, .ok ())
  characters l body := replica.characters l.replica body
  spliceText l _ start deleted chars := (l.replica.spliceText start deleted chars).map fun r =>
    ⟨r, if deleted = 0 ∧ chars = [] then l.log else l.log ++ [nextChange l.log]⟩
  cursorStart := replica.cursorStart
  getCursor l := replica.getCursor l.replica
  getCursorMoving l := replica.getCursorMoving l.replica
  getCursorPosition l := replica.getCursorPosition l.replica

def ledgerHistory : ledger.History where
  changes l := Ledger.log l
  DependsOn change dependency := dependency.length < change.length
  Edits l other _ := ¬ (Ledger.replica other).chars.map Prod.fst ⊆
    (Ledger.replica l).chars.map Prod.fst

theorem ledger_lawful : ledger.Lawful where
  nodup {l _ _} h := @Automerge.Lawful.nodup replica replica_lawful (Ledger.replica l) () _ h
  splice {l _ chars} start deleted inserted h hbound := by
    obtain ⟨doc, new, hspliced, hafter, hvalue, hfresh⟩ :=
      @Automerge.Lawful.splice replica replica_lawful (Ledger.replica l) () chars start deleted
        inserted h hbound
    refine ⟨⟨doc, if deleted = 0 ∧ inserted = [] then Ledger.log l else
      Ledger.log l ++ [nextChange (Ledger.log l)]⟩, new, ?_, hafter, hvalue, hfresh⟩
    exact congrArg (Except.map _) hspliced

theorem ledger_anchored : ledger.Anchored where
  start {l _ chars} h :=
    @Automerge.Anchored.start replica replica_anchored (Ledger.replica l) () chars h
  «end» {l _ chars} h :=
    @Automerge.Anchored.«end» replica replica_anchored (Ledger.replica l) () chars h
  moving {l _ chars} position movement h :=
    @Automerge.Anchored.moving replica replica_anchored (Ledger.replica l) () chars position
      movement h

theorem map_eq_ok {α β : Type} {f : α → β} {result : Except String α} {b : β}
    (h : result.map f = .ok b) : ∃ a, result = .ok a ∧ f a = b := by
  rcases result with message | a
  · exact nomatch h
  · exact ⟨a, rfl, Except.ok.inj h⟩

theorem ledger_authors : ledger.Authors ledgerHistory where
  self l := List.drop_length
  nothing {l _ start l'} h := by
    obtain ⟨r, -, rfl⟩ := map_eq_ok h
    exact ⟨List.drop_length, rfl⟩
  something {l _ start deleted inserted l'} hreplaced h := by
    obtain ⟨r, -, rfl⟩ := map_eq_ok h
    have hlog : (if deleted = 0 ∧ inserted = [] then Ledger.log l else
        Ledger.log l ++ [nextChange (Ledger.log l)]) =
          Ledger.log l ++ [nextChange (Ledger.log l)] := by
      refine if_neg fun hnothing => ?_
      rcases hreplaced with hdeleted | hinserted
      · omega
      · exact hinserted hnothing.2
    refine ⟨nextChange (Ledger.log l), ?_, fun hold => ?_, fun old hold hdepends => ?_, hlog⟩
    · show List.drop _ (ite _ _ _) = _
      rw [hlog]
      exact List.drop_left
    · exact absurd (length_lt_nextChange hold) (lt_irrefl _)
    · exact lt_asymm (length_lt_nextChange hold) hdepends
  merge h := List.mem_append_left _ h
  unedited {l other _} hunedited := by
    have hsubset := not_not.1 hunedited
    have hnone : (Ledger.replica other).chars.filter
        (·.1 ∉ (Ledger.replica l).chars.map Prod.fst) = [] := by
      rw [List.filter_eq_nil_iff]
      intro char hchar
      simpa using hsubset (List.mem_map_of_mem hchar)
    refine congrArg Except.ok ?_
    exact (congrArg ((Ledger.replica l).chars ++ ·) hnone).trans (List.append_nil _)

open Editing in
/-- A selection inside a surrogate pair is refused without harm, and a snapshot and an edit around
it are accepted. -/
theorem published_around_refused_selection :
    Throughout step (Published ledgerHistory) (init ledger [7])
      [.input ⟨['🦊', 'a'], 2, 3, .backward, false⟩,
        .captureSelection ⟨['🦊', 'a'], 1, 3, .none, false⟩, .mergeSnapshot [120],
        .input ⟨['b'], 1, 1, .none, false⟩] := by
  refine (published_of_accepted ledger_lawful ledger_anchored ledger_authors [7] _).1
    ⟨fun _ _ _ => ⟨⟨1, by decide, by decide⟩, ⟨2, by decide, by decide⟩⟩, trivial, .inr ?_,
      fun _ _ _ => ⟨⟨1, by decide, by decide⟩, ⟨1, by decide, by decide⟩⟩, trivial⟩
  intro remote found hload _
  obtain rfl := Except.ok.inj hload
  exact .inl ⟨rfl, (), rfl⟩

open Editing in
/-- The edit whose selection splits a surrogate pair has changed the text when it fails, and its
change is in no batch, not in that of the next edit either. -/
theorem refused_selection_loses_the_change :
    let s := run step (init ledger [7])
      [.input ⟨['🦊'], 1, 1, .none, false⟩, .input ⟨['🦊', 'a'], 3, 3, .none, false⟩]
    s.authored = [[0, 0], [0, 0, 0, 0]] ∧ s.published = [[0, 0, 0, 0]] ∧ s.textKept = false ∧
      ¬ Published ledgerHistory s := by
  intro s
  have hauthored : s.authored = [[0, 0], [0, 0, 0, 0]] := by decide
  have hpublished : s.published = [[0, 0, 0, 0]] := by decide
  refine ⟨hauthored, hpublished, by decide, fun h => ?_⟩
  have honce := h.once [0, 0] (by rw [hauthored]; decide)
  rw [hpublished] at honce
  exact absurd honce (by decide)

end Polyvisor.Markdown
