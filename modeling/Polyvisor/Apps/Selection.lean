import Polyvisor.Apps.Markdown

/-!
# Edits and selections of the Markdown editor

Three units meet in one edit: `splice_text` counts Unicode scalar values, the control's selection
counts UTF-16 units, and a slice of the new text is cut at byte offsets. `scalarDiffBytes` is
`scalar_diff` with its byte offsets; a slice that does not lie on characters panics (`none`).

## Main results

* `scalarDiffBytes_eq`: the byte offsets are those of the characters, so the slice never panics.
* `kept_parts`: what the splice keeps is what both texts begin and, after that, end with.
* `utf16ToScalar_eq_ok`: exactly the offsets between two characters are accepted.
* `positions_exact`: the splice gives the new text, and a selection comes back as it was captured.
-/

open Splice

namespace Polyvisor.Markdown

/-! ## Byte offsets -/

/-- `str::len`, in bytes. -/
def utf8Length (value : List Char) : ℕ :=
  (value.map Char.utf8Size).sum

/-- `char_indices`, behind so many bytes. -/
def charIndices (offset : ℕ) : List Char → List (ℕ × Char)
  | [] => []
  | ch :: rest => (offset, ch) :: charIndices (offset + ch.utf8Size) rest

/-- `char_indices().nth(n).map_or(value.len(), |(i, _)| i)`. -/
def byteOffset (value : List Char) (n : ℕ) : ℕ :=
  ((charIndices 0 value)[n]?).elim (utf8Length value) Prod.fst

/-- The text behind so many bytes, if a character begins there. -/
def dropBytes : ℕ → List Char → Option (List Char)
  | 0, value => some value
  | _ + 1, [] => none
  | bytes + 1, ch :: rest =>
    if ch.utf8Size ≤ bytes + 1 then dropBytes (bytes + 1 - ch.utf8Size) rest else none
termination_by _ value => value.length

/-- The first bytes of a text, if a character ends there. -/
def takeBytes : ℕ → List Char → Option (List Char)
  | 0, _ => some []
  | _ + 1, [] => none
  | bytes + 1, ch :: rest =>
    if ch.utf8Size ≤ bytes + 1 then (takeBytes (bytes + 1 - ch.utf8Size) rest).map (ch :: ·)
    else none
termination_by _ value => value.length

/-- `&value[start..stop]`, which panics unless both lie between characters, in this order. -/
def sliceBytes (value : List Char) (start stop : ℕ) : Option (List Char) :=
  if stop < start then none else (dropBytes start value).bind (takeBytes (stop - start))

/-- `scalar_diff`, with the byte offsets it cuts the new text at. -/
def scalarDiffBytes (old new : List Char) : Option (ℕ × ℕ × List Char) := do
  let shared := sharedPrefix old new
  let oldTail := old.drop shared
  let newTail := new.drop shared
  let suffix := sharedSuffix oldTail newTail
  let startByte := byteOffset new shared
  let endScalar := new.length - suffix
  let endByte := byteOffset new endScalar
  return (shared, oldTail.length - suffix, ← sliceBytes new startByte endByte)

theorem charIndices_getElem? (offset : ℕ) (value : List Char) (n : ℕ) :
    (charIndices offset value)[n]? =
      (value[n]?).map fun ch => (offset + utf8Length (value.take n), ch) := by
  induction value generalizing offset n with
  | nil => rfl
  | cons ch rest ih =>
    rcases n with _ | n
    · rfl
    · rw [charIndices, List.getElem?_cons_succ, ih, List.getElem?_cons_succ, List.take_succ_cons,
        utf8Length, utf8Length, List.map_cons, List.sum_cons, Nat.add_assoc]

/-- The offset of a character is the length of the text in front of it. -/
theorem byteOffset_eq (value : List Char) (n : ℕ) :
    byteOffset value n = utf8Length (value.take n) := by
  rw [byteOffset, charIndices_getElem?]
  rcases Nat.lt_or_ge n value.length with hlt | hge
  · rw [List.getElem?_eq_getElem hlt, Option.map_some, Option.elim_some, Nat.zero_add]
  · rw [List.getElem?_eq_none hge, Option.map_none, Option.elim_none, List.take_of_length_le hge]

theorem utf8Length_cons (ch : Char) (value : List Char) :
    utf8Length (ch :: value) = ch.utf8Size + utf8Length value := by
  rw [utf8Length, List.map_cons, List.sum_cons, ← utf8Length]

theorem utf8Length_append (front back : List Char) :
    utf8Length (front ++ back) = utf8Length front + utf8Length back := by
  rw [utf8Length, List.map_append, List.sum_append, ← utf8Length, ← utf8Length]

theorem dropBytes_append (front back : List Char) :
    dropBytes (utf8Length front) (front ++ back) = some back := by
  induction front with
  | nil =>
    rw [show utf8Length [] = 0 from rfl, dropBytes]
    rfl
  | cons ch front ih =>
    have hsize := ch.utf8Size_pos
    rw [utf8Length_cons, List.cons_append]
    generalize hbytes : ch.utf8Size + utf8Length front = bytes
    rcases bytes with _ | bytes
    · omega
    rw [dropBytes, if_pos (by omega), ← hbytes, Nat.add_sub_cancel_left, ih]

theorem takeBytes_append (front back : List Char) :
    takeBytes (utf8Length front) (front ++ back) = some front := by
  induction front with
  | nil =>
    rw [show utf8Length [] = 0 from rfl, takeBytes]
  | cons ch front ih =>
    have hsize := ch.utf8Size_pos
    rw [utf8Length_cons, List.cons_append]
    generalize hbytes : ch.utf8Size + utf8Length front = bytes
    rcases bytes with _ | bytes
    · omega
    rw [takeBytes, if_pos (by omega), ← hbytes, Nat.add_sub_cancel_left, ih, Option.map_some]

/-- A slice at the offsets of two characters is the characters between them. -/
theorem sliceBytes_byteOffset (value : List Char) {start stop : ℕ} (h : start ≤ stop) :
    sliceBytes value (byteOffset value start) (byteOffset value stop) =
      some ((value.take stop).drop start) := by
  have htake : value.take stop = value.take start ++ (value.take stop).drop start := by
    conv_lhs => rw [← List.take_append_drop start (value.take stop)]
    rw [List.take_take, Nat.min_eq_left h]
  have hvalue : value = value.take start ++ ((value.take stop).drop start ++ value.drop stop) := by
    rw [← List.append_assoc, ← htake, List.take_append_drop]
  have hlength : byteOffset value stop =
      byteOffset value start + utf8Length ((value.take stop).drop start) := by
    rw [byteOffset_eq, byteOffset_eq, ← utf8Length_append, ← htake]
  have hdrop := dropBytes_append (value.take start)
    ((value.take stop).drop start ++ value.drop stop)
  rw [← hvalue, ← byteOffset_eq] at hdrop
  rw [sliceBytes, if_neg (by omega), hdrop, Option.bind_some, hlength, Nat.add_sub_cancel_left,
    takeBytes_append]

/-- The slice never panics, and cuts out what `scalarDiff` says. -/
theorem scalarDiffBytes_eq (old new : List Char) :
    scalarDiffBytes old new = some (scalarDiff old new) := by
  have hsuffix := sharedSuffix_le_right (old.drop (sharedPrefix old new))
    (new.drop (sharedPrefix old new))
  have hshared := sharedPrefix_le_right old new
  rw [List.length_drop] at hsuffix
  rw [scalarDiffBytes]
  rw [sliceBytes_byteOffset new (by omega)]
  rfl

/-! ## What a splice keeps -/

/-- Two texts of which the same number of characters at the start, and behind it at the end, are
kept: no more could be. -/
structure KeepsMost (old new : List Char) (start suffix : ℕ) : Prop where
  front : old.take start = new.take start
  back : old.drop (old.length - suffix) = new.drop (new.length - suffix)
  apart : start + suffix ≤ old.length ∧ start + suffix ≤ new.length
  longest_front : ∀ n ≤ old.length, n ≤ new.length → old.take n = new.take n → n ≤ start
  longest_back : ∀ n, start + n ≤ old.length → start + n ≤ new.length →
    old.drop (old.length - n) = new.drop (new.length - n) → n ≤ suffix

theorem kept_parts (old new : List Char) {start deleted : ℕ} {inserted : List Char}
    (hdiff : scalarDiff old new = (start, deleted, inserted)) :
    ∃ suffix, start + deleted + suffix = old.length ∧
      start + inserted.length + suffix = new.length ∧ KeepsMost old new start suffix := by
  obtain ⟨hstart, hold, suffix, hsuffix, hdeleted, hinserted⟩ := scalarDiff_eq old new hdiff
  have hnew : start ≤ new.length := hstart ▸ sharedPrefix_le_right old new
  have hleft := sharedSuffix_le_left (old.drop start) (new.drop start)
  have hright := sharedSuffix_le_right (old.drop start) (new.drop start)
  rw [← hsuffix, List.length_drop] at hleft hright
  have hlength : inserted.length = new.length - suffix - start := by
    rw [hinserted, List.length_drop, List.length_take]
    omega
  rw [List.length_drop] at hdeleted
  refine ⟨suffix, by omega, by omega, ?_, ?_, by omega, ?_, ?_⟩
  · have hshared := take_sharedPrefix old new
    rw [← hstart] at hshared
    rw [List.prefix_iff_eq_take.1 hshared, List.length_take_of_le hold]
  · have hend := drop_sharedSuffix (old.drop start) (new.drop start)
    rw [← hsuffix] at hend
    have hdrop := List.suffix_iff_eq_drop.1 hend
    simp only [List.drop_drop, List.length_drop] at hdrop
    rw [show old.length - suffix = start + (old.length - start - suffix) by omega, hdrop]
    congr 1
    omega
  · intro n hn hn' heq
    rw [hstart, le_sharedPrefix_iff]
    exact ⟨hn, heq ▸ List.take_prefix n new⟩
  · intro n hn hn' heq
    rw [hsuffix, le_sharedSuffix_iff, List.length_drop, List.drop_drop]
    refine ⟨by omega, ?_⟩
    -- What is left of `new` from its last `n` characters on is behind the shared start.
    rw [show start + (old.length - start - n) = old.length - n by omega, heq,
      show new.length - n = start + (new.length - n - start) by omega, ← List.drop_drop]
    exact List.drop_suffix _ _

/-! ## UTF-16 -/

/-- The UTF-16 units of a text. -/
def units (value : List Char) : ℕ :=
  (value.map lenUtf16).sum

/-- The offset lies between two characters of the text, or at one of its ends. -/
def OnBoundary (value : List Char) (offset : ℕ) : Prop :=
  ∃ n ≤ value.length, units (value.take n) = offset

theorem lenUtf16_pos (ch : Char) : 0 < lenUtf16 ch := by
  rw [lenUtf16]
  split_ifs <;> omega

theorem units_cons (ch : Char) (value : List Char) :
    units (ch :: value) = lenUtf16 ch + units value := by
  rw [units, List.map_cons, List.sum_cons, ← units]

/-- The loop, from any character on: the offsets in front of a character are accepted. -/
theorem utf16ToScalarFrom_take (scalar utf16 : ℕ) (value : List Char) {n : ℕ}
    (h : n ≤ value.length) :
    utf16ToScalarFrom scalar utf16 value (utf16 + units (value.take n)) = .ok (scalar + n) := by
  induction value generalizing scalar utf16 n with
  | nil =>
    obtain rfl : n = 0 := by simpa using h
    exact if_pos rfl
  | cons ch rest ih =>
    rcases n with _ | n
    · exact if_pos rfl
    have hpos := lenUtf16_pos ch
    rw [List.take_succ_cons, units_cons, utf16ToScalarFrom, if_neg (by omega), if_neg (by omega),
      ← Nat.add_assoc, ih _ _ (by simpa using h), show scalar + 1 + n = scalar + (n + 1) by omega]

/-- No other offset is. -/
theorem utf16ToScalarFrom_eq_ok {scalar utf16 : ℕ} {value : List Char} {offset k : ℕ}
    (h : utf16ToScalarFrom scalar utf16 value offset = .ok k) :
    ∃ n ≤ value.length, k = scalar + n ∧ offset = utf16 + units (value.take n) := by
  induction value generalizing scalar utf16 with
  | nil =>
    rw [utf16ToScalarFrom] at h
    split_ifs at h with hhere
    exact ⟨0, le_rfl, (Except.ok.inj h).symm, hhere.symm⟩
  | cons ch rest ih =>
    rw [utf16ToScalarFrom] at h
    split_ifs at h with hhere hsplit
    · exact ⟨0, Nat.zero_le _, (Except.ok.inj h).symm, hhere.symm⟩
    · obtain ⟨n, hn, rfl, rfl⟩ := ih h
      refine ⟨n + 1, by simpa using hn, by omega, ?_⟩
      rw [List.take_succ_cons, units_cons, Nat.add_assoc]

/-- Exactly the offsets between two characters are accepted, as the number of characters in
front. -/
theorem utf16ToScalar_eq_ok {value : List Char} {offset k : ℕ} :
    utf16ToScalar value offset = .ok k ↔ k ≤ value.length ∧ units (value.take k) = offset := by
  constructor
  · intro h
    obtain ⟨n, hn, rfl, rfl⟩ := utf16ToScalarFrom_eq_ok h
    rw [Nat.zero_add, Nat.zero_add]
    exact ⟨hn, rfl⟩
  · rintro ⟨hk, rfl⟩
    have htake := utf16ToScalarFrom_take 0 0 value hk
    rwa [Nat.zero_add, Nat.zero_add] at htake

theorem utf16Length_eq {total : ℕ} {value : List Char} (h : total + units value < 2 ^ 32) :
    utf16Length total value = .ok (total + units value) := by
  induction value generalizing total with
  | nil => rfl
  | cons ch rest ih =>
    rw [units_cons] at h
    rw [utf16Length, if_pos (by omega), ih (by omega), units_cons, Nat.add_assoc]

/-- The way back, for an offset that is a `u32`. -/
theorem scalarToUtf16_take {value : List Char} {n : ℕ} (hn : n ≤ value.length)
    (h : units (value.take n) < 2 ^ 32) : scalarToUtf16 value n = .ok (units (value.take n)) := by
  rw [scalarToUtf16, if_neg (by omega), utf16Length_eq (by omega), Nat.zero_add]

/-! ## Selections -/

variable {A : Automerge}

/-- What is taken from Automerge: a cursor taken at a position resolves to that position while the
text is unchanged. -/
structure Automerge.Anchored (A : Automerge) : Prop where
  start : ∀ {doc body chars}, A.characters doc body = .ok chars →
    ∃ cursor, A.getCursor doc body .start = .ok cursor ∧
      A.getCursorPosition doc body cursor = .ok 0
  «end» : ∀ {doc body chars}, A.characters doc body = .ok chars →
    ∃ cursor, A.getCursor doc body .end = .ok cursor ∧
      A.getCursorPosition doc body cursor = .ok chars.length
  moving : ∀ {doc body chars} position movement, A.characters doc body = .ok chars →
    0 < position → position < chars.length →
    ∃ cursor, A.getCursorMoving doc body position movement = .ok cursor ∧
      A.getCursorPosition doc body cursor = .ok position

/-- A cursor at a boundary of the text resolves to it, also at both ends. -/
theorem boundaryCursor_position (hA : A.Anchored) {doc : A.Doc} {body : A.ObjId}
    {chars : List (A.OpId × Char)} (hchars : A.characters doc body = .ok chars) {position : ℕ}
    (h : position ≤ chars.length) (movement : MoveCursor) :
    ∃ cursor, boundaryCursor doc body position movement = .ok cursor ∧
      A.getCursorPosition doc body cursor = .ok position := by
  have hlength : (A.characters doc body).toOption.map List.length = some chars.length := by
    rw [hchars]
    rfl
  rw [boundaryCursor, hlength]
  by_cases hstart : position = 0
  · rw [if_pos hstart, hstart]
    exact hA.start hchars
  rw [if_neg hstart]
  by_cases hend : chars.length = position
  · rw [if_pos (congrArg some hend), ← hend]
    exact hA.end hchars
  · rw [if_neg (fun heq => hend (Option.some.inj heq))]
    exact hA.moving position movement hchars (by omega) (by omega)

theorem text_eq_ok {doc : A.Doc} {body : A.ObjId} {value : List Char} :
    A.text doc body = .ok value ↔
      ∃ chars, A.characters doc body = .ok chars ∧ chars.map Prod.snd = value := by
  rw [Automerge.text]
  rcases A.characters doc body with message | chars
  · refine iff_of_false (fun h => by cases h) ?_
    rintro ⟨_, h, -⟩
    cases h
  · constructor
    · exact fun h => ⟨chars, rfl, Except.ok.inj h⟩
    · rintro ⟨_, h, h'⟩
      obtain rfl := Except.ok.inj h
      exact congrArg Except.ok h'

/-- The cursors of a selection between characters, which resolve to its ends. -/
theorem selectionOf_eq_ok (hA : A.Anchored) (d : MarkdownDocument A) (state : TextControlState)
    (htext : A.text d.doc d.body = .ok state.value) {start stop : ℕ}
    (hstart : start ≤ state.value.length ∧ units (state.value.take start) = state.selectionStart)
    (hstop : stop ≤ state.value.length ∧ units (state.value.take stop) = state.selectionEnd) :
    ∃ startCursor endCursor, d.selectionOf state =
        .ok ⟨startCursor, endCursor, state.direction, state.isComposing⟩ ∧
      A.getCursorPosition d.doc d.body startCursor = .ok start ∧
      A.getCursorPosition d.doc d.body endCursor = .ok stop := by
  obtain ⟨chars, hchars, hvalue⟩ := text_eq_ok.1 htext
  have hlength : chars.length = state.value.length := by rw [← hvalue, List.length_map]
  obtain ⟨startCursor, hstartCursor, hstartPosition⟩ :=
    boundaryCursor_position hA hchars (hlength ▸ hstart.1) .after
  -- Two equal ends share one cursor.
  obtain ⟨endCursor, hendCursor, hendPosition⟩ : ∃ cursor,
      (start = stop ∧ cursor = startCursor ∨
        start ≠ stop ∧ boundaryCursor d.doc d.body stop .after = .ok cursor) ∧
      A.getCursorPosition d.doc d.body cursor = .ok stop := by
    by_cases hequal : start = stop
    · exact ⟨startCursor, .inl ⟨hequal, rfl⟩, hequal ▸ hstartPosition⟩
    · obtain ⟨cursor, hcursor, hposition⟩ :=
        boundaryCursor_position hA hchars (hlength ▸ hstop.1) .after
      exact ⟨cursor, .inr ⟨hequal, hcursor⟩, hposition⟩
  refine ⟨startCursor, endCursor, ?_, hstartPosition, hendPosition⟩
  unfold MarkdownDocument.selectionOf
  rw [htext]
  simp only [bind, Except.bind, ne_eq, not_true_eq_false, if_false, utf16ToScalar_eq_ok.2 hstart,
    utf16ToScalar_eq_ok.2 hstop, hstartCursor]
  rcases hendCursor with ⟨hequal, rfl⟩ | ⟨hne, hcursor⟩
  · rw [if_pos hequal]
    rfl
  · rw [if_neg hne, hcursor]
    rfl

/-- A selection between characters is captured. -/
theorem selection_captured (hA : A.Anchored) (d : MarkdownDocument A) (state : TextControlState)
    (htext : A.text d.doc d.body = .ok state.value)
    (hstart : OnBoundary state.value state.selectionStart)
    (hend : OnBoundary state.value state.selectionEnd) :
    ∃ selection, d.captureSelection state = ({ d with selection := selection }, .ok ()) := by
  obtain ⟨start, hstart⟩ := hstart
  obtain ⟨stop, hstop⟩ := hend
  obtain ⟨startCursor, endCursor, hselection, -, -⟩ :=
    selectionOf_eq_ok hA d state htext hstart hstop
  exact ⟨_, by rw [MarkdownDocument.captureSelection, hselection]⟩

/-- It comes back as it was. -/
theorem selection_returns (hA : A.Anchored) (d : MarkdownDocument A) (state : TextControlState)
    (htext : A.text d.doc d.body = .ok state.value) (hstart32 : state.selectionStart < 2 ^ 32)
    (hend32 : state.selectionEnd < 2 ^ 32) (hstart : OnBoundary state.value state.selectionStart)
    (hend : OnBoundary state.value state.selectionEnd) :
    ∃ d', d.captureSelection state = (d', .ok ()) ∧ d'.controlState = .ok state := by
  obtain ⟨start, hstart⟩ := hstart
  obtain ⟨stop, hstop⟩ := hend
  obtain ⟨startCursor, endCursor, hselection, hstartPosition, hendPosition⟩ :=
    selectionOf_eq_ok hA d state htext hstart hstop
  refine ⟨{ d with
    selection := ⟨startCursor, endCursor, state.direction, state.isComposing⟩ }, ?_, ?_⟩
  · rw [MarkdownDocument.captureSelection, hselection]
  · unfold MarkdownDocument.controlState
    simp only [htext, hstartPosition, hendPosition, bind, Except.bind,
      scalarToUtf16_take hstart.1 (hstart.2 ▸ hstart32),
      scalarToUtf16_take hstop.1 (hstop.2 ▸ hend32), hstart.2, hstop.2]
    rfl

/-- A selection that splits a surrogate pair or lies beyond the end is refused and changes
nothing. -/
theorem selection_refused (d : MarkdownDocument A) (state : TextControlState)
    (htext : A.text d.doc d.body = .ok state.value)
    (h : ¬ (OnBoundary state.value state.selectionStart ∧
      OnBoundary state.value state.selectionEnd)) :
    ∃ message, d.captureSelection state = (d, .error message) := by
  suffices hselection : ∃ message, d.selectionOf state = .error message by
    obtain ⟨message, hmessage⟩ := hselection
    exact ⟨message, by rw [MarkdownDocument.captureSelection, hmessage]⟩
  rcases hresult : d.selectionOf state with message | selection
  · exact ⟨message, rfl⟩
  -- What has been captured has two ends that were accepted.
  refine absurd ?_ h
  unfold MarkdownDocument.selectionOf at hresult
  rw [htext] at hresult
  rcases hstart : utf16ToScalar state.value state.selectionStart with message | start
  · simp [bind, Except.bind, hstart] at hresult
  rcases hend : utf16ToScalar state.value state.selectionEnd with message | stop
  · simp [bind, Except.bind, hstart, hend] at hresult
  exact ⟨⟨start, utf16ToScalar_eq_ok.1 hstart⟩, ⟨stop, utf16ToScalar_eq_ok.1 hend⟩⟩

/-- Edits and selections map exactly.

The one splice of `scalar_diff`, its slice cut at byte offsets, turns the old text into the new one
and keeps as much as both begin with and, behind that, end with. A selection between characters
comes back from `control_state` as it was captured; one that splits a surrogate pair or lies beyond
the end is refused and leaves the document, its selection included, as it was. -/
theorem positions_exact (hA : A.Anchored) :
    (∀ old new, ∃ start deleted inserted suffix,
      scalarDiffBytes old new = some (start, deleted, inserted) ∧
      splice old start deleted inserted = new ∧
      start + deleted + suffix = old.length ∧ start + inserted.length + suffix = new.length ∧
      KeepsMost old new start suffix) ∧
    ∀ (d : MarkdownDocument A) (state : TextControlState),
      A.text d.doc d.body = .ok state.value →
      state.selectionStart < 2 ^ 32 → state.selectionEnd < 2 ^ 32 →
      (OnBoundary state.value state.selectionStart ∧ OnBoundary state.value state.selectionEnd →
        ∃ d', d.captureSelection state = (d', .ok ()) ∧ d'.controlState = .ok state) ∧
      (¬ (OnBoundary state.value state.selectionStart ∧
          OnBoundary state.value state.selectionEnd) →
        ∃ message, d.captureSelection state = (d, .error message)) := by
  constructor
  · intro old new
    rcases hdiff : scalarDiff old new with ⟨start, deleted, inserted⟩
    obtain ⟨suffix, hold, hnew, hkept⟩ := kept_parts old new hdiff
    refine ⟨start, deleted, inserted, suffix, ?_, ?_, hold, hnew, hkept⟩
    · rw [scalarDiffBytes_eq, hdiff]
    · obtain ⟨hstart, -, suffix', hsuffix, rfl, rfl⟩ := scalarDiff_eq old new hdiff
      exact splice_shared old new hstart hsuffix
  · intro d state htext hstart32 hend32
    exact ⟨fun h => selection_returns hA d state htext hstart32 hend32 h.1 h.2,
      selection_refused d state htext⟩

theorem replica_anchored : replica.Anchored where
  start _ := ⟨replica.cursorStart, rfl, rfl⟩
  «end» {r _ chars} h := by
    obtain rfl : r.chars = chars := Except.ok.inj h
    exact ⟨r.chars.length, rfl, rfl⟩
  moving position _ _ _ _ := ⟨position, rfl, rfl⟩

/-- Behind a character of two units the selection comes back, between them it is refused. -/
theorem positions_exact_astral :
    let r : Replica := ⟨[7], true, [(([7], 1), '🦊'), (([7], 2), 'a')], by decide⟩
    let d : MarkdownDocument replica :=
      ⟨r, (), [], ⟨replica.cursorStart, replica.cursorStart, .none, false⟩⟩
    (∃ d', d.captureSelection ⟨['🦊', 'a'], 2, 3, .backward, false⟩ = (d', .ok ()) ∧
      d'.controlState = .ok ⟨['🦊', 'a'], 2, 3, .backward, false⟩) ∧
    ∃ message, d.captureSelection ⟨['🦊', 'a'], 1, 3, .none, false⟩ = (d, .error message) := by
  intro r d
  refine ⟨((positions_exact replica_anchored).2 d ⟨['🦊', 'a'], 2, 3, .backward, false⟩ rfl
    (by decide) (by decide)).1 ⟨⟨1, by decide, by decide⟩, ⟨2, by decide, by decide⟩⟩,
    ((positions_exact replica_anchored).2 d ⟨['🦊', 'a'], 1, 3, .none, false⟩ rfl
      (by decide) (by decide)).2 ?_⟩
  rintro ⟨⟨n, hn, hunits⟩, -⟩
  have hnone : ∀ n ≤ 2, units (['🦊', 'a'].take n) ≠ 1 := by decide
  exact hnone n hn hunits

end Polyvisor.Markdown
