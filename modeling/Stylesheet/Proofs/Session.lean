import Stylesheet.Proofs.CursorScan
import Stylesheet.Proofs.Views

/-!
# Sessions

A session is a sequence of calls of a source. A buffered source over a text answers every session
the way a cursor over the normalized text does, whose answers are read off the text: it knows the
index and the start of the span, and nothing has to be pulled, held or counted.
-/
namespace Stylesheet

inductive Call where
  | peek
  | consume
  | position
  | isEof
  | accept (p : Char → Bool)
  | acceptChar (x : Char)
  | acceptWhile (p : Char → Bool)
  | skipUntil (stop : Char → Bool)
  | takeText
  | reset (mark : Mark)

inductive Answer where
  | codePoint (x? : Option Char)
  | mark (mark : Mark)
  | flag (b : Bool)
  | count (n : Nat)
  | text (text : String)
  | nothing
  deriving DecidableEq, Repr

/-- The call of a source. -/
def Call.scan {σ : Type} [Source σ] : Call → Scan σ Answer
  | peek => Answer.codePoint <$> Scan.peek
  | consume => Answer.codePoint <$> Scan.consume
  | position => Answer.mark <$> Scan.position
  | isEof => Answer.flag <$> Scan.atEnd
  | accept p => Answer.flag <$> Scan.accept p
  | acceptChar x => Answer.flag <$> Scan.acceptChar x
  | acceptWhile p => Answer.count <$> Scan.acceptWhile p
  | skipUntil stop => Answer.codePoint <$> Scan.skipUntil stop
  | takeText => Answer.text <$> Scan.takeText
  | reset mark => (fun _ => Answer.nothing) <$> Scan.reset mark

/-- What a source answers to one call after another. -/
def session {σ : Type} [Source σ] : List Call → σ → List Answer
  | [], _ => []
  | call :: rest, s => (call.scan s).1 :: session rest (call.scan s).2

namespace Cursor

/-- What the text, the index and the start of the span say to a call. -/
def respond (c : Cursor) : Call → Answer × Cursor
  | .peek => (.codePoint c.text[c.index]?, c)
  | .consume => (.codePoint c.text[c.index]?, c.moveTo (c.index + 1))
  | .position => (.mark (markAt c.text c.index), c)
  | .isEof => (.flag (c.index = c.text.length), c)
  | .accept p =>
    if c.text[c.index]?.any p then (.flag true, c.moveTo (c.index + 1)) else (.flag false, c)
  | .acceptChar x =>
    if c.text[c.index]? = some x then (.flag true, c.moveTo (c.index + 1)) else (.flag false, c)
  | .acceptWhile p =>
    let n := ((c.text.drop c.index).takeWhile p).length
    (.count n, c.moveTo (c.index + n))
  | .skipUntil stop =>
    let n := ((c.text.drop c.index).takeWhile fun x => !stop x).length
    (.codePoint ((c.text.drop c.index).find? stop), c.moveTo (c.index + n))
  | .takeText =>
    (.text (String.ofList (c.text.extract c.spanStart c.index)), { c with spanStart := c.index })
  | .reset mark => (.nothing, c.moveTo (indexAt c.text mark.offset))

/-- What a cursor responds to one call after another. -/
def responses (c : Cursor) : List Call → List Answer
  | [] => []
  | call :: rest => (c.respond call).1 :: responses (c.respond call).2 rest

theorem consume_eq (c : Cursor) : c.consume = (c.peek, c.skip 1) := by
  cases h : c.ahead with
  | nil =>
    have hpeek := (c.ahead_eq_nil_iff).mp h
    have hlength := congrArg List.length h
    have hle := c.index_le
    simp only [ahead, List.length_drop, List.length_nil] at hlength
    rw [consume_nil h, hpeek]
    refine congrArg (Prod.mk none) (Cursor.ext rfl ?_ rfl)
    simp only [skip, index_moveTo]
    omega
  | cons x rest => rw [consume_cons h, peek_eq_head?, h, List.head?_cons]

/-- The scans of a cursor and its responses are the same. -/
theorem scan_eq_respond (call : Call) (c : Cursor) : call.scan c = c.respond call := by
  cases call with
  | peek => rfl
  | consume =>
    have h : Scan.consume c = (c.peek, c.skip 1) := c.consume_eq
    rw [Call.scan, Scan.map_apply, h]
    rfl
  | position => rfl
  | isEof =>
    have h : (c.text[c.index]?).isNone = decide (c.index = c.text.length) := by
      have hle := c.index_le
      rw [Bool.eq_iff_iff, Option.isNone_iff_eq_none, List.getElem?_eq_none_iff, decide_eq_true_iff]
      omega
    exact congrArg (fun b => (Answer.flag b, c)) h
  | accept p =>
    rw [Call.scan, Scan.map_apply, accept_eq, ← peek_eq_head?, peek, respond]
    split <;> rfl
  | acceptChar x =>
    have h : (c.text[c.index]?).any (fun y => decide (y = x)) = true ↔
        c.text[c.index]? = some x := by
      cases c.text[c.index]? <;> simp
    rw [Call.scan, Scan.map_apply, Scan.acceptChar, accept_eq, ← peek_eq_head?, peek, respond]
    simp only [h]
    split <;> rfl
  | acceptWhile p =>
    rw [Call.scan, Scan.map_apply, acceptWhile_eq]
    rfl
  | skipUntil stop =>
    rw [Call.scan, Scan.map_apply, skipUntil_eq]
    rfl
  | takeText =>
    have h : c.span = c.text.extract c.spanStart c.index := by
      rw [span, before, List.extract_eq_take_drop, List.drop_take]
    exact congrArg (fun cs => (Answer.text (String.ofList cs), { c with spanStart := c.index })) h
  | reset mark => rfl

@[simp] theorem text_respond (c : Cursor) (call : Call) : (c.respond call).2.text = c.text := by
  cases call <;> simp only [respond] <;> (try split) <;> rfl

theorem spanStart_respond (c : Cursor) {call : Call} (h : call ≠ .takeText) :
    (c.respond call).2.spanStart = c.spanStart := by
  cases call with
  | takeText => contradiction
  | accept p =>
    simp only [respond]
    split
    · rfl
    · rfl
  | acceptChar x =>
    simp only [respond]
    split
    · rfl
    · rfl
  | _ => rfl

/-- Marks of a text are in the order of their indices. -/
theorem le_of_utf8Length_le {text : List Char} {i j : Nat} (hi : i ≤ text.length)
    (h : utf8Length (text.take i) ≤ utf8Length (text.take j)) : i ≤ j := by
  induction text generalizing i j with
  | nil =>
    obtain rfl := Nat.le_zero.mp hi
    exact Nat.zero_le j
  | cons x text ih =>
    have hx := x.utf8Size_pos
    cases i with
    | zero => exact Nat.zero_le j
    | succ i =>
      cases j with
      | zero =>
        simp only [List.take_succ_cons, utf8Length_cons, List.take_zero, utf8Length_nil] at h
        omega
      | succ j =>
        simp only [List.take_succ_cons, utf8Length_cons] at h
        have hrest := ih (Nat.le_of_succ_le_succ hi) (Nat.le_of_add_le_add_left h)
        exact Nat.succ_le_succ hrest

end Cursor

/-! ## Marks -/

/-- The mark that is answered, if one is. -/
def Answer.marks : Answer → List Mark
  | mark m => [m]
  | _ => []

/-- Going back, or forward, is to one of these marks, and not to before the span. -/
def Call.Allowed (marks : List Mark) (c : Cursor) : Call → Prop
  | reset mark => mark ∈ marks ∧ utf8Length (c.text.take c.spanStart) ≤ mark.offset
  | _ => True

/-- Every call that goes to a mark is allowed to, given the marks answered before it. -/
def Admissible (marks : List Mark) (c : Cursor) : List Call → Prop
  | [] => True
  | call :: rest => call.Allowed marks c ∧
      Admissible ((c.respond call).1.marks ++ marks) (c.respond call).2 rest

namespace BufferedSource

variable {ι : Type} [CharStream ι]

/-- The source stands where the cursor stands, and has pulled as far as any of the marks. -/
structure Tracks (marks : List Mark) (s : BufferedSource ι) (c : Cursor) : Prop where
  shows : s.Shows c
  pulled : ∀ mark ∈ marks, ∃ j, mark = Cursor.markAt c.text j ∧ j ≤ c.index + s.ahead.length

namespace Tracks

variable {marks : List Mark} {s : BufferedSource ι} {c : Cursor}

theorem position (h : Tracks marks s c) :
    Tracks (Cursor.markAt c.text c.index :: marks) s c := by
  refine ⟨h.shows, fun mark hmem => ?_⟩
  obtain rfl | hmem := List.mem_cons.mp hmem
  · exact ⟨c.index, rfl, Nat.le_add_right _ _⟩
  · exact h.pulled mark hmem

theorem reset (h : Tracks marks s c) {mark : Mark} (ha : (Call.reset mark).Allowed marks c) :
    Tracks marks (Source.reset mark s) (Source.reset mark c) := by
  obtain ⟨hmem, hspan⟩ := ha
  obtain ⟨j, rfl, hj⟩ := h.pulled mark hmem
  have hstart : c.spanStart ≤ j :=
    Cursor.le_of_utf8Length_le (Nat.le_trans h.shows.spanStart_le c.index_le) hspan
  obtain ⟨hshows, hpulled⟩ := h.shows.reset_markAt hstart hj
  rw [Cursor.reset_markAt]
  refine ⟨hshows, fun mark hmem => ?_⟩
  obtain ⟨i, hmark, hi⟩ := h.pulled mark hmem
  exact ⟨i, hmark, Nat.le_trans hi (Nat.le_of_eq hpulled.symm)⟩

variable [CharStream.Fused ι]

theorem read (h : Tracks marks s c) {α : Type} {scan : Scan (BufferedSource ι) α}
    {scan' : Scan Cursor α} (hu : Uniform scan scan') :
    (scan s).1 = (scan' c).1 ∧ Tracks marks (scan s).2 (scan' c).2 := by
  have hagree := (asCursor ι).agrees hu h.shows
  obtain ⟨htext, -, hle⟩ := hagree.later
  refine ⟨hagree.answer, hagree.rel, fun mark hmem => ?_⟩
  obtain ⟨j, hmark, hj⟩ := h.pulled mark hmem
  change (scan' c).2.text = c.text at htext
  exact ⟨j, by rw [htext, hmark], Nat.le_trans hj hle⟩

/-- One call of the source is answered as the cursor responds. -/
theorem call (h : Tracks marks s c) {call : Call} (ha : call.Allowed marks c) :
    (call.scan s).1 = (c.respond call).1 ∧
      Tracks ((c.respond call).1.marks ++ marks) (call.scan s).2 (c.respond call).2 := by
  rw [← Cursor.scan_eq_respond]
  cases call with
  | peek =>
    obtain ⟨hanswer, htracks⟩ := h.read .peek
    exact ⟨congrArg Answer.codePoint hanswer, htracks⟩
  | consume =>
    obtain ⟨hanswer, htracks⟩ := h.read .consume
    exact ⟨congrArg Answer.codePoint hanswer, htracks⟩
  | position => exact ⟨congrArg Answer.mark h.shows.position_eq, h.position⟩
  | isEof =>
    obtain ⟨hanswer, htracks⟩ := h.read (.bind .peek fun x? => .pure x?.isNone)
    exact ⟨congrArg Answer.flag hanswer, htracks⟩
  | accept p =>
    obtain ⟨hanswer, htracks⟩ := h.read (.accept p)
    exact ⟨congrArg Answer.flag hanswer, htracks⟩
  | acceptChar x =>
    obtain ⟨hanswer, htracks⟩ := h.read (.acceptChar x)
    exact ⟨congrArg Answer.flag hanswer, htracks⟩
  | acceptWhile p =>
    obtain ⟨hanswer, htracks⟩ := h.read (.acceptWhile p)
    exact ⟨congrArg Answer.count hanswer, htracks⟩
  | skipUntil stop =>
    obtain ⟨hanswer, htracks⟩ := h.read (.skipUntil stop)
    exact ⟨congrArg Answer.codePoint hanswer, htracks⟩
  | takeText =>
    obtain ⟨htext, hshows⟩ := h.shows.takeText
    exact ⟨congrArg Answer.text htext, hshows, h.pulled⟩
  | reset mark => exact ⟨rfl, h.reset ha⟩

theorem session_eq (h : Tracks marks s c) {calls : List Call} (ha : Admissible marks c calls) :
    session calls s = c.responses calls := by
  induction calls generalizing marks s c with
  | nil => rfl
  | cons call rest ih =>
    obtain ⟨hallowed, hrest⟩ := ha
    obtain ⟨hanswer, htracks⟩ := h.call hallowed
    rw [session, Cursor.responses, hanswer, ih htracks hrest]

end Tracks
end BufferedSource

/-! ## Locations -/

theorem Location.advanceAll_le (l : Location) (cs : List Char) (h : 1 ≤ l.column) :
    (l.advanceAll cs).line ≤ l.line + cs.length ∧
      (l.advanceAll cs).column ≤ l.column + cs.length := by
  induction cs generalizing l with
  | nil => exact ⟨Nat.le_refl _, Nat.le_refl _⟩
  | cons x cs ih =>
    rw [advanceAll_cons, List.length_cons]
    by_cases hx : x = '\n'
    · have hl : l.advance x = ⟨l.line + 1, 1⟩ := if_pos hx
      have hrest := ih ⟨l.line + 1, 1⟩ (Nat.le_refl _)
      rw [hl]
      simp only at hrest
      omega
    · have hl : l.advance x = ⟨l.line, l.column + 1⟩ := if_neg hx
      have hrest := ih ⟨l.line, l.column + 1⟩ (Nat.le_add_left _ _)
      rw [hl]
      simp only at hrest
      omega

theorem Cursor.location_markAt_le (text : List Char) (i : Nat) :
    (markAt text i).location.line ≤ text.length + 1 ∧
      (markAt text i).location.column ≤ text.length + 1 := by
  have hle := Location.start.advanceAll_le (text.take i) (Nat.le_refl _)
  have hlength : (text.take i).length ≤ text.length := List.length_take_le' i text
  have hstart : Location.start = ⟨1, 1⟩ := rfl
  simp only [markAt, hstart] at hle ⊢
  omega

theorem Cursor.exists_markAt_of_mem {c : Cursor} {calls : List Call} {mark : Mark}
    (h : Answer.mark mark ∈ c.responses calls) : ∃ i, mark = markAt c.text i := by
  induction calls generalizing c with
  | nil => contradiction
  | cons call rest ih =>
    obtain hhead | hrest := List.mem_cons.mp h
    · cases call with
      | position =>
        obtain rfl := Answer.mark.inj hhead
        exact ⟨c.index, rfl⟩
      | accept p =>
        simp only [respond] at hhead
        split at hhead <;> contradiction
      | acceptChar x =>
        simp only [respond] at hhead
        split at hhead <;> contradiction
      | _ => contradiction
    · obtain ⟨i, hmark⟩ := ih hrest
      exact ⟨i, by rw [hmark, text_respond]⟩

/-- A source over a text answers every session as the cursor over the normalized text responds,
and no line or column in it is too large for 32 bits. -/
theorem BufferedSource.session_refines (text : String) (calls : List Call)
    (hlength : text.toList.length < UInt32.size - 1)
    (h : Admissible [] (.ofText (LineEnding.normalize text.toList)) calls) :
    session calls (ofString text) =
        (Cursor.ofText (LineEnding.normalize text.toList)).responses calls ∧
      ∀ mark, Answer.mark mark ∈ session calls (ofString text) →
        mark.location.line < UInt32.size ∧ mark.location.column < UInt32.size := by
  have hshows := shows_ofStream text.toList
  rw [CharStream.drain_list] at hshows
  have htracks : Tracks [] (ofString text) (.ofText (LineEnding.normalize text.toList)) :=
    ⟨hshows, nofun⟩
  have hsession := htracks.session_eq h
  refine ⟨hsession, fun mark hmem => ?_⟩
  rw [hsession] at hmem
  obtain ⟨i, rfl⟩ := Cursor.exists_markAt_of_mem hmem
  have hle := Cursor.location_markAt_le (LineEnding.normalize text.toList) i
  have hnormalize := LineEnding.length_normalize_le text.toList
  have hsize : UInt32.size = 4294967296 := rfl
  simp only [Cursor.ofText]
  omega

/-- Back to the start and forward again to a mark behind it. -/
theorem BufferedSource.session_refines_back_and_forward :
    "a\r\nb".toList.length < UInt32.size - 1 ∧
      session [.position, .consume, .consume, .position, .reset ⟨0, ⟨1, 1⟩⟩, .reset ⟨2, ⟨2, 1⟩⟩,
          .takeText, .peek] (ofString "a\r\nb") =
        [.mark ⟨0, ⟨1, 1⟩⟩, .codePoint (some 'a'), .codePoint (some '\n'), .mark ⟨2, ⟨2, 1⟩⟩,
          .nothing, .nothing, .text "a\n", .codePoint (some 'b')] := by
  have hlength : "a\r\nb".toList.length < UInt32.size - 1 := by decide
  have h := session_refines "a\r\nb" [.position, .consume, .consume, .position,
    .reset ⟨0, ⟨1, 1⟩⟩, .reset ⟨2, ⟨2, 1⟩⟩, .takeText, .peek] hlength
    ⟨trivial, trivial, trivial, trivial, ⟨.tail _ (.head _), Nat.zero_le _⟩,
      ⟨.head _, Nat.zero_le _⟩, trivial, trivial, trivial⟩
  exact ⟨hlength, h.1⟩

end Stylesheet
