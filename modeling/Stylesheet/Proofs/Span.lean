import Mathlib.Logic.Basic
import Stylesheet.Proofs.Views

/-!
# Spans

Until text is taken, a source keeps the span and everything that was pulled behind it; only the
place where it stands moves. A mark is good as long as it lies in what is kept. Main statements: a
mark that was made in a span is good until the span ends, and a uniform scan moves a source forward
within its span.
-/
namespace Stylesheet

/-- The mark of the place behind a text that begins a style sheet. -/
def Mark.behind (text : List Char) : Mark := ⟨utf8Length text, Location.start.advanceAll text⟩

namespace BufferedSource

section Buffer

variable {ι : Type} {s s' s'' : BufferedSource ι} {mark : Mark} {before behind : List Char}

/-- The span, and what was pulled behind it. -/
def buffer (s : BufferedSource ι) : List Char := s.passed.reverse ++ s.ahead

/-- The offset of the mark divides the buffer into these two parts. -/
structure Divides (s : BufferedSource ι) (mark : Mark) (before behind : List Char) : Prop where
  buffer : s.buffer = before ++ behind
  offset : mark.offset + utf8Length s.passed = s.offset + utf8Length before

/-- The offset of the mark lies in the buffer, and not inside a code point. -/
def Covers (s : BufferedSource ι) (mark : Mark) : Prop :=
  ∃ before behind, s.Divides mark before behind

/-- Going to a mark that divides the buffer is to stand between the two parts. -/
theorem Divides.reset (h : s.Divides mark before behind) :
    s.reset mark =
      { s with passed := before.reverse, ahead := behind, offset := mark.offset,
               location := mark.location } := by
  have hoffset := h.offset
  have hbuffer := h.buffer
  rw [BufferedSource.buffer, List.append_eq_append_iff] at hbuffer
  obtain ⟨between, rfl, hahead⟩ | ⟨between, hpassed, rfl⟩ := hbuffer
  · -- The mark is ahead of where the source stands.
    rw [utf8Length_append, utf8Length_reverse] at hoffset
    rw [reset_forward hahead (by omega), List.reverse_append, List.reverse_reverse]
  · have hpassed : s.passed = between.reverse ++ before.reverse := by
      rw [← List.reverse_append, ← hpassed, List.reverse_reverse]
    rw [hpassed, utf8Length_append, utf8Length_reverse, utf8Length_reverse] at hoffset
    have hback : s.offset = mark.offset + utf8Length between.reverse := by
      rw [utf8Length_reverse]
      omega
    rw [reset_back hpassed hback, List.reverse_reverse]

theorem Divides.buffer_reset (h : s.Divides mark before behind) :
    (s.reset mark).buffer = s.buffer := by
  rw [h.reset, h.buffer, BufferedSource.buffer, List.reverse_reverse]

theorem divides_position (s : BufferedSource ι) :
    s.Divides s.position s.passed.reverse s.ahead := by
  refine ⟨rfl, ?_⟩
  rw [utf8Length_reverse]
  rfl

end Buffer

variable {ι : Type} [CharStream ι] {s s' s'' : BufferedSource ι} {mark : Mark}
  {before behind : List Char}

/-- What can still be consumed. -/
def upcoming (s : BufferedSource ι) : List Char := s.ahead ++ s.input.rest

/-- The span, and what can still be consumed. -/
def whole (s : BufferedSource ι) : List Char := s.passed.reverse ++ s.upcoming

theorem whole_eq (s : BufferedSource ι) : s.whole = s.buffer ++ s.input.rest := by
  rw [whole, buffer, upcoming, List.append_assoc]

/-! ## Within a span -/

/-- The span began at the same place, and nothing that was pulled is lost. -/
structure SameSpan (s s' : BufferedSource ι) : Prop where
  buffer : s.buffer <+: s'.buffer
  offset : s'.offset + utf8Length s.passed = s.offset + utf8Length s'.passed
  whole [CharStream.Fused ι] : s'.whole = s.whole

namespace SameSpan

theorem refl (s : BufferedSource ι) : SameSpan s s := ⟨List.prefix_rfl, rfl, rfl⟩

theorem trans (h : SameSpan s s') (h' : SameSpan s' s'') : SameSpan s s'' := by
  refine ⟨h.buffer.trans h'.buffer, ?_, h'.whole.trans h.whole⟩
  have hoffset := h.offset
  have hoffset' := h'.offset
  omega

/-- What divided the buffer divides it still. -/
theorem divides (h : SameSpan s s') (hd : s.Divides mark before behind) :
    ∃ more, s'.Divides mark before (behind ++ more) := by
  obtain ⟨more, hmore⟩ := h.buffer
  have hoffset := h.offset
  have hdivides := hd.offset
  refine ⟨more, ?_, by omega⟩
  rw [← hmore, hd.buffer, List.append_assoc]

theorem covers (h : SameSpan s s') (hc : s.Covers mark) : s'.Covers mark := by
  obtain ⟨before, behind, hd⟩ := hc
  obtain ⟨more, hd'⟩ := h.divides hd
  exact ⟨_, _, hd'⟩

/-- A mark stays good until the span ends. -/
theorem covers_position (h : SameSpan s s') : s'.Covers s.position :=
  h.covers ⟨_, _, s.divides_position⟩

/-- Back where the source stood. What was pulled since then is ahead. -/
theorem reset_position (h : SameSpan s s') :
    ∃ more, s'.reset s.position =
      { s' with passed := s.passed, ahead := s.ahead ++ more, offset := s.offset,
                location := s.location } := by
  obtain ⟨more, hd⟩ := h.divides s.divides_position
  refine ⟨more, ?_⟩
  rw [hd.reset, List.reverse_reverse]
  rfl

end SameSpan

theorem Divides.sameSpan (h : s.Divides mark before behind) : SameSpan s (s.reset mark) := by
  have hbuffer := h.buffer_reset
  have hinput : (s.reset mark).input = s.input := by rw [h.reset]
  refine ⟨?_, ?_, ?_⟩
  · exact ⟨[], by rw [List.append_nil, hbuffer]⟩
  · rw [h.reset, utf8Length_reverse]
    exact h.offset
  · intro hfused
    rw [whole_eq, whole_eq, hbuffer, hinput]

/-- Going to a good mark does not leave the span. -/
theorem Covers.sameSpan (h : s.Covers mark) : SameSpan s (s.reset mark) := by
  obtain ⟨before, behind, hd⟩ := h
  exact hd.sameSpan

theorem sameSpan_peek (s : BufferedSource ι) : SameSpan s s.peek.2 := by
  obtain ⟨input, passed, ahead, offset, location⟩ := s
  cases ahead with
  | cons c rest => exact SameSpan.refl _
  | nil =>
    refine ⟨?_, rfl, ?_⟩
    · simp only [peek, buffer, List.append_nil]
      exact List.prefix_append _ _
    · intro hfused
      cases hn : input.next with
      | mk c? input' =>
        cases c? with
        | none =>
          obtain ⟨hrest, hrest'⟩ := LineEnding.Normalizer.rest_of_next_none hn
          simp [peek, whole, upcoming, hn, hrest, hrest']
        | some c =>
          have hrest := LineEnding.Normalizer.rest_of_next_some hn
          simp [peek, whole, upcoming, hn, hrest]

theorem fst_consume (s : BufferedSource ι) : s.consume.1 = s.peek.1 := by
  rw [← s.head_ahead_peek, consume]
  cases s.peek.2.ahead <;> rfl

theorem ahead_consume (s : BufferedSource ι) : s.consume.2.ahead = s.peek.2.ahead.tail := by
  rw [consume]
  cases ha : s.peek.2.ahead <;> simp [ha]

theorem fst_peek [CharStream.Fused ι] (s : BufferedSource ι) :
    s.peek.1 = s.upcoming.head? := by
  obtain ⟨input, passed, ahead, offset, location⟩ := s
  cases ahead with
  | cons c rest => rfl
  | nil =>
    cases hn : input.next with
    | mk c? input' =>
      cases c? with
      | none => simp [peek, upcoming, hn, (LineEnding.Normalizer.rest_of_next_none hn).1]
      | some c => simp [peek, upcoming, hn, LineEnding.Normalizer.rest_of_next_some hn]

/-! ## Forward -/

/-- The source has moved on by these code points within its span. -/
structure Strides (consumed : List Char) (s s' : BufferedSource ι) : Prop
    extends SameSpan s s' where
  passed : s'.passed = consumed.reverse ++ s.passed
  location : s'.location = s.location.advanceAll consumed

namespace Strides

variable {consumed more : List Char}

theorem refl (s : BufferedSource ι) : Strides [] s s := ⟨.refl s, rfl, rfl⟩

theorem trans (h : Strides consumed s s') (h' : Strides more s' s'') :
    Strides (consumed ++ more) s s'' := by
  refine ⟨h.toSameSpan.trans h'.toSameSpan, ?_, ?_⟩
  · rw [h'.passed, h.passed, List.reverse_append, List.append_assoc]
  · rw [h'.location, h.location, Location.advanceAll_append]

theorem offset_eq (h : Strides consumed s s') : s'.offset = s.offset + utf8Length consumed := by
  have hoffset := h.offset
  rw [h.passed, utf8Length_append, utf8Length_reverse] at hoffset
  omega

theorem position_eq (h : Strides consumed s s') :
    s'.position = ⟨s.offset + utf8Length consumed, s.location.advanceAll consumed⟩ :=
  congrArg₂ Mark.mk h.offset_eq h.location

/-- The text that is taken is the span it was, followed by what it has moved on by. -/
theorem text_takeText (h : Strides consumed s s') :
    s'.takeText.1 = String.ofList (s.passed.reverse ++ consumed) := by
  rw [takeText, h.passed, List.reverse_append, List.reverse_reverse]

theorem upcoming_eq [CharStream.Fused ι] (h : Strides consumed s s') :
    s.upcoming = consumed ++ s'.upcoming := by
  have hwhole := h.whole
  rw [BufferedSource.whole, BufferedSource.whole, h.passed, List.reverse_append,
    List.reverse_reverse, List.append_assoc] at hwhole
  exact (List.append_cancel_left hwhole).symm

/-- Going back undoes it. -/
theorem reset (h : Strides consumed s s') : Strides [] s (s'.reset s.position) := by
  obtain ⟨more, hreset⟩ := h.toSameSpan.reset_position
  refine ⟨h.toSameSpan.trans h.toSameSpan.covers_position.sameSpan, ?_, ?_⟩
  · rw [hreset]
    rfl
  · rw [hreset]
    rfl

end Strides

theorem strides_peek (s : BufferedSource ι) : Strides [] s s.peek.2 := by
  refine ⟨s.sameSpan_peek, ?_, ?_⟩
  · rw [peek]
    split <;> rfl
  · rw [peek]
    split <;> rfl

theorem strides_consume (s : BufferedSource ι) : Strides s.consume.1.toList s s.consume.2 := by
  have hpeek := s.strides_peek
  rw [consume]
  generalize s.peek.2 = s' at hpeek
  obtain ⟨input, passed, ahead, offset, location⟩ := s'
  cases ahead with
  | nil => exact hpeek
  | cons c ahead =>
    have hbuffer : passed.reverse ++ c :: ahead = (c :: passed).reverse ++ ahead := by simp
    have hstep : Strides [c] ⟨input, passed, c :: ahead, offset, location⟩
        ⟨input, c :: passed, ahead, offset + c.utf8Size, location.advance c⟩ := by
      refine ⟨⟨?_, ?_, ?_⟩, rfl, rfl⟩
      · exact ⟨[], (List.append_nil _).trans hbuffer⟩
      · simp only [utf8Length_cons]
        omega
      · intro hfused
        rw [whole_eq, whole_eq, buffer, buffer, hbuffer]
    exact hpeek.trans hstep

/-- A source is moved forward by whatever reads it. -/
def striding (ι : Type) [CharStream ι] : Simulation (BufferedSource ι) (BufferedSource ι) where
  -- One source beside itself: all that is of use here is which states come later.
  Rel s t := s = t
  Later p q := ∃ consumed, Strides consumed p.1 q.1
  later_refl p := ⟨[], .refl p.1⟩
  later_trans p q r := by
    rintro ⟨consumed, h⟩ ⟨more, h'⟩
    exact ⟨_, h.trans h'⟩
  peek s t := by
    rintro rfl
    exact ⟨rfl, rfl, [], s.strides_peek⟩
  consume s t := by
    rintro rfl
    exact ⟨rfl, rfl, _, s.strides_consume⟩
  reset s t s' t' := by
    rintro rfl rfl ⟨consumed, h⟩
    exact ⟨rfl, [], h.reset⟩
  location s t := by
    rintro rfl
    rfl
  takeText s t := by
    rintro rfl
    exact ⟨rfl, rfl⟩

theorem exists_strides {α : Type} {scan : Scan (BufferedSource ι) α} (h : Uniform scan scan)
    (s : BufferedSource ι) : ∃ consumed, Strides consumed s (scan s).2 :=
  ((striding ι).agrees h (rfl : s = s)).later

end BufferedSource
end Stylesheet
