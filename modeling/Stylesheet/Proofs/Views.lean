import Stylesheet.Proofs.Cursor
import Stylesheet.Proofs.Drain
import Stylesheet.Source.Indexed

/-!
# Sources seen as cursors

A buffered source over a fused stream behaves like a cursor over the normalized text of that
stream, and an indexed source like one over its array. The buffered source knows only the span
and what it has pulled so far, so going to a mark agrees with the cursor as long as the mark lies
between the start of the span and the last code point pulled.
-/
namespace Stylesheet

@[simp] theorem utf8Length_reverse (cs : List Char) :
    utf8Length cs.reverse = utf8Length cs := by
  induction cs with
  | nil => rfl
  | cons c cs ih =>
    simp only [List.reverse_cons, utf8Length_append, utf8Length_cons, ih, utf8Length_nil]
    omega

namespace BufferedSource

/-! ## Moving within the buffer -/

theorem rewind_append (xs ys ahead : List Char) (t : Nat) :
    rewind t (xs ++ ys) ahead (t + utf8Length xs) = (ys, xs.reverse ++ ahead, t) := by
  induction xs generalizing ahead with
  | nil => cases ys <;> simp [rewind]
  | cons x xs ih =>
    have hx := x.utf8Size_pos
    have hlt : t < t + (x.utf8Size + utf8Length xs) := by omega
    have hsub : t + (x.utf8Size + utf8Length xs) - x.utf8Size = t + utf8Length xs := by omega
    rw [List.cons_append, utf8Length_cons, rewind, if_pos hlt, hsub, ih]
    simp

theorem rewind_of_le {target offset : Nat} (h : offset ≤ target) (passed ahead : List Char) :
    rewind target passed ahead offset = (passed, ahead, offset) := by
  cases passed with
  | nil => rfl
  | cons c passed => rw [rewind, if_neg (by omega)]

theorem wind_append (xs ys passed : List Char) (offset : Nat) :
    wind (offset + utf8Length xs) passed (xs ++ ys) offset =
      (xs.reverse ++ passed, ys, offset + utf8Length xs) := by
  induction xs generalizing passed offset with
  | nil => cases ys <;> simp [wind]
  | cons x xs ih =>
    have hx := x.utf8Size_pos
    have hlt : offset < offset + (x.utf8Size + utf8Length xs) := by omega
    have hadd : offset + (x.utf8Size + utf8Length xs) = offset + x.utf8Size + utf8Length xs := by
      omega
    rw [List.cons_append, utf8Length_cons, wind, if_pos hlt, hadd, ih]
    simp

theorem wind_self (passed ahead : List Char) (offset : Nat) :
    wind offset passed ahead offset = (passed, ahead, offset) := by
  simpa using wind_append [] ahead passed offset

theorem reset_back {ι : Type} {s : BufferedSource ι} {mark : Mark} {xs ys : List Char}
    (hp : s.passed = xs ++ ys) (ho : s.offset = mark.offset + utf8Length xs) :
    s.reset mark =
      { s with passed := ys, ahead := xs.reverse ++ s.ahead, offset := mark.offset,
               location := mark.location } := by
  simp only [reset, hp, ho, rewind_append, wind_self]

theorem reset_forward {ι : Type} {s : BufferedSource ι} {mark : Mark} {xs ys : List Char}
    (ha : s.ahead = xs ++ ys) (ho : mark.offset = s.offset + utf8Length xs) :
    s.reset mark =
      { s with passed := xs.reverse ++ s.passed, ahead := ys, offset := mark.offset,
               location := mark.location } := by
  have hr := rewind_of_le (show s.offset ≤ mark.offset by omega) s.passed s.ahead
  have hw : wind mark.offset s.passed s.ahead s.offset =
      (xs.reverse ++ s.passed, ys, mark.offset) := by rw [ha, ho, wind_append]
  simp only [reset, hr, hw]

/-! ## The view -/

variable {ι : Type} [CharStream ι]

/-- The source stands where the cursor stands. -/
structure Shows (s : BufferedSource ι) (c : Cursor) : Prop where
  span : s.passed.reverse = c.span
  ahead : s.ahead ++ s.input.rest = c.ahead
  offset : s.offset = utf8Length c.before
  location : s.location = Location.start.advanceAll c.before
  spanStart_le : c.spanStart ≤ c.index

theorem shows_ofStream (input : ι) :
    (ofStream input).Shows (.ofText (LineEnding.normalize (CharStream.drain input))) := by
  refine ⟨rfl, ?_, rfl, rfl, Nat.le_refl _⟩
  simp [ofStream, Cursor.ofText, Cursor.ahead, LineEnding.Normalizer.rest,
    LineEnding.Normalizer.raw, LineEnding.Normalizer.ofStream]

namespace Shows

variable {s : BufferedSource ι} {c : Cursor}

theorem position_eq (h : s.Shows c) : Source.position s = Source.position c := by
  change (⟨s.offset, s.location⟩ : Mark) = ⟨_, _⟩
  rw [h.offset, h.location]
  rfl

theorem takeText (h : s.Shows c) : (Source.takeText s).1 = (Source.takeText c).1 ∧
    (Source.takeText s).2.Shows (Source.takeText c).2 := by
  refine ⟨congrArg String.ofList h.span, ?_, h.ahead, h.offset, h.location, Nat.le_refl _⟩
  change [] = c.before.drop c.index
  rw [List.drop_of_length_le (Nat.le_of_eq c.length_before)]

/-- Stepping over a code point that is held already. -/
theorem step (h : s.Shows c) {x : Char} {rest : List Char} (ha : s.ahead = x :: rest) :
    Shows { s with passed := x :: s.passed, ahead := rest, offset := s.offset + x.utf8Size,
                   location := s.location.advance x } (c.skip 1) := by
  have hc : c.ahead = x :: (rest ++ s.input.rest) := by rw [← h.ahead, ha, List.cons_append]
  have hb : (c.skip 1).before = c.before ++ [x] := by simp [Cursor.before_skip, hc]
  refine ⟨?_, ?_, ?_, ?_, ?_⟩
  · rw [Cursor.span_skip _ _ h.spanStart_le, hc, ← h.span]
    simp
  · simp [hc]
  · simp [hb, h.offset]
  · simp [hb, h.location]
  · have hl := congrArg List.length hb
    have hle := h.spanStart_le
    simp only [Cursor.length_before, List.length_append, List.length_singleton] at hl
    rw [Cursor.spanStart_skip]
    omega

/-- Back: the code points between the mark and the index are held again. -/
theorem reset_le (h : s.Shows c) {j : Nat} (hstart : c.spanStart ≤ j) (hj : j ≤ c.index) :
    (s.reset (Cursor.markAt c.text j)).Shows (c.moveTo j) ∧
      (s.reset (Cursor.markAt c.text j)).ahead.length = s.ahead.length + (c.index - j) := by
  have hle := c.index_le
  have hmark := Cursor.markAt_moveTo (show j ≤ c.text.length by omega)
  have hindex : (c.moveTo j).index = j := Nat.min_eq_left (by omega)
  have hbefore : c.before = (c.moveTo j).before ++ c.before.drop j := by
    rw [Cursor.before_moveTo hj, List.take_append_drop]
  have hpassed : s.passed = (c.before.drop j).reverse ++ (c.moveTo j).span.reverse := by
    rw [← List.reverse_append, ← Cursor.span_moveTo hstart hj, ← h.span, List.reverse_reverse]
  have hoffset : s.offset =
      utf8Length (c.moveTo j).before + utf8Length (c.before.drop j).reverse := by
    rw [h.offset, utf8Length_reverse, ← utf8Length_append, ← hbefore]
  rw [hmark, reset_back hpassed hoffset]
  refine ⟨⟨?_, ?_, rfl, rfl, ?_⟩, ?_⟩
  · exact List.reverse_reverse _
  · rw [List.reverse_reverse, List.append_assoc, h.ahead, Cursor.ahead_moveTo hj]
  · rw [hindex]
    exact hstart
  · rw [List.reverse_reverse, List.length_append, List.length_drop, Cursor.length_before,
      Nat.add_comm]

/-- Forward: the code points up to the mark are passed again. -/
theorem reset_ge (h : s.Shows c) {n : Nat} (hn : n ≤ s.ahead.length) :
    (s.reset (Cursor.markAt c.text (c.index + n))).Shows (c.skip n) ∧
      (s.reset (Cursor.markAt c.text (c.index + n))).ahead.length + n = s.ahead.length := by
  have hle := h.spanStart_le
  have hlength := congrArg List.length h.ahead
  simp only [List.length_append, Cursor.ahead, List.length_drop] at hlength
  have hindex := c.index_le
  have hmark := Cursor.markAt_moveTo (show c.index + n ≤ c.text.length by omega)
  have htake : c.ahead.take n = s.ahead.take n := by
    rw [← h.ahead, List.take_append_of_le_length hn]
  have hbefore : (c.moveTo (c.index + n)).before = c.before ++ s.ahead.take n := by
    rw [← htake]
    exact Cursor.before_skip c n
  have hahead := (List.take_append_drop n s.ahead).symm
  have hoffset : utf8Length (c.moveTo (c.index + n)).before =
      s.offset + utf8Length (s.ahead.take n) := by
    rw [hbefore, utf8Length_append, ← h.offset]
  rw [hmark, reset_forward hahead hoffset]
  refine ⟨⟨?_, ?_, rfl, rfl, ?_⟩, ?_⟩
  · rw [List.reverse_append, List.reverse_reverse, h.span, Cursor.span_skip _ _ hle, htake]
  · rw [Cursor.ahead_skip, ← h.ahead, List.drop_append_of_le_length hn]
  · change c.spanStart ≤ min (c.index + n) c.text.length
    omega
  · rw [List.length_drop]
    omega

/-- Going to a mark between the start of the span and the last code point pulled. -/
theorem reset_markAt (h : s.Shows c) {j : Nat} (hstart : c.spanStart ≤ j)
    (hpulled : j ≤ c.index + s.ahead.length) :
    (s.reset (Cursor.markAt c.text j)).Shows (c.moveTo j) ∧
      (c.moveTo j).index + (s.reset (Cursor.markAt c.text j)).ahead.length =
        c.index + s.ahead.length := by
  have hindex := c.index_le
  have hlength := congrArg List.length h.ahead
  simp only [List.length_append, Cursor.ahead, List.length_drop] at hlength
  have hj : (c.moveTo j).index = j := Nat.min_eq_left (by omega)
  by_cases hback : j ≤ c.index
  · obtain ⟨hshows, hheld⟩ := h.reset_le hstart hback
    refine ⟨hshows, ?_⟩
    omega
  · obtain ⟨n, rfl⟩ := Nat.exists_eq_add_of_le (Nat.le_of_not_le hback)
    obtain ⟨hshows, hheld⟩ := h.reset_ge (show n ≤ s.ahead.length by omega)
    refine ⟨hshows, ?_⟩
    omega

/-- Going back to where an earlier source of the span stood. What was pulled stays pulled. -/
theorem reset_position {s' : BufferedSource ι} {c' : Cursor} (h : s.Shows c) (h' : s'.Shows c')
    (ht : c'.text = c.text) (hs : c'.spanStart = c.spanStart)
    (hle : c.index + s.ahead.length ≤ c'.index + s'.ahead.length) :
    (Source.reset (Source.position s) s').Shows (Source.reset (Source.position c) c') ∧
      (Source.reset (Source.position c) c').index +
        (Source.reset (Source.position s) s').ahead.length = c'.index + s'.ahead.length := by
  have hstart := h.spanStart_le
  have hpos : Source.position c = Cursor.markAt c'.text c.index := by
    rw [ht]
    rfl
  rw [h.position_eq, hpos, Cursor.reset_markAt]
  exact h'.reset_markAt (by omega) (by omega)

variable [CharStream.Fused ι]

/-- Looking at the next code point pulls at most, and never forgets. -/
theorem peek (h : s.Shows c) :
    s.peek.1 = c.peek ∧ s.peek.2.Shows c ∧ s.ahead.length ≤ s.peek.2.ahead.length := by
  rw [Cursor.peek_eq_head?, ← h.ahead]
  cases ha : s.ahead with
  | cons x rest =>
    rw [peek_of_ahead ha]
    exact ⟨rfl, h, by simp [ha]⟩
  | nil =>
    have hahead := h.ahead
    rw [ha, List.nil_append] at hahead
    cases hn : s.input.next with
    | mk c? input =>
      have hs : s.peek = (c?, { s with input, ahead := c?.toList }) := by
        simp only [BufferedSource.peek, ha, hn]
      rw [hs]
      cases c? with
      | none =>
        obtain ⟨hr, hr'⟩ := LineEnding.Normalizer.rest_of_next_none hn
        refine ⟨by simp [hr], ⟨h.span, ?_, h.offset, h.location, h.spanStart_le⟩, Nat.le_refl _⟩
        simp [← hahead, hr, hr']
      | some x =>
        have hr := LineEnding.Normalizer.rest_of_next_some hn
        refine ⟨by simp [hr], ⟨h.span, ?_, h.offset, h.location, h.spanStart_le⟩, Nat.zero_le _⟩
        simp [← hahead, hr]

theorem consume (h : s.Shows c) :
    s.consume.1 = c.consume.1 ∧ s.consume.2.Shows c.consume.2 ∧
      c.index + s.ahead.length ≤ c.consume.2.index + s.consume.2.ahead.length := by
  obtain ⟨hp, hshows, hle⟩ := h.peek
  have hh := s.head_ahead_peek
  cases ha : s.peek.2.ahead with
  | nil =>
    have hc : c.ahead = [] := by
      rw [Cursor.ahead_eq_nil_iff, ← hp, ← hh, ha]
      rfl
    have hs : s.consume = (none, s.peek.2) := by simp only [BufferedSource.consume, ha]
    rw [hs, Cursor.consume_nil hc]
    exact ⟨rfl, hshows, Nat.add_le_add_left hle _⟩
  | cons x rest =>
    have hc : c.ahead = x :: (rest ++ s.peek.2.input.rest) := by
      rw [← hshows.ahead, ha, List.cons_append]
    have hlen := congrArg List.length hc
    rw [Cursor.consume_cons hc]
    have hstep := hshows.step ha
    simp only [Cursor.ahead, List.length_drop, List.length_cons] at hlen
    refine ⟨by simp only [BufferedSource.consume, ha], ?_, ?_⟩
    · simpa only [BufferedSource.consume, ha] using hstep
    · have hl := congrArg List.length ha
      simp only [BufferedSource.consume, ha, Cursor.skip, Cursor.index_moveTo]
      simp only [List.length_cons] at hl
      omega

end Shows

variable (ι) [CharStream.Fused ι]

/-- A buffered source over a fused stream behaves like the cursor that it shows. Marks stay good
while the span begins at the same place and nothing that was pulled is lost. -/
def asCursor : Simulation (BufferedSource ι) Cursor where
  Rel := Shows
  Later p q := q.2.text = p.2.text ∧ q.2.spanStart = p.2.spanStart ∧
    p.2.index + p.1.ahead.length ≤ q.2.index + q.1.ahead.length
  later_refl _ := ⟨rfl, rfl, Nat.le_refl _⟩
  later_trans _ _ _ := by
    rintro ⟨ht, hs, hle⟩ ⟨ht', hs', hle'⟩
    exact ⟨ht'.trans ht, hs'.trans hs, Nat.le_trans hle hle'⟩
  peek s c h := by
    obtain ⟨hp, hshows, hle⟩ := h.peek
    exact ⟨hp, hshows, rfl, rfl, Nat.add_le_add_left hle _⟩
  consume s c h := by
    obtain ⟨ha, hshows, hle⟩ := h.consume
    obtain ⟨n, hn⟩ := Cursor.exists_skip .consume c
    refine ⟨ha, hshows, ?_, ?_, hle⟩
    · exact (congrArg Cursor.text hn).trans (c.text_skip n)
    · exact (congrArg Cursor.spanStart hn).trans (c.spanStart_skip n)
  reset s c s' c' h h' := by
    rintro ⟨ht, hs, hle⟩
    change c'.text = c.text at ht
    change c'.spanStart = c.spanStart at hs
    obtain ⟨hshows, hheld⟩ := h.reset_position h' ht hs hle
    exact ⟨hshows, ht, hs, Nat.le_trans hle (Nat.le_of_eq hheld.symm)⟩
  location s c h := h.location
  takeText s c h := h.takeText

end BufferedSource

namespace IndexedSource

/-- The source stands where the cursor stands. -/
structure Shows (s : IndexedSource) (c : Cursor) : Prop where
  text : s.chars.toList = c.text
  index : s.index = c.index
  spanStart : s.spanStart = c.spanStart
  location : s.location = Location.start.advanceAll c.before

theorem shows_ofString (text : String) : (ofString text).Shows (.ofText text.toList) :=
  ⟨rfl, rfl, rfl, rfl⟩

namespace Shows

variable {s : IndexedSource} {c : Cursor}

theorem peek (h : s.Shows c) : s.peek = c.peek := by
  rw [IndexedSource.peek, Cursor.peek, ← h.text, ← h.index, Array.getElem?_toList]

theorem consume (h : s.Shows c) :
    s.consume.1 = c.consume.1 ∧ s.consume.2.Shows c.consume.2 := by
  have hp := h.peek
  cases hc : c.ahead with
  | nil =>
    rw [(c.ahead_eq_nil_iff).mp hc] at hp
    have hs : s.consume = (none, s) := by simp only [IndexedSource.consume, hp]
    rw [hs, Cursor.consume_nil hc]
    exact ⟨rfl, h⟩
  | cons x rest =>
    rw [c.peek_eq_head?, hc, List.head?_cons] at hp
    have hs : s.consume =
        (some x, { s with index := s.index + 1, location := s.location.advance x }) := by
      simp only [IndexedSource.consume, hp]
    have hb : (c.skip 1).before = c.before ++ [x] := by simp [Cursor.before_skip, hc]
    have hl := congrArg List.length hb
    rw [List.length_append, Cursor.length_before, Cursor.length_before] at hl
    rw [hs, Cursor.consume_cons hc]
    refine ⟨rfl, h.text, ?_, h.spanStart, by simp [hb, h.location]⟩
    rw [hl, h.index]
    rfl

theorem takeText (h : s.Shows c) : (Source.takeText s).1 = (Source.takeText c).1 ∧
    (Source.takeText s).2.Shows (Source.takeText c).2 := by
  refine ⟨?_, h.text, h.index, h.index, h.location⟩
  change String.ofList (s.chars.extract s.spanStart s.index).toList = String.ofList c.span
  rw [Array.toList_extract, h.text, h.index, h.spanStart, Cursor.span, Cursor.before,
    List.extract_eq_take_drop, List.drop_take]

end Shows

/-- An indexed source behaves like the cursor that it shows. -/
def asCursor : Simulation IndexedSource Cursor where
  Rel := Shows
  Later p q := q.2.text = p.2.text ∧ q.2.spanStart = p.2.spanStart
  later_refl _ := ⟨rfl, rfl⟩
  later_trans _ _ _ := by
    rintro ⟨ht, hs⟩ ⟨ht', hs'⟩
    exact ⟨ht'.trans ht, hs'.trans hs⟩
  peek s c h := ⟨h.peek, h, rfl, rfl⟩
  consume s c h := by
    obtain ⟨ha, hshows⟩ := h.consume
    obtain ⟨n, hn⟩ := Cursor.exists_skip .consume c
    refine ⟨ha, hshows, ?_, ?_⟩
    · exact (congrArg Cursor.text hn).trans (c.text_skip n)
    · exact (congrArg Cursor.spanStart hn).trans (c.spanStart_skip n)
  reset s c s' c' h h' := by
    rintro ⟨ht, hs⟩
    change c'.text = c.text at ht
    have hpos : Source.position c = Cursor.markAt c'.text c.index := by
      rw [ht]
      rfl
    have hind := c.index_le
    have hb : (c'.moveTo c.index).before = c.before := by
      simp [Cursor.before, ht, Nat.min_eq_left hind]
    rw [hpos, Cursor.reset_markAt]
    refine ⟨⟨h'.text, ?_, h'.spanStart, ?_⟩, ht, hs⟩
    · change s.index = min c.index c'.text.length
      rw [h.index, ht, Nat.min_eq_left hind]
    · change s.location = _
      rw [h.location, hb]
  location s c h := h.location
  takeText s c h := h.takeText

end IndexedSource
end Stylesheet
