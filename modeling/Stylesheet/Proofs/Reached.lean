import Stylesheet.Proofs.Accounts
import Stylesheet.Proofs.Operations
import Stylesheet.Proofs.Span

/-!
# Reached sources

A source is reached by calls of it and by tokenizers over it, in any order; going back or forward is
to marks that were made, and not out of the span. Main statements: a reached buffered source stands
behind the text that was taken from it and its span, and every mark that can be used is the mark of
a place in its buffer. If its stream is fused, it shows a cursor.
-/
namespace Stylesheet

/-! ## Ways to reach a source -/

/-- The call goes to none but these marks, and does not take text. -/
def Call.Keeps (marks : List Mark) : Call → Prop
  | takeText => False
  | reset mark => mark ∈ marks
  | _ => True

theorem Call.marks_scan {σ : Type} [Source σ] {call : Call} {s : σ} (h : call ≠ .position) :
    (call.scan s).1.marks = [] := by
  cases call with
  | position => contradiction
  | _ => rfl

/-- The marks that are not left behind by a source that has its text taken here. -/
def kept {σ : Type} [Source σ] (marks : List Mark) (s : σ) : List Mark :=
  marks.filter fun mark => (Source.position s).offset ≤ mark.offset

/-- A source that came about from `origin`, with the text that was taken from it on the way and the
marks that can be gone to. -/
inductive Reached {σ : Type} [Source σ] (origin : σ) : List Char → List Mark → σ → Prop
  | origin : Reached origin [] [] origin
  | called {taken : List Char} {marks : List Mark} {s : σ} (h : Reached origin taken marks s)
      (call : Call) (hcall : call.Keeps marks) :
      Reached origin taken ((call.scan s).1.marks ++ marks) (call.scan s).2
  | textTaken {taken : List Char} {marks : List Mark} {s : σ} (h : Reached origin taken marks s) :
      Reached origin (taken ++ (Source.takeText s).1.toList) (kept marks (Source.takeText s).2)
        (Source.takeText s).2
  | returned {taken : List Char} {marks : List Mark} {t : Tokenizer σ} {token : Token}
      (h : Reached origin taken marks t.source) (ht : t.nextToken.1 = .ok token) :
      Reached origin (taken ++ token.text.toList) (kept marks t.nextToken.2.source)
        t.nextToken.2.source
  | failed {taken : List Char} {marks : List Mark} {t : Tokenizer σ} {failure : Failure}
      (h : Reached origin taken marks t.source) (ht : t.nextToken.1 = .error failure) :
      Reached origin taken marks t.nextToken.2.source

/-- What holds of `origin`, and is kept by uniform scans, by marking a place, by going to a mark and
by taking text, holds of whatever is reached. -/
theorem Reached.keeps {σ τ : Type} [Source σ] [Source τ] {origin s : σ} {taken : List Char}
    {marks : List Mark} (h : Reached origin taken marks s)
    {I : List Char → List Mark → σ → Prop} (horigin : I [] [] origin)
    (hscan : ∀ {α : Type} {scan : Scan σ α} {scan' : Scan τ α} {taken marks s},
      Uniform scan scan' → I taken marks s → I taken marks (scan s).2)
    (hposition : ∀ {taken marks s}, I taken marks s → I taken (Source.position s :: marks) s)
    (hreset : ∀ {taken marks s mark}, I taken marks s → mark ∈ marks →
      I taken marks (Source.reset mark s))
    (htake : ∀ {taken marks s}, I taken marks s →
      I (taken ++ (Source.takeText s).1.toList) (kept marks (Source.takeText s).2)
        (Source.takeText s).2) : I taken marks s := by
  induction h with
  | origin => exact horigin
  | called _ call hcall ih =>
    obtain ⟨hu, -⟩ | rfl | rfl | ⟨mark, rfl⟩ := Call.uniform_scan (σ := σ) (τ := τ) call
    · by_cases hp : call = .position
      · subst hp
        exact hposition ih
      · rw [Call.marks_scan hp]
        exact hscan hu ih
    · exact hposition ih
    · exact hcall.elim
    · exact hreset ih hcall
  | textTaken _ ih => exact htake ih
  | @returned _ _ t token _ ht ih =>
    obtain ⟨failure, hfailed, -⟩ | ⟨kind, hreturned, hsource⟩ := t.source_nextToken
    · rw [ht] at hfailed
      contradiction
    · obtain rfl := Except.ok.inj (ht.symm.trans hreturned)
      rw [hsource]
      exact htake (hscan (.kindAmong t.blocks) ih)
  | @failed _ _ t failure _ ht ih =>
    obtain ⟨failure, -, hsource | hsource⟩ | ⟨kind, hreturned, -⟩ := t.source_nextToken
    · rwa [hsource]
    · rw [hsource]
      exact hscan (.kindAmong t.blocks) ih
    · rw [ht] at hreturned
      contradiction

/-! ## Buffered sources -/

theorem eq_nil_of_utf8Length_eq_zero {cs : List Char} (h : utf8Length cs = 0) : cs = [] := by
  cases cs with
  | nil => rfl
  | cons c cs =>
    have hc := c.utf8Size_pos
    rw [utf8Length_cons] at h
    omega

namespace BufferedSource

section Lies

variable {ι : Type} {taken : List Char} {marks : List Mark} {s s' : BufferedSource ι}

/-- The source stands behind what was taken and the span, and each of the marks is the mark of a
place in the buffer. -/
structure Lies (taken : List Char) (marks : List Mark) (s : BufferedSource ι) : Prop where
  position : s.position = .behind (taken ++ s.passed.reverse)
  marks : ∀ mark ∈ marks, ∃ before behind, s.buffer = before ++ behind ∧
    mark = .behind (taken ++ before)

theorem Lies.location (h : Lies taken marks s) :
    s.location = Location.start.advanceAll (taken ++ s.passed.reverse) :=
  congrArg Mark.location h.position

theorem Lies.offset (h : Lies taken marks s) :
    s.offset = utf8Length taken + utf8Length s.passed := by
  have hoffset : s.offset = utf8Length (taken ++ s.passed.reverse) :=
    congrArg Mark.offset h.position
  rwa [utf8Length_append, utf8Length_reverse] at hoffset

theorem Lies.passed_le_offset (h : Lies taken marks s) : utf8Length s.passed ≤ s.offset := by
  have hoffset := h.offset
  omega

/-- The mark of a place in the buffer divides it there. -/
theorem Lies.divides (h : Lies taken marks s) {before behind : List Char}
    (hbuffer : s.buffer = before ++ behind) :
    s.Divides (.behind (taken ++ before)) before behind := by
  have hoffset := h.offset
  refine ⟨hbuffer, ?_⟩
  simp only [Mark.behind, utf8Length_append]
  omega

theorem Lies.cons_position (h : Lies taken marks s) : Lies taken (s.position :: marks) s := by
  refine ⟨h.position, ?_⟩
  intro mark hmem
  obtain rfl | hmem := List.mem_cons.mp hmem
  · exact ⟨s.passed.reverse, s.ahead, rfl, h.position⟩
  · exact h.marks mark hmem

theorem Lies.reset (h : Lies taken marks s) {mark : Mark} (hmem : mark ∈ marks) :
    Lies taken marks (s.reset mark) := by
  obtain ⟨before, behind, hbuffer, rfl⟩ := h.marks mark hmem
  have hdivides := h.divides hbuffer
  refine ⟨?_, ?_⟩
  · rw [hdivides.reset, List.reverse_reverse]
    rfl
  · rw [hdivides.buffer_reset]
    exact h.marks

end Lies

variable {ι : Type} [CharStream ι] {taken : List Char} {marks : List Mark}
  {s s' : BufferedSource ι}

theorem Lies.takeText (h : Lies taken marks s) :
    Lies (taken ++ s.takeText.1.toList) (kept marks s.takeText.2) s.takeText.2 := by
  have htext : s.takeText.1.toList = s.passed.reverse := String.toList_ofList
  rw [htext]
  refine ⟨?_, ?_⟩
  · rw [show s.takeText.2.passed.reverse = [] from rfl, List.append_nil]
    exact h.position
  · intro mark hmem
    obtain ⟨hmem, hle⟩ := List.mem_filter.mp hmem
    obtain ⟨before, behind, hbuffer, rfl⟩ := h.marks mark hmem
    have hle : s.offset ≤ utf8Length (taken ++ before) := of_decide_eq_true hle
    rw [h.offset, utf8Length_append] at hle
    rw [buffer, List.append_eq_append_iff] at hbuffer
    obtain ⟨between, rfl, hahead⟩ | ⟨between, hpassed, rfl⟩ := hbuffer
    · exact ⟨between, behind, hahead, by rw [List.append_assoc]⟩
    · -- Not before where the source stands, so just there.
      have hlength := congrArg utf8Length hpassed
      rw [utf8Length_reverse, utf8Length_append] at hlength
      obtain rfl : between = [] := eq_nil_of_utf8Length_eq_zero (by omega)
      rw [List.append_nil] at hpassed
      exact ⟨[], s.ahead, rfl, by rw [hpassed, List.append_nil]⟩

theorem Lies.strides (h : Lies taken marks s) {consumed : List Char}
    (hs : Strides consumed s s') : Lies taken marks s' := by
  refine ⟨?_, ?_⟩
  · have hplace : taken ++ s'.passed.reverse = taken ++ s.passed.reverse ++ consumed := by
      rw [hs.passed, List.reverse_append, List.reverse_reverse, List.append_assoc]
    have hoffset : s'.offset = utf8Length (taken ++ s'.passed.reverse) := by
      rw [hs.offset_eq, h.offset, hplace, utf8Length_append, utf8Length_append, utf8Length_reverse]
    have hlocation : s'.location = Location.start.advanceAll (taken ++ s'.passed.reverse) := by
      rw [hs.location, h.location, hplace, ← Location.advanceAll_append]
    exact congrArg₂ Mark.mk hoffset hlocation
  · intro mark hmem
    obtain ⟨before, behind, hbuffer, hmark⟩ := h.marks mark hmem
    obtain ⟨more, hmore⟩ := hs.buffer
    refine ⟨before, behind ++ more, ?_, hmark⟩
    rw [← hmore, hbuffer, List.append_assoc]

theorem lies_of_reached {input : ι} (h : Reached (ofStream input) taken marks s) :
    Lies taken marks s := by
  apply h.keeps (τ := BufferedSource ι)
  · exact ⟨rfl, nofun⟩
  · intro α scan scan' taken marks s hu hlies
    obtain ⟨consumed, hs⟩ := exists_strides hu.left s
    exact hlies.strides hs
  · intro taken marks s hlies
    exact hlies.cons_position
  · intro taken marks s mark hlies hmem
    exact hlies.reset hmem
  · intro taken marks s hlies
    exact hlies.takeText

theorem length_passed_le_whole (taken : List Char) (s : BufferedSource ι) :
    taken.length + s.passed.length ≤ (taken ++ s.whole).length := by
  rw [whole, List.length_append, List.length_append, List.length_reverse]
  omega

/-- The cursor over the text that was taken, the span and what can still be consumed. -/
def cursor (taken : List Char) (s : BufferedSource ι) : Cursor where
  text := taken ++ s.whole
  index := taken.length + s.passed.length
  spanStart := taken.length
  index_le := length_passed_le_whole taken s

/-- A reached source shows a cursor, whatever is left of its stream. -/
theorem Lies.shows (h : Lies taken marks s) : s.Shows (s.cursor taken) := by
  have hbefore : (s.cursor taken).before = taken ++ s.passed.reverse := by
    have hlength : (taken ++ s.passed.reverse).length = taken.length + s.passed.length := by simp
    change (taken ++ (s.passed.reverse ++ s.upcoming)).take (taken.length + s.passed.length) = _
    rw [← List.append_assoc, ← hlength, List.take_left]
  have hahead : (s.cursor taken).ahead = s.upcoming := by
    have hwhole := (s.cursor taken).before_append_ahead
    rw [hbefore, List.append_assoc] at hwhole
    exact List.append_cancel_left (List.append_cancel_left hwhole)
  refine ⟨?_, hahead.symm, ?_, ?_, Nat.le_add_right _ _⟩
  · rw [Cursor.span, hbefore]
    exact (List.drop_left).symm
  · rw [hbefore]
    exact congrArg Mark.offset h.position
  · rw [hbefore]
    exact h.location

end BufferedSource

/-! ## Indexed sources -/

namespace IndexedSource

/-- The source shows a cursor, and each of the marks is the mark of a place in its text. -/
structure Lies (marks : List Mark) (s : IndexedSource) (c : Cursor) : Prop where
  shows : s.Shows c
  marks : ∀ mark ∈ marks, ∃ i ≤ c.text.length,
    mark = ⟨i, Location.start.advanceAll (c.text.take i)⟩

variable {marks : List Mark} {s s' : IndexedSource} {c c' : Cursor}

theorem Lies.moved (h : Lies marks s c) (hshows : s'.Shows c') (ht : c'.text = c.text) :
    Lies marks s' c' := by
  refine ⟨hshows, ?_⟩
  rw [ht]
  exact h.marks

theorem Lies.cons_position (h : Lies marks s c) : Lies (Source.position s :: marks) s c := by
  refine ⟨h.shows, ?_⟩
  intro mark hmem
  obtain rfl | hmem := List.mem_cons.mp hmem
  · exact ⟨c.index, c.index_le, congrArg₂ Mark.mk h.shows.index h.shows.location⟩
  · exact h.marks mark hmem

theorem Lies.reset (h : Lies marks s c) {mark : Mark} (hmem : mark ∈ marks) :
    ∃ c', Lies marks (Source.reset mark s) c' := by
  obtain ⟨i, hi, rfl⟩ := h.marks mark hmem
  have hindex : (c.moveTo i).index = i := Nat.min_eq_left hi
  refine ⟨c.moveTo i, h.moved ⟨h.shows.text, hindex.symm, h.shows.spanStart, ?_⟩ rfl⟩
  rw [Cursor.before, hindex]
  rfl

theorem Lies.takeText (h : Lies marks s c) :
    Lies (kept marks (Source.takeText s).2) (Source.takeText s).2 (Source.takeText c).2 := by
  refine ⟨h.shows.takeText.2, ?_⟩
  intro mark hmem
  exact h.marks mark (List.mem_filter.mp hmem).1

/-- Scans do not leave the text. -/
theorem Lies.scan (h : Lies marks s c) {α : Type} {scan : Scan IndexedSource α}
    {scan' : Scan Cursor α} (hu : Uniform scan scan') : Lies marks (scan s).2 (scan' c).2 := by
  have hagree := asCursor.agrees hu h.shows
  exact h.moved hagree.rel hagree.later.1

theorem exists_lies_of_reached {text : String} {taken : List Char}
    (h : Reached (ofString text) taken marks s) : ∃ c, Lies marks s c := by
  apply h.keeps (τ := Cursor) (I := fun _ marks s => ∃ c, Lies marks s c)
  · exact ⟨_, shows_ofString text, nofun⟩
  · rintro α scan scan' - marks s hu ⟨c, hc⟩
    exact ⟨_, hc.scan hu⟩
  · rintro - marks s ⟨c, hc⟩
    exact ⟨c, hc.cons_position⟩
  · rintro - marks s mark ⟨c, hc⟩ hmem
    exact hc.reset hmem
  · rintro - marks s ⟨c, hc⟩
    exact ⟨_, hc.takeText⟩

end IndexedSource
end Stylesheet
