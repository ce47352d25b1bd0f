import Mathlib.Data.List.Infix
import Stylesheet.Proofs.Accounts
import Stylesheet.Proofs.Span

/-!
# Routines

A routine is whatever can be done with a source: one call after another, each chosen by the answers
before it, and routines that are undone unless their answer is to be kept. What a routine has pulled
from the stream stays pulled when it is undone, so the source is not what it was. Main statement:
over a fused stream no routine can tell, and a routine that is kept leaves what it left.
-/
namespace Stylesheet

inductive Routine : Type → Type 1 where
  | answer {α : Type} (a : α) : Routine α
  | call {α : Type} (c : Call) (next : Answer → Routine α) : Routine α
  /-- A routine that is undone unless its answer is to be kept, and what comes after it. -/
  | keepIf {α β : Type} (keep : β → Bool) (inner : Routine β) (next : β → Routine α) : Routine α

namespace Routine

/-- What the routine does with a source. -/
def run {σ : Type} [Source σ] {α : Type} : Routine α → Scan σ α
  | answer a => pure a
  | call c next => do run (next (← c.scan))
  | keepIf keep inner next => do run (next (← Scan.keepIf keep (run inner)))

variable {ι : Type} [CharStream ι] {α : Type}

/-- From this source the routine takes no text, and goes to marks of its span only. -/
def Quiet : {α : Type} → Routine α → BufferedSource ι → Prop
  | _, answer _, _ => True
  | _, call c next, s =>
    c ≠ .takeText ∧ (∀ mark, c = .reset mark → s.Covers mark) ∧
      Quiet (next (c.scan s).1) (c.scan s).2
  | _, keepIf keep inner next, s =>
    Quiet inner s ∧
      Quiet (next (Scan.keepIf keep inner.run s).1) (Scan.keepIf keep inner.run s).2

/-- From this source the routine goes to marks only of the span that there is then, also where it
undoes a part of itself. It may take text. -/
def Within : {α : Type} → Routine α → BufferedSource ι → Prop
  | _, answer _, _ => True
  | _, call c next, s =>
    (∀ mark, c = .reset mark → s.Covers mark) ∧ Within (next (c.scan s).1) (c.scan s).2
  | _, keepIf keep inner next, s =>
    Within inner s ∧ (keep (inner.run s).1 = false → (inner.run s).2.Covers s.position) ∧
      Within (next (Scan.keepIf keep inner.run s).1) (Scan.keepIf keep inner.run s).2

end Routine

namespace BufferedSource

variable {ι : Type} [CharStream ι] {s s' t t' : BufferedSource ι} {α : Type}

theorem sameSpan_call {call : Call} (ht : call ≠ .takeText)
    (hreset : ∀ mark, call = .reset mark → s.Covers mark) : SameSpan s (call.scan s).2 := by
  obtain ⟨hu, -⟩ | rfl | rfl | ⟨mark, rfl⟩ :=
    Call.uniform_scan (σ := BufferedSource ι) (τ := BufferedSource ι) call
  · obtain ⟨consumed, hs⟩ := exists_strides hu s
    exact hs.toSameSpan
  · exact .refl s
  · contradiction
  · exact (hreset mark rfl).sameSpan

/-- A quiet routine stays in the span, however much of it is undone. -/
theorem sameSpan_run {routine : Routine α} (h : routine.Quiet s) :
    SameSpan s (routine.run s).2 := by
  induction routine generalizing s with
  | answer a => exact .refl s
  | call c next ih =>
    obtain ⟨ht, hreset, hnext⟩ := h
    exact (sameSpan_call ht hreset).trans (ih _ hnext)
  | keepIf keep inner next ihi ihn =>
    obtain ⟨hinner, hnext⟩ := h
    have hspan := ihi hinner
    refine SameSpan.trans ?_ (ihn _ hnext)
    cases hk : keep (inner.run s).1 with
    | true =>
      rw [Scan.keepIf_of_keep hk]
      exact hspan
    | false =>
      rw [Scan.keepIf_of_not_keep hk]
      exact hspan.trans hspan.covers_position.sameSpan

/-! ## Sources that cannot be told apart -/

/-- The sources differ only in how much they have pulled, and the second has pulled no less. -/
structure Twin (s t : BufferedSource ι) : Prop where
  passed : t.passed = s.passed
  ahead : s.ahead <+: t.ahead
  upcoming : t.upcoming = s.upcoming
  offset : t.offset = s.offset
  location : t.location = s.location

theorem Twin.position_eq (h : Twin s t) : t.position = s.position :=
  congrArg₂ Mark.mk h.offset h.location

theorem Twin.takeText (h : Twin s t) :
    t.takeText.1 = s.takeText.1 ∧ Twin s.takeText.2 t.takeText.2 := by
  refine ⟨?_, rfl, h.ahead, h.upcoming, h.offset, h.location⟩
  rw [BufferedSource.takeText, BufferedSource.takeText, h.passed]

theorem Twin.sameSpan (h : Twin s t) : SameSpan s t := by
  obtain ⟨more, hmore⟩ := h.ahead
  refine ⟨⟨more, ?_⟩, ?_, ?_⟩
  · rw [buffer, buffer, h.passed, ← hmore, List.append_assoc]
  · rw [h.passed, h.offset]
  · intro hfused
    rw [whole, whole, h.passed, h.upcoming]

/-- Sources that have the same behind the same span have the same altogether. -/
theorem upcoming_eq_of_whole_eq (hw : t.whole = s.whole) (hp : t.passed = s.passed) :
    t.upcoming = s.upcoming := by
  rw [whole, whole, hp] at hw
  exact List.append_cancel_left hw

variable [CharStream.Fused ι]

/-- Twins that go to one mark are twins. -/
theorem Twin.reset (h : Twin s t) {mark : Mark} (hc : s.Covers mark) :
    Twin (s.reset mark) (t.reset mark) := by
  obtain ⟨before, behind, hd⟩ := hc
  obtain ⟨more, hd'⟩ := h.sameSpan.divides hd
  have hwhole : (t.reset mark).whole = (s.reset mark).whole := by
    rw [hd'.sameSpan.whole, hd.sameSpan.whole, h.sameSpan.whole]
  have hpassed : (t.reset mark).passed = (s.reset mark).passed := by rw [hd.reset, hd'.reset]
  refine ⟨hpassed, ?_, upcoming_eq_of_whole_eq hwhole hpassed, ?_, ?_⟩
  · rw [hd.reset, hd'.reset]
    exact List.prefix_append _ _
  · rw [hd.reset, hd'.reset]
  · rw [hd.reset, hd'.reset]

/-- Going back to where the source stood undoes all but what was pulled. -/
theorem SameSpan.twin_reset (h : SameSpan s s') : Twin s (s'.reset s.position) := by
  obtain ⟨more, hreset⟩ := h.reset_position
  have hwhole := h.covers_position.sameSpan.whole.trans h.whole
  have hpassed : (s'.reset s.position).passed = s.passed := by rw [hreset]
  refine ⟨hpassed, ?_, upcoming_eq_of_whole_eq hwhole hpassed, ?_, ?_⟩
  · rw [hreset]
    exact List.prefix_append _ _
  · rw [hreset]
  · rw [hreset]

/-- Twins that move on alike are twins. -/
theorem Twin.strides (h : Twin s t) {consumed : List Char} (hs : Strides consumed s s')
    (ht : Strides consumed t t') (ha : s'.ahead <+: t'.ahead) : Twin s' t' := by
  refine ⟨?_, ha, ?_, ?_, ?_⟩
  · rw [hs.passed, ht.passed, h.passed]
  · have hupcoming := ht.upcoming_eq
    rw [h.upcoming, hs.upcoming_eq] at hupcoming
    exact (List.append_cancel_left hupcoming).symm
  · rw [hs.offset_eq, ht.offset_eq, h.offset]
  · rw [hs.location, ht.location, h.location]

theorem Twin.peek (h : Twin s t) : t.peek.1 = s.peek.1 ∧ Twin s.peek.2 t.peek.2 := by
  have hanswer : t.peek.1 = s.peek.1 := by rw [fst_peek, fst_peek, h.upcoming]
  refine ⟨hanswer, h.strides s.strides_peek t.strides_peek ?_⟩
  cases ha : s.ahead with
  | cons c rest =>
    obtain ⟨more, hmore⟩ := h.ahead
    rw [ha, List.cons_append] at hmore
    rw [peek_of_ahead ha, peek_of_ahead hmore.symm]
    exact h.ahead
  | nil =>
    -- The first has pulled just what it was asked for, and the second that at least.
    have hpulled : s.peek.2.ahead = s.peek.1.toList := by
      simp only [BufferedSource.peek, ha]
    rw [hpulled, ← hanswer, ← t.head_ahead_peek]
    cases t.peek.2.ahead with
    | nil => exact List.prefix_rfl
    | cons c rest => exact List.prefix_append [c] rest

theorem Twin.consume (h : Twin s t) :
    t.consume.1 = s.consume.1 ∧ Twin s.consume.2 t.consume.2 := by
  obtain ⟨hanswer, hpeek⟩ := h.peek
  have hconsume : t.consume.1 = s.consume.1 := by rw [fst_consume, fst_consume, hanswer]
  have ht := t.strides_consume
  rw [hconsume] at ht
  refine ⟨hconsume, h.strides s.strides_consume ht ?_⟩
  rw [ahead_consume, ahead_consume, ← List.drop_one, ← List.drop_one]
  exact List.IsPrefix.drop hpeek.ahead 1

variable (ι)

/-- Whatever reads twins reads them alike. -/
def twins : Simulation (BufferedSource ι) (BufferedSource ι) where
  Rel := Twin
  Later p q := SameSpan p.1 q.1 ∧ SameSpan p.2 q.2
  later_refl p := ⟨.refl p.1, .refl p.2⟩
  later_trans p q r h h' := ⟨h.1.trans h'.1, h.2.trans h'.2⟩
  peek s t h := by
    obtain ⟨hanswer, htwin⟩ := h.peek
    exact ⟨hanswer.symm, htwin, s.sameSpan_peek, t.sameSpan_peek⟩
  consume s t h := by
    obtain ⟨hanswer, htwin⟩ := h.consume
    exact ⟨hanswer.symm, htwin, s.strides_consume.toSameSpan, t.strides_consume.toSameSpan⟩
  reset s t s' t' h h' := by
    rintro ⟨hs, ht⟩
    have htwin := h'.reset hs.covers_position
    rw [← h.position_eq] at htwin
    refine ⟨?_, hs.trans hs.covers_position.sameSpan, ht.trans ht.covers_position.sameSpan⟩
    change Twin (s'.reset s.position) (t'.reset t.position)
    rwa [← h.position_eq]
  location s t h := h.location.symm
  takeText s t h := ⟨h.takeText.1.symm, h.takeText.2⟩

variable {ι}

theorem Twin.call (h : Twin s t) {call : Call}
    (hreset : ∀ mark, call = .reset mark → s.Covers mark) :
    (call.scan t).1 = (call.scan s).1 ∧ Twin (call.scan s).2 (call.scan t).2 := by
  obtain ⟨hu, -⟩ | rfl | rfl | ⟨mark, rfl⟩ :=
    Call.uniform_scan (σ := BufferedSource ι) (τ := BufferedSource ι) call
  · have hagree := (twins ι).agrees hu h
    exact ⟨hagree.answer.symm, hagree.rel⟩
  · exact ⟨congrArg Answer.mark h.position_eq, h⟩
  · exact ⟨congrArg Answer.text h.takeText.1, h.takeText.2⟩
  · exact ⟨rfl, h.reset (hreset mark rfl)⟩

/-- Every routine does the same with twins. -/
theorem Twin.run (h : Twin s t) {routine : Routine α} (hw : routine.Within s) :
    (routine.run t).1 = (routine.run s).1 ∧ Twin (routine.run s).2 (routine.run t).2 := by
  induction routine generalizing s t with
  | answer a => exact ⟨rfl, h⟩
  | call c next ih =>
    obtain ⟨hreset, hnext⟩ := hw
    obtain ⟨hanswer, htwin⟩ := h.call hreset
    simp only [Routine.run, Scan.bind_apply, hanswer]
    exact ih _ htwin hnext
  | keepIf keep inner next ihi ihn =>
    obtain ⟨hinner, hundo, hnext⟩ := hw
    obtain ⟨hanswer, htwin⟩ := ihi h hinner
    have hkept : (Scan.keepIf keep inner.run t).1 = (Scan.keepIf keep inner.run s).1 ∧
        Twin (Scan.keepIf keep inner.run s).2 (Scan.keepIf keep inner.run t).2 := by
      cases hk : keep (inner.run s).1 with
      | true =>
        rw [Scan.keepIf_of_keep hk, Scan.keepIf_of_keep (hanswer ▸ hk)]
        exact ⟨hanswer, htwin⟩
      | false =>
        rw [Scan.keepIf_of_not_keep hk, Scan.keepIf_of_not_keep (hanswer ▸ hk)]
        have hreset := htwin.reset (hundo hk)
        refine ⟨hanswer, ?_⟩
        change Twin ((inner.run s).2.reset s.position) ((inner.run t).2.reset t.position)
        rwa [h.position_eq]
    simp only [Routine.run, Scan.bind_apply, hkept.1]
    exact ihn _ hkept.2 hnext

/-! ## Undoing -/

/-- The second source stands where the first one stands, behind the same span, and whatever is done
from there on is answered alike. -/
structure Undone (s t : BufferedSource ι) : Prop where
  position : t.position = s.position
  span : t.takeText.1 = s.takeText.1
  marks : ∀ mark, s.Covers mark → t.Covers mark
  later : ∀ {α : Type} (routine : Routine α), routine.Within s →
    (routine.run t).1 = (routine.run s).1
  tokens : ∀ n, (Tokenizer.ofSource t).answers n = (Tokenizer.ofSource s).answers n

theorem Twin.undone (h : Twin s t) : Undone s t where
  position := h.position_eq
  span := h.takeText.1
  marks _ := h.sameSpan.covers
  later _ hw := (h.run hw).1
  tokens n := ((twins ι).answers_eq ((twins ι).alike_ofSource h) n).symm

/-- A quiet routine that is not kept cannot be noticed. -/
theorem undone_keepIf {keep : α → Bool} {routine : Routine α} (h : routine.Quiet s)
    (hk : keep (routine.run s).1 = false) :
    (Scan.keepIf keep routine.run s).1 = (routine.run s).1 ∧
      Undone s (Scan.keepIf keep routine.run s).2 := by
  rw [Scan.keepIf_of_not_keep hk]
  exact ⟨rfl, (sameSpan_run h).twin_reset.undone⟩

/-- Going back is atomic. A quiet routine that has no answer cannot be noticed after an attempt at
it, and neither can one that was only to look ahead; a routine that has an answer leaves the source
as it leaves it without the attempt. -/
theorem backtracking_atomic (s : BufferedSource ι) :
    (∀ {α : Type} (routine : Routine (Option α)), routine.Quiet s →
      ((routine.run s).1 = none →
        (Scan.attempt? routine.run s).1 = none ∧ Undone s (Scan.attempt? routine.run s).2) ∧
      ((routine.run s).1.isSome = true → Scan.attempt? routine.run s = routine.run s)) ∧
    ∀ routine : Routine Bool, routine.Quiet s →
      (Scan.lookahead routine.run s).1 = (routine.run s).1 ∧
        Undone s (Scan.lookahead routine.run s).2 := by
  refine ⟨?_, ?_⟩
  · intro α routine h
    refine ⟨?_, ?_⟩
    · intro hnone
      have hk : (routine.run s).1.isSome = false := by rw [hnone, Option.isSome_none]
      obtain ⟨hanswer, hundone⟩ := undone_keepIf h hk
      exact ⟨hanswer.trans hnone, hundone⟩
    · intro hsome
      exact Scan.keepIf_of_keep hsome
  · intro routine h
    exact undone_keepIf h rfl

/-- A routine goes over a code point and looks at the line ending behind it, goes back to a mark of
its own, and has no answer. -/
theorem backtracking_atomic_nested :
    Undone (ofString "a\r\nb")
      (Scan.attempt?
        (Routine.call .position fun start => .call .consume fun _ =>
          .keepIf id (.call (.acceptChar '\n') fun _ => .answer false) fun _ =>
            .call (.reset (start.marks.headD ⟨0, .start⟩)) fun _ =>
              .answer (none : Option Unit)).run (ofString "a\r\nb")).2 := by
  refine (((backtracking_atomic (ofString "a\r\nb")).1 _ ?_).1 rfl).2
  refine ⟨nofun, nofun, nofun, nofun, ⟨nofun, nofun, trivial⟩, nofun, ?_, trivial⟩
  rintro mark ⟨⟩
  exact ⟨[], ['a', '\n'], rfl, rfl⟩

end BufferedSource
end Stylesheet
