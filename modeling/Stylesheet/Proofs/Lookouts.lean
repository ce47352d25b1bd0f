import Stylesheet.Proofs.Taking
import Stylesheet.Proofs.Views

/-!
# Lookouts

A scan may look further than it goes. A lookout is a cursor that remembers how far it has looked,
and `Looks scan c R` says how far a scan goes from a cursor and how far it looks, with a rule for
each combinator. Main statement: a buffered source behaves like a lookout, and what it holds is
what was looked at and not passed.
-/
namespace Stylesheet

/-! ## Lookouts -/

/-- A cursor, and the index of the first code point that was never looked at. -/
structure Lookout where
  cursor : Cursor
  seen : Nat

namespace Lookout

/-- A lookout in front of a text that it has not looked at. -/
def ofText (text : List Char) : Lookout := ⟨.ofText text, 0⟩

/-- What was looked at and not passed. -/
def held (l : Lookout) : List Char := l.cursor.ahead.take (l.seen - l.cursor.index)

/-- The lookout after looking at so many code points. -/
def look (n : Nat) (l : Lookout) : Lookout := { l with seen := max l.seen (l.cursor.index + n) }

def peek (l : Lookout) : Option Char × Lookout :=
  (l.cursor.peek, l.look l.cursor.peek.toList.length)

def consume (l : Lookout) : Option Char × Lookout :=
  (l.cursor.consume.1, { l.peek.2 with cursor := l.cursor.consume.2 })

instance : Source Lookout where
  peek := peek
  consume := consume
  position l := Source.position l.cursor
  reset mark l := { l with cursor := Source.reset mark l.cursor }
  takeText l := ((Source.takeText l.cursor).1, { l with cursor := (Source.takeText l.cursor).2 })
  remaining l := Source.remaining l.cursor
  remaining_peek_le l := Source.remaining_peek_le l.cursor
  remaining_consume_le l := Source.remaining_consume_le l.cursor
  remaining_consume_lt l h := Source.remaining_consume_lt l.cursor h

/-- A lookout answers like its cursor. -/
def asCursor : Simulation Lookout Cursor where
  Rel l c := l.cursor = c
  Later _ _ := True
  later_refl _ := trivial
  later_trans _ _ _ _ _ := trivial
  peek l c h := by
    subst h
    exact ⟨rfl, rfl, trivial⟩
  consume l c h := by
    subst h
    exact ⟨rfl, rfl, trivial⟩
  reset l c l' c' h h' _ := by
    subst h h'
    exact ⟨rfl, trivial⟩
  location l c h := by
    subst h
    rfl
  takeText l c h := by
    subst h
    exact ⟨rfl, rfl⟩

end Lookout

namespace BufferedSource

variable {ι : Type} [CharStream ι]

theorem length_ahead_peek (s : BufferedSource ι) :
    s.peek.2.ahead.length = max s.ahead.length s.peek.1.toList.length := by
  cases ha : s.ahead with
  | nil => simp [peek, ha]
  | cons c rest =>
    rw [peek_of_ahead ha, ha]
    simp

/-- The source shows where the lookout stands, and holds what the lookout has looked at. -/
structure Watches (s : BufferedSource ι) (l : Lookout) : Prop where
  shows : s.Shows l.cursor
  seen : l.cursor.index + s.ahead.length = l.seen

variable {s : BufferedSource ι} {l : Lookout}

theorem watches_ofStream (input : ι) :
    (ofStream input).Watches (.ofText (LineEnding.normalize (CharStream.drain input))) :=
  ⟨shows_ofStream input, rfl⟩

theorem Watches.ahead_eq (h : s.Watches l) : s.ahead = l.held := by
  have hlength : l.seen - l.cursor.index = s.ahead.length := by
    rw [← h.seen, Nat.add_sub_cancel_left]
  rw [Lookout.held, hlength, ← h.shows.ahead, List.take_left]

variable [CharStream.Fused ι]

theorem Watches.peek (h : s.Watches l) :
    s.peek.1 = l.peek.1 ∧ s.peek.2.Watches l.peek.2 := by
  obtain ⟨hanswer, hshows, -⟩ := h.shows.peek
  refine ⟨hanswer, hshows, ?_⟩
  have hlength := s.length_ahead_peek
  have hseen := h.seen
  rw [hanswer] at hlength
  change l.cursor.index + s.peek.2.ahead.length = max l.seen _
  omega

theorem Watches.consume (h : s.Watches l) :
    s.consume.1 = l.consume.1 ∧ s.consume.2.Watches l.consume.2 := by
  obtain ⟨hanswer, hshows, -⟩ := h.shows.consume
  refine ⟨hanswer, hshows, ?_⟩
  have hpeek : l.cursor.index + s.peek.2.ahead.length = l.peek.2.seen := h.peek.2.seen
  change l.cursor.consume.2.index + s.consume.2.ahead.length = l.peek.2.seen
  cases ha : s.peek.2.ahead with
  | nil =>
    have hs : s.consume = (none, s.peek.2) := by simp only [BufferedSource.consume, ha]
    rw [hs] at hanswer ⊢
    cases hc : l.cursor.ahead with
    | nil =>
      rw [Cursor.consume_nil hc]
      exact hpeek
    | cons x rest =>
      rw [Cursor.consume_cons hc] at hanswer
      contradiction
  | cons x rest =>
    have hs : s.consume.1 = some x ∧ s.consume.2.ahead = rest := by
      simp only [BufferedSource.consume, ha, and_self]
    rw [ha, List.length_cons] at hpeek
    rw [hs.1] at hanswer
    rw [hs.2]
    cases hc : l.cursor.ahead with
    | nil =>
      rw [Cursor.consume_nil hc] at hanswer
      contradiction
    | cons y tail =>
      have hlength := congrArg List.length hc
      simp only [Cursor.ahead, List.length_drop, List.length_cons] at hlength
      rw [Cursor.consume_cons hc]
      simp only [Cursor.skip, Cursor.index_moveTo]
      omega

variable (ι)

/-- A buffered source over a fused stream behaves like the lookout that it shows. -/
def asLookout : Simulation (BufferedSource ι) Lookout where
  Rel := Watches
  Later p q := (asCursor ι).Later (p.1, p.2.cursor) (q.1, q.2.cursor)
  later_refl p := (asCursor ι).later_refl _
  later_trans p q r := (asCursor ι).later_trans _ _ _
  peek s l h := ⟨h.peek.1, h.peek.2, ((asCursor ι).peek s l.cursor h.shows).later⟩
  consume s l h := ⟨h.consume.1, h.consume.2, ((asCursor ι).consume s l.cursor h.shows).later⟩
  reset s l s' l' h h' hlater := by
    obtain ⟨ht, hs, hle⟩ := hlater
    obtain ⟨hshows, hheld⟩ := h.shows.reset_position h'.shows ht hs hle
    exact ⟨⟨hshows, hheld.trans h'.seen⟩, ht, hs, Nat.le_trans hle (Nat.le_of_eq hheld.symm)⟩
  location s l h := h.shows.location
  takeText s l h := by
    obtain ⟨htext, hshows⟩ := h.shows.takeText
    exact ⟨htext, hshows, h.seen⟩

end BufferedSource

namespace Cursor

theorem length_ahead (c : Cursor) : c.ahead.length = c.text.length - c.index := by
  rw [ahead, List.length_drop]

theorem index_skip {c : Cursor} {n : Nat} (h : n ≤ c.ahead.length) :
    (c.skip n).index = c.index + n := by
  have hle := c.index_le
  rw [length_ahead] at h
  exact Nat.min_eq_left (by omega)

theorem eq_of_skip_eq {c : Cursor} {m n : Nat} (hm : m ≤ c.ahead.length)
    (hn : n ≤ c.ahead.length) (h : c.skip m = c.skip n) : m = n := by
  have hindex := congrArg Cursor.index h
  rw [index_skip hm, index_skip hn] at hindex
  exact Nat.add_left_cancel hindex

end Cursor

/-! ## How far a scan goes and looks -/

namespace Lookout

open Scan

variable {α β : Type}

/-- The second lookout stands `m` code points behind the first, from where it looked at `n`. -/
structure Sees (l : Lookout) (m n : Nat) (l' : Lookout) : Prop where
  cursor : l'.cursor = l.cursor.skip m
  seen : l'.seen = max l.seen (l.cursor.index + n)
  le : m ≤ n
  le_length : n ≤ l.cursor.ahead.length

theorem Sees.refl {l : Lookout} (h : l.cursor.index ≤ l.seen) : l.Sees 0 0 l :=
  ⟨l.cursor.skip_zero.symm, (Nat.max_eq_left h).symm, Nat.le_refl _, Nat.zero_le _⟩

theorem Sees.index_le {l l' : Lookout} {m n : Nat} (h : l.Sees m n l') :
    l'.cursor.index ≤ l'.seen := by
  have hle := h.le
  rw [h.cursor, h.seen, Cursor.index_skip (Nat.le_trans h.le h.le_length)]
  omega

theorem Sees.trans {l l' l'' : Lookout} {m n m' n' : Nat} (h : l.Sees m n l')
    (h' : l'.Sees m' n' l'') : l.Sees (m + m') (max n (m + n')) l'' := by
  have hle := h.le
  have hle' := h'.le
  have hlength := h.le_length
  have hlength' := h'.le_length
  have hseen := h'.seen
  rw [h.cursor, Cursor.ahead_skip, List.length_drop] at hlength'
  rw [h.cursor, Cursor.index_skip (Nat.le_trans h.le h.le_length), h.seen] at hseen
  refine ⟨?_, by omega, by omega, by omega⟩
  rw [h'.cursor, h.cursor, Cursor.skip_skip]

/-- Going back, what was looked at stays looked at. -/
theorem Sees.undone {l l' : Lookout} {m n : Nat} (h : l.Sees m n l') :
    l.Sees 0 n (Source.reset (Source.position l) l') := by
  refine ⟨?_, h.seen, Nat.zero_le _, h.le_length⟩
  change Source.reset (Source.position l.cursor) l'.cursor = _
  rw [h.cursor, Cursor.reset_position_skip, Cursor.skip_zero]

/-- From this cursor the scan goes some way and looks some way, and that fits its answer. -/
def Looks (scan : Scan Lookout α) (c : Cursor) (R : α → Nat → Nat → Prop) : Prop :=
  ∀ l : Lookout, l.cursor = c → c.index ≤ l.seen →
    ∃ m n, l.Sees m n (scan l).2 ∧ R (scan l).1 m n

/-- What is known of the way in either case. -/
def Verdict (yes no : Nat → Nat → Prop) : Bool → Nat → Nat → Prop
  | true => yes
  | false => no

/-- What a round has to come to so that the loop comes to `R`. -/
def Rounds (R : β → Cursor → α → Nat → Nat → Prop) (b : β) (c : Cursor) :
    Round β α → Nat → Nat → Prop
  | .again b', m, n => n ≤ c.ahead.length →
    ∀ a m' n', R b' (c.skip m) a m' n' → R b c a (m + m') (max n (m + n'))
  | .finish a, m, n => R b c a m n

namespace Looks

variable {scan : Scan Lookout α} {next : α → Scan Lookout β} {c : Cursor}
  {Q : α → Nat → Nat → Prop} {R : β → Nat → Nat → Prop} {yes no : Nat → Nat → Prop}

theorem mono {Q' : α → Nat → Nat → Prop} (h : Looks scan c Q)
    (hQ : ∀ a m n, m ≤ n → n ≤ c.ahead.length → Q a m n → Q' a m n) : Looks scan c Q' := by
  rintro l rfl hl
  obtain ⟨m, n, hsees, hq⟩ := h l rfl hl
  exact ⟨m, n, hsees, hQ _ m n hsees.le hsees.le_length hq⟩

theorem verdict {first : Scan Lookout Bool} {R : Bool → Nat → Nat → Prop}
    (h : Looks first c (Verdict yes no)) (hyes : ∀ m n, yes m n → R true m n)
    (hno : ∀ m n, no m n → R false m n) : Looks first c R := by
  refine h.mono fun a m n _ _ ha => ?_
  cases a with
  | true => exact hyes m n ha
  | false => exact hno m n ha

theorem pure {a : α} (h : Q a 0 0) : Looks (Pure.pure a) c Q := by
  rintro l rfl hl
  exact ⟨0, 0, .refl hl, h⟩

theorem bind (h : Looks scan c Q)
    (hn : ∀ a m n, m ≤ n → n ≤ c.ahead.length → Q a m n →
      Looks (next a) (c.skip m) fun b m' n' => R b (m + m') (max n (m + n'))) :
    Looks (scan >>= next) c R := by
  rintro l rfl hl
  obtain ⟨m, n, hsees, hq⟩ := h l rfl hl
  have hindex := hsees.index_le
  rw [hsees.cursor] at hindex
  obtain ⟨m', n', hsees', hr⟩ :=
    hn _ m n hsees.le hsees.le_length hq _ hsees.cursor hindex
  exact ⟨_, _, hsees.trans hsees', hr⟩

theorem map {f : α → β} (h : Looks scan c fun a m n => R (f a) m n) :
    Looks (do return f (← scan)) c R := by
  refine h.bind fun a m n hmn _ hr => .pure ?_
  rwa [Nat.add_zero, Nat.max_eq_left hmn]

theorem ite {p : Prop} [Decidable p] {a b : Scan Lookout α} (ha : p → Looks a c Q)
    (hb : ¬ p → Looks b c Q) : Looks (if p then a else b) c Q := by
  split
  · exact ha ‹_›
  · exact hb ‹_›

/-- One case for each answer. -/
theorem branch {first : Scan Lookout Bool} {a b : Scan Lookout β}
    (h : Looks first c (Verdict yes no))
    (hyes : ∀ m n, m ≤ n → n ≤ c.ahead.length → yes m n →
      Looks a (c.skip m) fun r m' n' => R r (m + m') (max n (m + n')))
    (hno : ∀ m n, m ≤ n → n ≤ c.ahead.length → no m n →
      Looks b (c.skip m) fun r m' n' => R r (m + m') (max n (m + n'))) :
    Looks (do if ← first then a else b) c R := by
  refine h.bind fun answer m n hmn hlength hv => ?_
  cases answer with
  | true => exact hyes m n hmn hlength hv
  | false => exact hno m n hmn hlength hv

theorem peek_bind {next : Option Char → Scan Lookout β}
    (hnil : c.ahead = [] → Looks (next none) c R)
    (hcons : ∀ x rest, c.ahead = x :: rest →
      Looks (next (some x)) c fun b m n => R b m (max 1 n)) :
    Looks (Scan.peek >>= next) c R := by
  have hpeek : Looks Scan.peek c fun a m n => a = c.ahead.head? ∧ m = 0 ∧ n = a.toList.length := by
    rintro l rfl hl
    refine ⟨0, l.cursor.peek.toList.length, ?_, l.cursor.peek_eq_head?, rfl, rfl⟩
    refine ⟨l.cursor.skip_zero.symm, rfl, Nat.zero_le _, ?_⟩
    rw [Cursor.peek_eq_head?]
    cases l.cursor.ahead with
    | nil => exact Nat.le_refl _
    | cons x rest => exact Nat.le_add_left 1 _
  refine hpeek.bind ?_
  rintro _ _ _ - - ⟨rfl, rfl, rfl⟩
  rw [Cursor.skip_zero]
  cases hc : c.ahead with
  | nil => exact (hnil hc).mono fun a m n _ _ h => by simpa using h
  | cons x rest => exact (hcons x rest hc).mono fun a m n _ _ h => by simpa using h

theorem consume_bind {next : Option Char → Scan Lookout β} {x : Char} {rest : List Char}
    (hc : c.ahead = x :: rest)
    (hn : Looks (next (some x)) (c.skip 1) fun b m n => R b (1 + m) (1 + n)) :
    Looks (Scan.consume >>= next) c R := by
  have hconsume : Looks Scan.consume c fun a m n => a = some x ∧ m = 1 ∧ n = 1 := by
    rintro l rfl hl
    have hstep := Cursor.consume_cons hc
    have hpeek : l.cursor.peek = some x := by rw [Cursor.peek_eq_head?, hc, List.head?_cons]
    refine ⟨1, 1, ⟨congrArg Prod.snd hstep, ?_, Nat.le_refl _, ?_⟩, congrArg Prod.fst hstep, rfl,
      rfl⟩
    · change max l.seen (l.cursor.index + l.cursor.peek.toList.length) = _
      rw [hpeek]
      rfl
    · rw [hc]
      exact Nat.le_add_left 1 _
  refine hconsume.bind ?_
  rintro _ _ _ - - ⟨rfl, rfl, rfl⟩
  exact hn.mono fun b m n _ _ h => by rwa [Nat.max_eq_right (Nat.le_add_right 1 n)]

theorem keepIf {keep : α → Bool}
    (h : Looks scan c fun a m n => Q a (if keep a then m else 0) n) :
    Looks (Scan.keepIf keep scan) c Q := by
  rintro l rfl hl
  obtain ⟨m, n, hsees, hq⟩ := h l rfl hl
  cases hk : keep (scan l).1 with
  | true =>
    rw [keepIf_of_keep hk]
    rw [hk] at hq
    exact ⟨m, n, hsees, hq⟩
  | false =>
    rw [Scan.keepIf_of_not_keep hk]
    rw [hk] at hq
    exact ⟨0, n, hsees.undone, hq⟩

theorem attempt {first : Scan Lookout Bool} {no' : Nat → Nat → Prop}
    (h : Looks first c (Verdict yes no)) (hno : ∀ m n, no m n → no' 0 n) :
    Looks (Scan.attempt first) c (Verdict yes no') := by
  refine keepIf (h.mono fun a m n _ _ ha => ?_)
  cases a with
  | true => exact ha
  | false => exact hno m n ha

theorem iterate {R : β → Cursor → α → Nat → Nat → Prop} {round : β → Scan Lookout (Round β α)}
    {advances : ∀ b, Advances Round.GoesOn (round b)}
    (h : ∀ b c, Looks (round b) c (Rounds R b c)) (b : β) (c : Cursor) :
    Looks (Scan.iterate round advances b) c (R b c) := by
  rintro l rfl hl
  -- A round that asks for another one leaves less to read.
  induction hk : Source.remaining l using Nat.strongRecOn generalizing b l with
  | ind k ih =>
    obtain ⟨m, n, hsees, hr⟩ := h b l.cursor l rfl hl
    have hless := advances b l
    rw [iterate_eq]
    cases hround : round b l with
    | mk r l' =>
      rw [hround] at hsees hr hless
      cases r with
      | finish a => exact ⟨m, n, hsees, hr⟩
      | again b' =>
        obtain ⟨m', n', hsees', hr'⟩ := ih _ (hk ▸ hless trivial) b' l' hsees.index_le rfl
        rw [hsees.cursor] at hr'
        exact ⟨_, _, hsees.trans hsees', hr hsees.le_length _ m' n' hr'⟩

/-- A lookout goes where its cursor goes. -/
theorem goes {scan' : Scan Cursor α} (hu : Uniform scan scan') (h : Looks scan c Q) :
    Looks scan c fun a m n => scan' c = (a, c.skip m) ∧ Q a m n := by
  rintro l rfl hl
  obtain ⟨m, n, hsees, hq⟩ := h l rfl hl
  have hagrees := Lookout.asCursor.agrees hu (rfl : l.cursor = l.cursor)
  have hrel : (scan l).2.cursor = (scan' l.cursor).2 := hagrees.rel
  refine ⟨m, n, hsees, ?_, hq⟩
  rw [← hsees.cursor]
  exact Prod.ext hagrees.answer.symm hrel.symm

/-- What a scan takes is as far as it goes. -/
theorem takes {scan' : Scan Cursor α} {taken rest : List Char} {a : α} (hu : Uniform scan scan')
    (hc : c.ahead = taken ++ rest) (ht : Cursor.Takes scan' taken rest a) (h : Looks scan c Q) :
    Looks scan c fun b m n => b = a ∧ m = taken.length ∧ Q b m n := by
  refine (h.goes hu).mono fun b m n hmn hlength ⟨hrun, hq⟩ => ?_
  obtain ⟨rfl, hskip⟩ := Prod.mk.inj ((ht c hc).symm.trans hrun)
  have htaken : taken.length ≤ c.ahead.length := by
    rw [hc, List.length_append]
    exact Nat.le_add_right _ _
  exact ⟨rfl, (Cursor.eq_of_skip_eq htaken (Nat.le_trans hmn hlength) hskip).symm, hq⟩

end Looks

end Lookout
end Stylesheet
