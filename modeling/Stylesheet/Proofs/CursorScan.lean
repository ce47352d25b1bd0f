import Stylesheet.Proofs.Cursor
import Stylesheet.Proofs.Leads

/-!
# Scans of a cursor

What the elementary scans answer on a cursor and how far they go, as functions of the code points
ahead, and that a lexeme always takes at least the code point that it begins with.
-/
namespace Stylesheet.Cursor

open Scan CodePoint

/-! ## Elementary scans -/

theorem scan_peek (c : Cursor) : Scan.peek c = (c.ahead.head?, c) := by
  rw [← peek_eq_head?]
  rfl

theorem scan_consume {c : Cursor} {x : Char} {rest : List Char} (h : c.ahead = x :: rest) :
    Scan.consume c = (some x, c.skip 1) := consume_cons h

theorem accept_eq (p : Char → Bool) (c : Cursor) :
    Scan.accept p c = if c.ahead.head?.any p then (true, c.skip 1) else (false, c) := by
  unfold Scan.accept
  rw [bind_apply, scan_peek]
  cases h : c.ahead with
  | nil => rfl
  | cons x rest =>
    cases hp : p x with
    | true => simp [hp, scan_consume h]
    | false => simp [hp]

theorem accept_nil {p : Char → Bool} {c : Cursor} (h : c.ahead = []) :
    Scan.accept p c = (false, c) := by
  simp [accept_eq, h]

theorem accept_cons {p : Char → Bool} {c : Cursor} {x : Char} {rest : List Char}
    (h : c.ahead = x :: rest) :
    Scan.accept p c = if p x then (true, c.skip 1) else (false, c) := by
  simp [accept_eq, h]

theorem accept_of_fst_eq_false {p : Char → Bool} {c : Cursor} (h : (Scan.accept p c).1 = false) :
    Scan.accept p c = (false, c) := by
  rw [accept_eq] at h ⊢
  split <;> simp_all

theorem iterate_acceptNext (p : Char → Bool) (k : Nat) (c : Cursor) :
    Scan.iterate (acceptNext p) (.acceptNext p) k c =
      (k + (c.ahead.takeWhile p).length, c.skip (c.ahead.takeWhile p).length) := by
  induction h : c.ahead generalizing c k with
  | nil =>
    have hround : acceptNext p k c = (.finish k, c) := by
      simp [acceptNext, accept_nil h]
    rw [iterate_eq, hround]
    simp
  | cons x rest ih =>
    cases hp : p x with
    | true =>
      have hround : acceptNext p k c = (.again (k + 1), c.skip 1) := by
        simp [acceptNext, accept_cons h, hp]
      have hahead : (c.skip 1).ahead = rest := by simp [h]
      rw [iterate_eq, hround]
      simp only [ih (k + 1) (c.skip 1) hahead, List.takeWhile_cons, hp, if_true,
        List.length_cons, skip_skip]
      rw [Nat.add_assoc, Nat.add_comm 1]
    | false =>
      have hround : acceptNext p k c = (.finish k, c) := by
        simp [acceptNext, accept_cons h, hp]
      rw [iterate_eq, hround]
      simp [hp]

theorem acceptWhile_eq (p : Char → Bool) (c : Cursor) :
    Scan.acceptWhile p c =
      ((c.ahead.takeWhile p).length, c.skip (c.ahead.takeWhile p).length) := by
  rw [Scan.acceptWhile, iterate_acceptNext, Nat.zero_add]

theorem acceptWhile_none {p : Char → Bool} {c : Cursor} (h : (Scan.accept p c).1 = false) :
    Scan.acceptWhile p c = (0, c) := by
  rw [acceptWhile_eq]
  cases ha : c.ahead with
  | nil => simp
  | cons x rest =>
    rw [accept_cons ha] at h
    cases hp : p x with
    | true => simp [hp] at h
    | false => simp [hp]

theorem skipUntil_eq (stop : Char → Bool) (c : Cursor) :
    Scan.skipUntil stop c =
      (c.ahead.find? stop, c.skip (c.ahead.takeWhile fun x => !stop x).length) := by
  unfold Scan.skipUntil
  induction h : c.ahead generalizing c with
  | nil =>
    have hround : skipNext stop c = (.finish none, c) := by
      rw [skipNext, bind_apply, scan_peek, h]
      rfl
    rw [iterate_eq, hround]
    simp
  | cons x rest ih =>
    have hpeek : Scan.peek c = (some x, c) := by rw [scan_peek, h, List.head?_cons]
    cases hp : stop x with
    | true =>
      have hround : skipNext stop c = (.finish (some x), c) := by
        simp [skipNext, hpeek, hp]
      rw [iterate_eq, hround]
      simp [hp]
    | false =>
      have hround : skipNext stop c = (.again (), c.skip 1) := by
        simp [skipNext, hpeek, hp, scan_consume h]
      have hahead : (c.skip 1).ahead = rest := by simp [h]
      rw [iterate_eq, hround]
      simp only [ih (c.skip 1) hahead, List.find?_cons, List.takeWhile_cons, hp, Bool.not_false,
        if_true, List.length_cons, skip_skip]
      congr 2
      omega

theorem acceptEach_append {c : Cursor} {text rest : List Char} (h : c.ahead = text ++ rest) :
    Scan.acceptEach (· = ·) text c = (true, c.skip text.length) := by
  induction text generalizing c with
  | nil => simp [acceptEach]
  | cons x text ih =>
    have hahead : (c.skip 1).ahead = text ++ rest := by simp [h]
    have hx : Scan.accept (fun y => decide (y = x)) c = (true, c.skip 1) := by
      simp [accept_cons h]
    rw [acceptEach, bind_apply, hx]
    simp [ih hahead, Nat.add_comm]

theorem prefix_of_acceptEach {c : Cursor} {text : List Char}
    (h : (Scan.acceptEach (· = ·) text c).1 = true) : text <+: c.ahead := by
  induction text generalizing c with
  | nil => exact List.nil_prefix
  | cons x text ih =>
    cases ha : c.ahead with
    | nil => simp [acceptEach, accept_nil ha] at h
    | cons y rest =>
      by_cases hy : y = x
      · simp only [acceptEach, bind_apply, accept_cons ha, hy, decide_true, if_true] at h
        have hrest := ih h
        rw [ahead_skip, ha, List.drop_one, List.tail_cons] at hrest
        exact List.cons_prefix_cons.mpr ⟨hy.symm, hrest⟩
      · simp [acceptEach, accept_cons ha, hy] at h

/-- A text is accepted exactly if it comes next, and else nothing is consumed. -/
theorem acceptText_eq (text : String) (c : Cursor) :
    Scan.acceptText text c =
      if text.toList <+: c.ahead then (true, c.skip text.toList.length) else (false, c) := by
  by_cases h : text.toList <+: c.ahead
  · obtain ⟨rest, hrest⟩ := h
    have heach := acceptEach_append hrest.symm
    have hkeep : id (Scan.acceptEach (· = ·) text.toList c).1 = true := by rw [heach]; rfl
    rw [if_pos ⟨rest, hrest⟩, acceptText, attempt, keepIf_of_keep hkeep, heach]
  · have hkeep : id (Scan.acceptEach (· = ·) text.toList c).1 = false := by
      rw [id, Bool.eq_false_iff]
      exact fun heach => h (prefix_of_acceptEach heach)
    rw [if_neg h, acceptText, attempt, Cursor.keepIf_of_not_keep (.acceptEach _ _) hkeep]
    exact congrArg (·, c) hkeep

/-! ## Comments -/

/-- How far it is to the end of the first closing mark of a comment. -/
def closeAt : List Char → Option Nat
  | [] => none
  | '*' :: '/' :: _ => some 2
  | _ :: rest => (closeAt rest).map (· + 1)

theorem closeAt_star_slash (rest : List Char) : closeAt ('*' :: '/' :: rest) = some 2 := by
  simp [closeAt]

theorem closeAt_cons {x : Char} {rest : List Char} (h : x = '*' → rest.head? ≠ some '/') :
    closeAt (x :: rest) = (closeAt rest).map (· + 1) := by
  rw [closeAt]
  rintro tail rfl rfl
  exact h rfl rfl

/-- There is no way out of a comment exactly if its closing mark is nowhere ahead. -/
theorem closeAt_eq_none_iff (cs : List Char) : closeAt cs = none ↔ ¬ ['*', '/'] <:+: cs := by
  induction cs using closeAt.induct with
  | case1 => simp [closeAt]
  | case2 rest =>
    have hin : ['*', '/'] <:+: '*' :: '/' :: rest := ⟨[], rest, rfl⟩
    simp [closeAt_star_slash, hin]
  | case3 x rest h ih =>
    have hx : x = '*' → rest.head? ≠ some '/' := by
      rintro rfl hr
      obtain ⟨tail, rfl⟩ := List.head?_eq_some_iff.mp hr
      exact h tail rfl rfl
    have hnot : ¬ ['*', '/'] <+: x :: rest := by
      intro hp
      obtain ⟨rfl, hslash⟩ := List.cons_prefix_cons.mp hp
      obtain ⟨tail, rfl⟩ := hslash
      exact hx rfl rfl
    rw [closeAt_cons hx, Option.map_eq_none_iff, ih, List.infix_cons_iff]
    simp [hnot]

theorem commentUnit_close {c : Cursor} {tail : List Char} (h : c.ahead = '*' :: '/' :: tail) :
    commentUnit c = (.finish true, c.skip 2) := by
  have hpeek : Scan.peek c = (some '*', c) := by rw [scan_peek, h, List.head?_cons]
  have hahead : (c.skip 1).ahead = '/' :: tail := by simp [h]
  simp [commentUnit, hpeek, scan_consume h, acceptChar, accept_cons hahead]

theorem commentUnit_pass {c : Cursor} {x : Char} {rest : List Char} (h : c.ahead = x :: rest)
    (hx : x = '*' → rest.head? ≠ some '/') : commentUnit c = (.again (), c.skip 1) := by
  have hpeek : Scan.peek c = (some x, c) := by rw [scan_peek, h, List.head?_cons]
  have hahead : (c.skip 1).ahead = rest := by simp [h]
  by_cases hstar : x = '*'
  · have hslash : Scan.acceptChar '/' (c.skip 1) = (false, c.skip 1) := by
      cases rest with
      | nil => rw [acceptChar, accept_nil hahead]
      | cons y tail =>
        have hy : y ≠ '/' := fun hy => hx hstar (congrArg some hy)
        simp [acceptChar, accept_cons hahead, hy]
    simp [commentUnit, hpeek, scan_consume h, hstar, hslash]
  · simp [commentUnit, hpeek, scan_consume h, hstar]

/-- A comment goes up to the end of its first closing mark, or else to the end of the text. -/
theorem comment_eq (c : Cursor) :
    Scan.comment c = match closeAt c.ahead with
      | some n => (true, c.skip n)
      | none => (false, c.skip c.ahead.length) := by
  unfold Scan.comment
  induction h : c.ahead generalizing c with
  | nil =>
    have hround : commentUnit c = (.finish false, c) := by
      rw [commentUnit, bind_apply, scan_peek, h]
      rfl
    rw [iterate_eq, hround]
    simp [closeAt]
  | cons x rest ih =>
    have hahead : (c.skip 1).ahead = rest := by simp [h]
    by_cases hclose : x = '*' ∧ rest.head? = some '/'
    · obtain ⟨rfl, hr⟩ := hclose
      obtain ⟨tail, rfl⟩ := List.head?_eq_some_iff.mp hr
      rw [iterate_eq, commentUnit_close h, closeAt_star_slash]
    · have hpass : x = '*' → rest.head? ≠ some '/' := fun hx hr => hclose ⟨hx, hr⟩
      rw [iterate_eq, commentUnit_pass h hpass, closeAt_cons hpass]
      simp only [ih (c.skip 1) hahead]
      cases closeAt rest with
      | none =>
        simp only [Option.map_none, skip_skip, List.length_cons]
        congr 2
        omega
      | some n =>
        simp only [Option.map_some, skip_skip]
        congr 2
        omega

/-! ## Progress -/

variable {α β : Type}

/-- The scan takes at least one code point from here. -/
def Moves (scan : Scan Cursor α) (c : Cursor) : Prop := (scan c).2.ahead.length < c.ahead.length

theorem advances_keepIf {scan : Scan Cursor α} {keep : α → Bool}
    (h : Advances (keep · = true) scan) : Advances (keep · = true) (keepIf keep scan) := by
  intro c ha
  rw [keepIf_answer] at ha
  rw [keepIf_of_keep ha]
  exact h c ha

theorem moves_bind {scan : Scan Cursor α} {next : α → Scan Cursor β} {c : Cursor}
    (h : Moves scan c) (hn : ∀ a, Uniform (next a) (next a)) : Moves (scan >>= next) c :=
  Nat.lt_of_le_of_lt (steady_of_uniform (hn _) _) h

theorem moves_after {scan : Scan Cursor α} {next : α → Scan Cursor β} {c : Cursor}
    (h : Uniform scan scan) (hn : Moves (next (scan c).1) (scan c).2) : Moves (scan >>= next) c :=
  Nat.lt_of_lt_of_le hn (steady_of_uniform h c)

/-- A scan that is undone if it fails, and what is tried in its place. -/
theorem moves_keepIf_bind {scan : Scan Cursor α} {keep : α → Bool} {next : α → Scan Cursor β}
    {c : Cursor} (h : Uniform scan scan) (ha : Advances (keep · = true) scan)
    (hn : ∀ a, Uniform (next a) (next a))
    (hfail : keep (scan c).1 = false → Moves (next (scan c).1) c) :
    Moves (keepIf keep scan >>= next) c := by
  cases hk : keep (scan c).1 with
  | true =>
    refine moves_bind ?_ hn
    have hkeep : keep (keepIf keep scan c).1 = true := by rw [keepIf_answer, hk]
    exact advances_keepIf ha c hkeep
  | false =>
    have hundone := keepIf_of_not_keep h hk
    refine moves_after (.keepIf keep h) ?_
    rw [hundone]
    exact hfail hk

theorem moves_consume {c : Cursor} {x : Char} {rest : List Char} (h : c.ahead = x :: rest) :
    Moves Scan.consume c := by
  rw [Moves, scan_consume h, ahead_skip, h]
  simp

theorem moves_single {c : Cursor} {x : Char} {rest : List Char} (h : c.ahead = x :: rest)
    (kind : Kind) : Moves (Scan.single kind) c :=
  moves_bind (moves_consume h) fun _ => .pure _

theorem moves_acceptWhile {c : Cursor} {x : Char} {rest : List Char} {p : Char → Bool}
    (h : c.ahead = x :: rest) (hp : p x = true) : Moves (Scan.acceptWhile p) c := by
  rw [Moves, acceptWhile_eq, ahead_skip, h, List.takeWhile_cons_of_pos hp, List.length_cons,
    List.drop_succ_cons, List.length_drop, List.length_cons]
  omega

theorem moves_acceptWhile_of_accept {p : Char → Bool} {c : Cursor}
    (h : (Scan.accept p c).1 = true) : Moves (Scan.acceptWhile p) c := by
  cases ha : c.ahead with
  | nil => simp [accept_nil ha] at h
  | cons x rest =>
    apply moves_acceptWhile ha
    rw [accept_cons ha] at h
    split at h
    · assumption
    · contradiction

/-- A scan that goes on only after something was taken, and does something else otherwise. -/
theorem advances_ifThenElse {answers : α → Prop} {first : Scan Cursor Bool}
    {found other : Scan Cursor α} (hu : Uniform first first)
    (ha : Advances (· = true) first) (hf : Uniform found found) (ho : Advances answers other) :
    Advances answers (do if ← first then found else other) := by
  apply Advances.bind (steady_of_uniform hu) ha
  · intro b hb
    rw [if_pos hb]
    exact steady_of_uniform hf
  · intro b hb
    rw [if_neg hb]
    exact ho

theorem advances_false : Advances (σ := Cursor) (· = true) (return false) :=
  .of_not Bool.false_ne_true

theorem advances_acceptEach (same : Char → Char → Bool) (x : Char) (rest : List Char) :
    Advances (σ := Cursor) (· = true) (Scan.acceptEach same (x :: rest)) :=
  advances_ifThenElse (.accept _) (.accept _) (.acceptEach _ _) advances_false

theorem advances_twoHyphens : Advances (σ := Cursor) (· = true) Scan.twoHyphens :=
  advances_ifThenElse (.accept _) (.accept _) (.acceptChar _) advances_false

theorem advances_identifier : Advances (σ := Cursor) (· = true) Scan.identifier := by
  have hname : Uniform (σ := Cursor) (τ := Cursor) (do Scan.name; return true)
      (do Scan.name; return true) := .bind .name fun _ => .pure _
  apply advances_ifThenElse .twoHyphens advances_twoHyphens hname
  apply advances_ifThenElse (.accept _) (.accept _) hname
  exact advances_ifThenElse .escape .escape hname advances_false

theorem advances_nameLike : Advances (σ := Cursor) (·.isSome = true) Scan.nameLike := by
  have hurl : Advances (σ := Cursor) (· = true) (Scan.acceptTextIgnoringCase "url(") :=
    .attempt (advances_acceptEach _ 'u' ['r', 'l', '('])
  have hnone : Advances (σ := Cursor) (·.isSome = true) (return (none : Option Kind)) :=
    .of_not (by simp)
  apply advances_ifThenElse (.acceptTextIgnoringCase _) hurl
  · exact .bind .urlRest fun _ => .pure _
  · apply advances_ifThenElse .identifier advances_identifier _ hnone
    exact .bind (.acceptChar _) fun _ => .ite (.pure _) (.pure _)

/-- A point and a digit come next. -/
def pointDigit : List Char → Bool
  | '.' :: y :: _ => isDigit y
  | _ => false

/-- A point is accepted, and then something that asks for a digit. -/
theorem answer_point {next : Scan Cursor Bool} (c : Cursor)
    (hnil : (c.skip 1).ahead = [] → (next (c.skip 1)).1 = false)
    (hcons : ∀ y rest, (c.skip 1).ahead = y :: rest → (next (c.skip 1)).1 = isDigit y) :
    ((do if ← Scan.acceptChar '.' then next else return false : Scan Cursor Bool) c).1 =
      pointDigit c.ahead := by
  cases ha : c.ahead with
  | nil => simp [acceptChar, accept_nil ha, pointDigit]
  | cons x rest =>
    have hahead : (c.skip 1).ahead = rest := by simp [ha]
    by_cases hx : x = '.'
    · subst hx
      simp only [bind_apply, acceptChar, accept_cons ha, decide_true, if_true]
      cases rest with
      | nil => rw [hnil hahead, pointDigit]; simp
      | cons y tail => rw [hcons y tail hahead, pointDigit]
    · have hpoint : pointDigit (x :: rest) = false := by
        rw [pointDigit]
        intro y tail heq
        exact hx (List.cons.inj heq).1
      simp [acceptChar, accept_cons ha, hx, hpoint]

theorem answer_fraction (c : Cursor) : (Scan.fraction c).1 = pointDigit c.ahead := by
  apply answer_point c
  · intro h
    simp [acceptWhile_eq, h]
  · intro y rest h
    cases hy : isDigit y <;> simp [acceptWhile_eq, h, hy]

theorem answer_numberStart_digit {c : Cursor} {x : Char} {rest : List Char}
    (h : c.ahead = x :: rest) (hx : isDigit x = true) : (Scan.numberStart c).1 = true := by
  have hsign : isSign x = false := by
    cases hs : isSign x with
    | false => rfl
    | true =>
      obtain rfl | rfl : x = '+' ∨ x = '-' := by simpa [isSign] using hs
      · exact absurd hx (by decide)
      · exact absurd hx (by decide)
  have hs : Scan.accept isSign c = (false, c) := by simp [accept_cons h, hsign]
  have hd : Scan.accept isDigit c = (true, c.skip 1) := by simp [accept_cons h, hx]
  simp [Scan.numberStart, hs, hd]

/-- Where neither a sign nor a digit comes next, a number begins with a point. -/
theorem answer_numberStart {c : Cursor} (hs : Scan.accept isSign c = (false, c))
    (hd : Scan.accept isDigit c = (false, c)) :
    (Scan.numberStart c).1 = pointDigit c.ahead := by
  have h : Scan.numberStart c =
      (do if ← Scan.acceptChar '.' then Scan.accept isDigit else return false) c := by
    simp [Scan.numberStart, hs, hd]
  rw [h]
  apply answer_point c
  · intro h
    rw [accept_nil h]
  · intro y rest h
    cases hy : isDigit y <;> simp [accept_cons h, hy]

theorem advances_fraction : Advances (σ := Cursor) (· = true) Scan.fraction :=
  advances_ifThenElse (.accept _) (.accept _) (.bind (.acceptWhile _) fun _ => .pure _)
    advances_false

/-- What the look ahead for a number has found is then read. -/
theorem moves_number {c : Cursor} (h : (Scan.numberStart c).1 = true) :
    Moves Scan.number c := by
  have hexponent : ∀ _ : Bool, Uniform (σ := Cursor) (τ := Cursor)
      (do let _ ← Scan.attempt Scan.exponent) (do let _ ← Scan.attempt Scan.exponent) :=
    fun _ => .bind (.keepIf _ .exponent) fun _ => .pure _
  have hfraction : ∀ _ : Nat, Uniform (σ := Cursor) (τ := Cursor)
      (do let _ ← Scan.attempt Scan.fraction; let _ ← Scan.attempt Scan.exponent)
      (do let _ ← Scan.attempt Scan.fraction; let _ ← Scan.attempt Scan.exponent) :=
    fun _ => .bind (.keepIf _ .fraction) hexponent
  cases hsign : (Scan.accept isSign c).1 with
  | true =>
    refine moves_bind ?_ fun _ => .bind (.acceptWhile _) hfraction
    exact Advances.accept _ c hsign
  | false =>
    have hs := accept_of_fst_eq_false hsign
    refine moves_after (.accept _) ?_
    rw [hs]
    cases hdigit : (Scan.accept isDigit c).1 with
    | true =>
      exact moves_bind (moves_acceptWhile_of_accept hdigit) hfraction
    | false =>
      have hpoint := answer_numberStart hs (accept_of_fst_eq_false hdigit)
      have hfound : (Scan.attempt Scan.fraction c).1 = true := by
        rw [Scan.attempt, keepIf_answer, answer_fraction, ← hpoint, h]
      refine moves_after (.acceptWhile _) ?_
      rw [acceptWhile_none hdigit]
      exact moves_bind (advances_fraction.attempt c hfound) hexponent

theorem moves_numeric {c : Cursor} (h : (Scan.numberStart c).1 = true) :
    Moves Scan.numeric c :=
  moves_bind (moves_number h) fun _ => .bind (.acceptChar _) fun _ => .ite (.pure _)
    (.bind (.keepIf _ .identifier) fun _ => .ite (.pure _) (.pure _))

/-- A text that comes next is taken, and else something else takes a code point. -/
theorem moves_acceptTextOr {text : String} {x : Char} {rest : List Char}
    (htext : text.toList = x :: rest) {found other : Scan Cursor α} {c : Cursor}
    (hf : Uniform found found) (ho : Uniform other other) (hm : Moves other c) :
    Moves (do if ← Scan.acceptText text then found else other) c := by
  unfold Scan.acceptText
  rw [htext]
  apply moves_keepIf_bind (.acceptEach _ _) (advances_acceptEach _ x rest)
  · intro _
    exact .ite hf ho
  · intro hfail
    rw [if_neg (Bool.eq_false_iff.mp hfail)]
    exact hm

/-- A name is taken, and else something else takes a code point. -/
theorem moves_nameLikeOr {other : Scan Cursor Lexeme} {c : Cursor} (ho : Uniform other other)
    (hm : Moves other c) :
    Moves (do
      match ← Scan.attempt? Scan.nameLike with
      | some kind => return .token kind
      | none => other) c := by
  apply moves_keepIf_bind .nameLike advances_nameLike
  · intro kind?
    cases kind? with
    | some kind => exact .pure _
    | none => exact ho
  · intro hfail
    rw [Option.isSome_eq_false_iff, Option.isNone_iff_eq_none] at hfail
    rw [hfail]
    exact hm

/-- A number is taken, and else the code point that it would begin with. -/
theorem moves_numericOr {c : Cursor} {x : Char} {rest : List Char} (h : c.ahead = x :: rest)
    (kind : Kind) :
    Moves (do
      if ← Scan.lookahead Scan.numberStart then return Lexeme.token (← Scan.numeric)
      else Scan.single kind) c := by
  refine moves_after (.keepIf _ .numberStart) ?_
  rw [lookahead_eq .numberStart]
  split
  · apply moves_bind (moves_numeric (by assumption))
    intro _
    exact .pure _
  · exact moves_single h _

/-- Every lexeme takes at least the code point that it begins with. -/
theorem moves_lexeme {c : Cursor} {x : Char} {rest : List Char} (h : c.ahead = x :: rest) :
    Moves (Scan.lexeme x) c := by
  unfold Scan.lexeme
  split
  case h_1 =>
    apply moves_acceptTextOr (x := '/') rfl _ (.single _) (moves_single h _)
    exact .bind .comment fun _ => .ite (.pure _) (.pure _)
  case h_2 hl =>
    exact moves_bind (moves_acceptWhile h (Lead.says_of_eq hl)) fun _ => .pure _
  case h_3 =>
    exact moves_bind (moves_consume h) fun _ => .bind (.quoted _) fun _ => .ite (.pure _) (.pure _)
  case h_4 =>
    apply moves_bind (moves_consume h)
    intro _
    exact .bind (.keepIf _ .nameUnit) fun _ => .ite (.bind .name fun _ => .pure _) (.pure _)
  case h_6 => exact moves_bind (moves_consume h) fun _ => .pure _
  case h_10 => exact moves_numericOr h _
  case h_11 => exact moves_acceptTextOr (x := '<') rfl (.pure _) (.single _) (moves_single h _)
  case h_12 =>
    apply moves_bind (moves_consume h)
    intro _
    exact .bind (.keepIf _ .identifier) fun _ => .ite (.pure _) (.pure _)
  case h_13 hl =>
    apply moves_bind (moves_numeric _)
    · exact fun _ => .pure _
    · exact answer_numberStart_digit h (Lead.says_of_eq hl)
  case h_14 =>
    apply moves_acceptTextOr (x := '-') rfl (.pure _)
    · exact .nameLikeOr (.numericOr _ .numberStart)
    · exact moves_nameLikeOr (.numericOr _ .numberStart) (moves_numericOr h _)
  case h_15 => exact moves_nameLikeOr (.single _) (moves_single h _)
  all_goals exact moves_single h _

end Stylesheet.Cursor
