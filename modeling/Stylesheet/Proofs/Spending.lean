import Stylesheet.Proofs.Cursor
import Stylesheet.Proofs.Operations

/-!
# Spending

How many operations a scan of a cursor takes. A loop pays for each of its rounds by what the round
goes over; what is read and then undone is paid for by what there is to read. Main statement: a
lexeme takes no more operations than some number for each code point ahead, and some more.
-/
namespace Stylesheet

open Scan

variable {α β : Type}

/-- From any cursor the scan takes no more operations than `rate` for each code point that it goes
over, `again` for each one that is ahead, and `once` more. -/
def Spends (rate once again : Nat) (scan : Scan (Logged Cursor) α) : Prop :=
  ∀ l, ∃ k, (scan l).2.source = l.source.skip k ∧ k ≤ l.source.ahead.length ∧
    (scan l).2.log.length ≤ l.log.length + rate * k + once + again * l.source.ahead.length

namespace Spends

variable {scan : Scan (Logged Cursor) α} {next : α → Scan (Logged Cursor) β}
  {rate rate' once once' again again' : Nat}

theorem mono (h : Spends rate once again scan)
    (hle : rate ≤ rate' ∧ once ≤ once' ∧ again ≤ again') : Spends rate' once' again' scan := by
  intro l
  obtain ⟨k, hk, hlength, hlog⟩ := h l
  have hrate := Nat.mul_le_mul_right k hle.1
  have hagain := Nat.mul_le_mul_right l.source.ahead.length hle.2.2
  exact ⟨k, hk, hlength, by omega⟩

theorem pure (a : α) : Spends rate once again (Pure.pure a) := by
  intro l
  refine ⟨0, l.source.skip_zero.symm, Nat.zero_le _, ?_⟩
  simp only [pure_apply]
  omega

theorem peek : Spends 0 1 0 Scan.peek := by
  intro l
  refine ⟨0, l.source.skip_zero.symm, Nat.zero_le _, ?_⟩
  have hlog : (Scan.peek l).2.log.length = l.log.length + 1 := rfl
  omega

theorem consume : Spends 0 1 0 Scan.consume := by
  intro l
  have hlog : (Scan.consume l).2.log.length = l.log.length + 1 := rfl
  cases ha : l.source.ahead with
  | nil =>
    refine ⟨0, ?_, Nat.zero_le _, by omega⟩
    rw [Cursor.skip_zero]
    exact congrArg Prod.snd (Cursor.consume_nil ha)
  | cons x rest =>
    refine ⟨1, congrArg Prod.snd (Cursor.consume_cons ha), ?_, by omega⟩
    rw [List.length_cons]
    omega

/-- What comes after a scan has what the scan leaves of the whole. -/
theorem bind (h : Spends rate once again scan)
    (hle : rate ≤ rate' ∧ once ≤ once' ∧ again ≤ again')
    (hn : ∀ a, Spends rate' (once' - once) (again' - again) (next a)) :
    Spends rate' once' again' (scan >>= next) := by
  intro l
  obtain ⟨k, hk, hlength, hlog⟩ := h.mono ⟨hle.1, Nat.le_refl once, Nat.le_refl again⟩ l
  obtain ⟨k', hk', hlength', hlog'⟩ := hn (scan l).1 (scan l).2
  rw [hk, Cursor.ahead_skip, List.length_drop] at hlength' hlog'
  have hless := Nat.mul_le_mul_left (again' - again) (Nat.sub_le l.source.ahead.length k)
  have hagain : again' = again + (again' - again) := by omega
  refine ⟨k + k', ?_, by omega, ?_⟩
  · rw [bind_apply, hk', hk, Cursor.skip_skip]
  · rw [bind_apply, Nat.mul_add, hagain, Nat.add_mul]
    omega

theorem ite {p : Prop} [Decidable p] {a b : Scan (Logged Cursor) α}
    (ha : Spends rate once again a) (hb : Spends rate once again b) :
    Spends rate once again (if p then a else b) := by
  split <;> assumption

/-- Whether it is undone or not, there was no more to go over than what is ahead. -/
theorem keepIf (keep : α → Bool) (h : Spends rate once again scan) :
    Spends 0 (once + 1) (rate + again) (Scan.keepIf keep scan) := by
  intro l
  obtain ⟨k, hk, hle, hlog⟩ := h l
  have hrate := Nat.mul_le_mul_left rate hle
  rw [Nat.add_mul]
  cases hkeep : keep (scan l).1 with
  | true =>
    rw [keepIf_of_keep hkeep]
    exact ⟨k, hk, hle, by omega⟩
  | false =>
    rw [keepIf_of_not_keep hkeep]
    refine ⟨0, ?_, Nat.zero_le _, ?_⟩
    · rw [Cursor.skip_zero]
      change Source.reset (Source.position l.source) (scan l).2.source = l.source
      rw [hk, Cursor.reset_position_skip]
    · change (scan l).2.log.length + 1 ≤ _
      omega

/-- A round that asks for another one has gone over a code point, which pays for it. -/
theorem iterate {round : β → Scan (Logged Cursor) (Round β α)}
    {advances : ∀ b, Advances Round.GoesOn (round b)} (hle : once ≤ rate)
    (h : ∀ b, Spends (rate - once) once 0 (round b)) (b : β) :
    Spends rate once 0 (Scan.iterate round advances b) := by
  intro l
  induction hn : Source.remaining l using Nat.strongRecOn generalizing b l with
  | ind n ih =>
    obtain ⟨k, hk, hlength, hlog⟩ := h b l
    have hless := advances b l
    have hrate : rate * k = (rate - once) * k + once * k := by
      rw [← Nat.add_mul, Nat.sub_add_cancel hle]
    rw [iterate_eq]
    cases hround : round b l with
    | mk r l' =>
      rw [hround] at hk hlog hless
      cases r with
      | finish a => exact ⟨k, hk, hlength, by dsimp only at hlog ⊢; omega⟩
      | again b' =>
        have hless : l'.source.ahead.length < l.source.ahead.length := hless trivial
        obtain ⟨k', hk', hlength', hlog'⟩ := ih _ (hn ▸ hless) b' l' rfl
        dsimp only at hk hlog
        rw [hk, Cursor.ahead_skip, List.length_drop] at hlength' hlog' hless
        have hpays := Nat.mul_le_mul_left once (show 1 ≤ k by omega)
        refine ⟨k + k', ?_, by omega, ?_⟩
        · rw [hk', hk, Cursor.skip_skip]
        · rw [Nat.mul_add]
          dsimp only
          omega

end Spends

/-! ## The scanners -/

theorem spends_accept (p : Char → Bool) : Spends 0 2 0 (accept p) := by
  refine .bind .peek (by decide) fun c? => ?_
  cases c? with
  | none => exact .pure _
  | some c => exact .ite (.bind .consume (by decide) fun _ => .pure _) (.pure _)

theorem spends_acceptWhile (p : Char → Bool) : Spends 2 2 0 (acceptWhile p) :=
  .iterate (by decide)
    (fun _ => .bind (spends_accept p) (by decide) fun _ => .ite (.pure _) (.pure _)) 0

theorem spends_acceptUpTo (p : Char → Bool) (n : Nat) : Spends 0 (2 * n) 0 (acceptUpTo p n) := by
  induction n with
  | zero => exact .pure _
  | succ n ih =>
    refine .bind (spends_accept p) (by omega) fun _ => .ite ?_ (.pure _)
    exact ih.mono (by omega)

theorem spends_acceptEach (same : Char → Char → Bool) (expected : List Char) :
    Spends 0 (2 * expected.length) 0 (acceptEach same expected) := by
  induction expected with
  | nil => exact .pure _
  | cons x expected ih =>
    rw [List.length_cons]
    refine .bind (spends_accept _) (by omega) fun _ => .ite ?_ (.pure _)
    exact ih.mono (by omega)

theorem spends_attemptEach (same : Char → Char → Bool) (expected : List Char) :
    Spends 0 (2 * expected.length + 1) 0 (attempt (acceptEach same expected)) :=
  .keepIf _ (spends_acceptEach same expected)

theorem spends_comment : Spends 4 4 0 comment := by
  refine .iterate (by decide) (fun _ => .bind .peek (by decide) fun c? => ?_) ()
  cases c? with
  | none => exact .pure _
  | some c =>
    refine .bind .consume (by decide) fun _ => .ite ?_ (.pure _)
    exact .bind (spends_accept _) (by decide) fun _ => .ite (.pure _) (.pure _)

theorem spends_escapeBody : Spends 0 14 0 escapeBody := by
  refine .bind .peek (by decide) fun c? => ?_
  cases c? with
  | none => exact .pure _
  | some c =>
    refine .ite (.pure _) (.bind .consume (by decide) fun _ => .ite ?_ (.pure _))
    refine .bind (spends_acceptUpTo _ 5) (by decide) fun _ => ?_
    exact .bind (spends_accept _) (by decide) fun _ => .pure _

theorem spends_escape : Spends 0 16 0 escape :=
  .bind (spends_accept _) (by decide) fun _ => .ite spends_escapeBody (.pure _)

theorem spends_nameUnit : Spends 0 18 0 nameUnit :=
  .bind (spends_accept _) (by decide) fun _ => .ite (.pure _) spends_escape

theorem spends_name : Spends 21 19 0 name := by
  refine .iterate (by decide) (fun _ => .bind (spends_acceptWhile _) (by decide) fun _ => ?_) ()
  exact .bind (.keepIf _ spends_escape) (by decide) fun _ => .ite (.pure _) (.pure _)

theorem spends_twoHyphens : Spends 0 4 0 twoHyphens :=
  .bind (spends_accept _) (by decide) fun _ => .ite (spends_accept _) (.pure _)

/-- A name at the end of what is spent. -/
theorem spends_named {α : Type} (a : α) : Spends 21 19 0 (do name; return a) :=
  .bind spends_name (by decide) fun _ => .pure _

theorem spends_identifier : Spends 21 41 0 identifier := by
  refine .bind spends_twoHyphens (by decide) fun _ => ?_
  refine .ite ((spends_named true).mono (by decide)) ?_
  refine .bind (spends_accept _) (by decide) fun _ => ?_
  refine .ite ((spends_named true).mono (by decide)) ?_
  refine .bind spends_escape (by decide) fun _ => ?_
  exact .ite (spends_named true) (.pure _)

theorem spends_numberStart : Spends 0 8 0 numberStart := by
  refine .bind (spends_accept _) (by decide) fun _ => ?_
  refine .bind (spends_accept _) (by decide) fun _ => .ite (.pure _) ?_
  exact .bind (spends_accept _) (by decide) fun _ => .ite (spends_accept _) (.pure _)

theorem spends_fraction : Spends 2 4 0 fraction := by
  refine .bind (spends_accept _) (by decide) fun _ => .ite ?_ (.pure _)
  exact .bind (spends_acceptWhile _) (by decide) fun _ => .pure _

theorem spends_exponent : Spends 2 6 0 exponent := by
  refine .bind (spends_accept _) (by decide) fun _ => .ite ?_ (.pure _)
  refine .bind (spends_accept _) (by decide) fun _ => ?_
  exact .bind (spends_acceptWhile _) (by decide) fun _ => .pure _

theorem spends_number : Spends 2 16 4 number := by
  refine .bind (spends_accept _) (by decide) fun _ => ?_
  refine .bind (spends_acceptWhile _) (by decide) fun _ => ?_
  refine .bind (.keepIf _ spends_fraction) (by decide) fun _ => ?_
  exact .bind (.keepIf _ spends_exponent) (by decide) fun _ => .pure _

theorem spends_numeric : Spends 2 60 25 numeric := by
  refine .bind spends_number (by decide) fun _ => ?_
  refine .bind (spends_accept _) (by decide) fun _ => .ite (.pure _) ?_
  exact .bind (.keepIf _ spends_identifier) (by decide) fun _ => .ite (.pure _) (.pure _)

theorem spends_quoted (quote : Char) : Spends 18 18 0 (quoted quote) := by
  refine .iterate (by decide) (fun _ => .bind .peek (by decide) fun c? => ?_) ()
  cases c? with
  | none => exact .pure _
  | some c =>
    refine .ite (.pure _) (.bind .consume (by decide) fun _ => .ite ?_ (.ite (.pure _) (.pure _)))
    refine .bind (spends_accept _) (by decide) fun _ => .ite (.pure _) ?_
    exact .bind spends_escapeBody (by decide) fun _ => .ite (.pure _) (.pure _)

theorem spends_unquotedUrl : Spends 18 16 0 unquotedUrl := by
  refine .iterate (by decide) (fun _ => .bind .peek (by decide) fun c? => ?_) true
  cases c? with
  | none => exact .pure _
  | some c =>
    refine .bind .consume (by decide) fun _ => .ite (.pure _) (.ite (.pure _) ?_)
    refine .ite ?_ (.ite ?_ (.pure _))
    · refine .bind (spends_acceptWhile _) (by decide) fun _ => ?_
      exact .bind (spends_accept _) (by decide) fun _ => .ite (.pure _) (.pure _)
    · exact .bind spends_escapeBody (by decide) fun _ => .ite (.pure _) (.pure _)

theorem spends_quoteAhead : Spends 2 3 0 quoteAhead := by
  refine .bind (spends_acceptWhile _) (by decide) fun _ => ?_
  exact .bind .peek (by decide) fun _ => .pure _

theorem spends_urlRest : Spends 18 20 2 urlRest := by
  refine .bind (.keepIf _ spends_quoteAhead) (by decide) fun _ => .ite (.pure _) ?_
  exact .bind spends_unquotedUrl (by decide) fun _ => .ite (.pure _) (.pure _)

theorem spends_nameLike : Spends 21 52 2 nameLike := by
  refine .bind (spends_attemptEach _ "url(".toList) (by decide) fun _ => .ite ?_ ?_
  · exact .bind spends_urlRest (by decide) fun _ => .pure _
  · refine .bind spends_identifier (by decide) fun _ => .ite ?_ (.pure _)
    exact .bind (spends_accept _) (by decide) fun _ => .ite (.pure _) (.pure _)

theorem spends_single (kind : Kind) : Spends 0 1 0 (single kind) :=
  .bind .consume (by decide) fun _ => .pure _

theorem spends_numericOr (kind : Kind) :
    Spends 2 69 25 (do
      if ← lookahead numberStart then return .token (← numeric) else single kind) := by
  refine .bind (.keepIf _ spends_numberStart) (by decide) fun _ => .ite ?_ ?_
  · exact .bind spends_numeric (by decide) fun _ => .pure _
  · exact (spends_single kind).mono (by decide)

theorem spends_nameLikeOr {scan : Scan (Logged Cursor) Lexeme} (h : Spends 2 69 25 scan) :
    Spends 2 122 48 (do
      match ← attempt? nameLike with
      | some kind => return .token kind
      | none => scan) := by
  refine .bind (.keepIf _ spends_nameLike) (by decide) fun kind? => ?_
  cases kind? with
  | some kind => exact .pure _
  | none => exact h

/-- What a lexeme takes, whichever one it is. -/
theorem spends_lexeme (c : Char) : Spends 21 129 48 (lexeme c) := by
  unfold lexeme
  split
  case h_1 =>
    refine .bind (spends_attemptEach _ "/*".toList) (by decide) fun _ => .ite ?_ ?_
    · exact .bind spends_comment (by decide) fun _ => .ite (.pure _) (.pure _)
    · exact (spends_single _).mono (by decide)
  case h_2 => exact .bind (spends_acceptWhile _) (by decide) fun _ => .pure _
  case h_3 =>
    refine .bind .consume (by decide) fun _ => ?_
    exact .bind (spends_quoted c) (by decide) fun _ => .ite (.pure _) (.pure _)
  case h_4 =>
    refine .bind .consume (by decide) fun _ => ?_
    refine .bind (.keepIf _ spends_nameUnit) (by decide) fun _ => .ite ?_ (.pure _)
    exact (spends_named _).mono (by decide)
  case h_6 => exact .bind .consume (by decide) fun _ => .pure _
  case h_10 => exact (spends_numericOr _).mono (by decide)
  case h_11 =>
    refine .bind (spends_attemptEach _ "<!--".toList) (by decide) fun _ => .ite (.pure _) ?_
    exact (spends_single _).mono (by decide)
  case h_12 =>
    refine .bind .consume (by decide) fun _ => ?_
    exact .bind (.keepIf _ spends_identifier) (by decide) fun _ => .ite (.pure _) (.pure _)
  case h_13 => exact .bind spends_numeric (by decide) fun _ => .pure _
  case h_14 =>
    refine .bind (spends_attemptEach _ "-->".toList) (by decide) fun _ => .ite (.pure _) ?_
    exact (spends_nameLikeOr (spends_numericOr _)).mono (by decide)
  case h_15 => exact (spends_nameLikeOr ((spends_single _).mono (by decide))).mono (by decide)
  all_goals exact (spends_single _).mono (by decide)

end Stylesheet
