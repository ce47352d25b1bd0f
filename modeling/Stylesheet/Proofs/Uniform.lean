import Stylesheet.Lexeme

/-!
# Uniform scans

A scanner knows its source only through a few operations, so it is one program over every source.
`Uniform scan scan'` says that two scans are the same such program over two sources, and every
scanner of this library is uniform with itself. What holds of the operations then holds of all
scanners: a simulation between sources is one between all uniform scans.
-/
namespace Stylesheet

/-- The same program over two sources. Going back is part of it only as `keepIf`, which returns to
a mark of its own. -/
inductive Uniform {σ τ : Type} [Source σ] [Source τ] :
    {α : Type} → Scan σ α → Scan τ α → Prop
  | pure {α : Type} (a : α) : Uniform (Pure.pure a) (Pure.pure a)
  | peek : Uniform Scan.peek Scan.peek
  | consume : Uniform Scan.consume Scan.consume
  | bind {α β : Type} {scan : Scan σ α} {scan' : Scan τ α} {next : α → Scan σ β}
      {next' : α → Scan τ β} (first : Uniform scan scan')
      (rest : ∀ a, Uniform (next a) (next' a)) : Uniform (scan >>= next) (scan' >>= next')
  | keepIf {α : Type} (keep : α → Bool) {scan : Scan σ α} {scan' : Scan τ α}
      (inner : Uniform scan scan') : Uniform (Scan.keepIf keep scan) (Scan.keepIf keep scan')
  | iterate {α β : Type} {round : β → Scan σ (Scan.Round β α)}
      {round' : β → Scan τ (Scan.Round β α)}
      {advances : ∀ b, Scan.Advances Scan.Round.GoesOn (round b)}
      {advances' : ∀ b, Scan.Advances Scan.Round.GoesOn (round' b)} (b : β)
      (inner : ∀ b, Uniform (round b) (round' b)) :
      Uniform (Scan.iterate round advances b) (Scan.iterate round' advances' b)

namespace Uniform

open Scan CodePoint

variable {σ τ : Type} [Source σ] [Source τ] {α : Type}

/-- What is the same program over two sources is one over the first. -/
theorem left {scan : Scan σ α} {scan' : Scan τ α} (h : Uniform scan scan') : Uniform scan scan := by
  induction h with
  | pure a => exact .pure a
  | peek => exact .peek
  | consume => exact .consume
  | bind _ _ first rest => exact .bind first rest
  | keepIf keep _ inner => exact .keepIf keep inner
  | iterate b _ inner => exact .iterate b inner

theorem ite {p : Prop} [Decidable p] {a b : Scan σ α} {a' b' : Scan τ α}
    (ha : Uniform a a') (hb : Uniform b b') :
    Uniform (if p then a else b) (if p then a' else b') := by
  split <;> assumption

/-! ## Looking at one code point -/

theorem accept (p : Char → Bool) : Uniform (Scan.accept (σ := σ) p) (Scan.accept (σ := τ) p) := by
  refine .bind .peek fun c? => ?_
  cases c? with
  | none => exact .pure _
  | some c => exact .ite (.bind .consume fun _ => .pure _) (.pure _)

theorem acceptChar (c : Char) :
    Uniform (Scan.acceptChar (σ := σ) c) (Scan.acceptChar (σ := τ) c) := .accept _

theorem acceptNext (p : Char → Bool) (n : Nat) :
    Uniform (Scan.acceptNext (σ := σ) p n) (Scan.acceptNext (σ := τ) p n) :=
  .bind (.accept p) fun _ => .ite (.pure _) (.pure _)

theorem acceptWhile (p : Char → Bool) :
    Uniform (Scan.acceptWhile (σ := σ) p) (Scan.acceptWhile (σ := τ) p) :=
  .iterate 0 fun _ => .acceptNext p _

theorem acceptUpTo (p : Char → Bool) (n : Nat) :
    Uniform (Scan.acceptUpTo (σ := σ) p n) (Scan.acceptUpTo (σ := τ) p n) := by
  induction n with
  | zero => exact .pure _
  | succ n ih => exact .bind (.accept p) fun _ => .ite ih (.pure _)

theorem skipNext (stop : Char → Bool) :
    Uniform (Scan.skipNext (σ := σ) stop) (Scan.skipNext (σ := τ) stop) := by
  refine .bind .peek fun c? => ?_
  cases c? with
  | none => exact .pure _
  | some c => exact .ite (.pure _) (.bind .consume fun _ => .pure _)

theorem skipUntil (stop : Char → Bool) :
    Uniform (Scan.skipUntil (σ := σ) stop) (Scan.skipUntil (σ := τ) stop) :=
  .iterate () fun _ => .skipNext stop

theorem acceptEach (same : Char → Char → Bool) (cs : List Char) :
    Uniform (Scan.acceptEach (σ := σ) same cs) (Scan.acceptEach (σ := τ) same cs) := by
  induction cs with
  | nil => exact .pure _
  | cons c cs ih => exact .bind (.accept _) fun _ => .ite ih (.pure _)

theorem acceptText (text : String) :
    Uniform (Scan.acceptText (σ := σ) text) (Scan.acceptText (σ := τ) text) :=
  .keepIf _ (.acceptEach _ _)

theorem acceptTextIgnoringCase (text : String) :
    Uniform (Scan.acceptTextIgnoringCase (σ := σ) text)
      (Scan.acceptTextIgnoringCase (σ := τ) text) :=
  .keepIf _ (.acceptEach _ _)

/-! ## The productions -/

theorem commentUnit : Uniform (Scan.commentUnit (σ := σ)) (Scan.commentUnit (σ := τ)) := by
  refine .bind .peek fun c? => ?_
  cases c? with
  | none => exact .pure _
  | some c =>
    refine .bind .consume fun _ => .ite ?_ (.pure _)
    exact .bind (.acceptChar _) fun _ => .ite (.pure _) (.pure _)

theorem comment : Uniform (Scan.comment (σ := σ)) (Scan.comment (σ := τ)) :=
  .iterate () fun _ => .commentUnit

theorem escapeBody : Uniform (Scan.escapeBody (σ := σ)) (Scan.escapeBody (σ := τ)) := by
  refine .bind .peek fun c? => ?_
  cases c? with
  | none => exact .pure _
  | some c =>
    refine .ite (.pure _) (.bind .consume fun _ => .ite ?_ (.pure _))
    exact .bind (.acceptUpTo _ _) fun _ => .bind (.accept _) fun _ => .pure _

theorem escape : Uniform (Scan.escape (σ := σ)) (Scan.escape (σ := τ)) :=
  .bind (.acceptChar _) fun _ => .ite .escapeBody (.pure _)

theorem nameUnit : Uniform (Scan.nameUnit (σ := σ)) (Scan.nameUnit (σ := τ)) :=
  .bind (.accept _) fun _ => .ite (.pure _) .escape

theorem nameRun : Uniform (Scan.nameRun (σ := σ)) (Scan.nameRun (σ := τ)) :=
  .bind (.acceptWhile _) fun _ => .bind (.keepIf _ .escape) fun _ => .ite (.pure _) (.pure _)

theorem name : Uniform (Scan.name (σ := σ)) (Scan.name (σ := τ)) :=
  .iterate () fun _ => .nameRun

theorem twoHyphens : Uniform (Scan.twoHyphens (σ := σ)) (Scan.twoHyphens (σ := τ)) :=
  .bind (.acceptChar _) fun _ => .ite (.acceptChar _) (.pure _)

theorem identifier : Uniform (Scan.identifier (σ := σ)) (Scan.identifier (σ := τ)) := by
  have named : Uniform (do Scan.name (σ := σ); return true)
      (do Scan.name (σ := τ); return true) := .bind .name fun _ => .pure _
  refine .bind .twoHyphens fun _ => .ite named ?_
  refine .bind (.accept _) fun _ => .ite named ?_
  exact .bind .escape fun _ => .ite named (.pure _)

theorem numberStart : Uniform (Scan.numberStart (σ := σ)) (Scan.numberStart (σ := τ)) := by
  refine .bind (.accept _) fun _ => .bind (.accept _) fun _ => .ite (.pure _) ?_
  exact .bind (.acceptChar _) fun _ => .ite (.accept _) (.pure _)

theorem fraction : Uniform (Scan.fraction (σ := σ)) (Scan.fraction (σ := τ)) :=
  .bind (.acceptChar _) fun _ => .ite (.bind (.acceptWhile _) fun _ => .pure _) (.pure _)

theorem exponent : Uniform (Scan.exponent (σ := σ)) (Scan.exponent (σ := τ)) := by
  refine .bind (.accept _) fun _ => .ite ?_ (.pure _)
  exact .bind (.accept _) fun _ => .bind (.acceptWhile _) fun _ => .pure _

theorem number : Uniform (Scan.number (σ := σ)) (Scan.number (σ := τ)) :=
  .bind (.accept _) fun _ => .bind (.acceptWhile _) fun _ =>
    .bind (.keepIf _ .fraction) fun _ => .bind (.keepIf _ .exponent) fun _ => .pure _

theorem numeric : Uniform (Scan.numeric (σ := σ)) (Scan.numeric (σ := τ)) := by
  refine .bind .number fun _ => .bind (.acceptChar _) fun _ => .ite (.pure _) ?_
  exact .bind (.keepIf _ .identifier) fun _ => .ite (.pure _) (.pure _)

theorem quotedUnit (quote : Char) :
    Uniform (Scan.quotedUnit (σ := σ) quote) (Scan.quotedUnit (σ := τ) quote) := by
  refine .bind .peek fun c? => ?_
  cases c? with
  | none => exact .pure _
  | some c =>
    refine .ite (.pure _) (.bind .consume fun _ => .ite ?_ (.ite (.pure _) (.pure _)))
    refine .bind (.acceptChar _) fun _ => .ite (.pure _) ?_
    exact .bind .escapeBody fun _ => .ite (.pure _) (.pure _)

theorem quoted (quote : Char) :
    Uniform (Scan.quoted (σ := σ) quote) (Scan.quoted (σ := τ) quote) :=
  .iterate () fun _ => .quotedUnit quote

theorem urlUnit (wellFormed : Bool) :
    Uniform (Scan.urlUnit (σ := σ) wellFormed) (Scan.urlUnit (σ := τ) wellFormed) := by
  refine .bind .peek fun c? => ?_
  cases c? with
  | none => exact .pure _
  | some c =>
    refine .bind .consume fun _ => .ite (.pure _) (.ite (.pure _) (.ite ?_ (.ite ?_ (.pure _))))
    · refine .bind (.acceptWhile _) fun _ => ?_
      exact .bind (.acceptChar _) fun _ => .ite (.pure _) (.pure _)
    · exact .bind .escapeBody fun _ => .ite (.pure _) (.pure _)

theorem unquotedUrl : Uniform (Scan.unquotedUrl (σ := σ)) (Scan.unquotedUrl (σ := τ)) :=
  .iterate true fun _ => .urlUnit _

theorem quoteAhead : Uniform (Scan.quoteAhead (σ := σ)) (Scan.quoteAhead (σ := τ)) :=
  .bind (.acceptWhile _) fun _ => .bind .peek fun _ => .pure _

theorem urlRest : Uniform (Scan.urlRest (σ := σ)) (Scan.urlRest (σ := τ)) := by
  refine .bind (.keepIf _ .quoteAhead) fun _ => .ite (.pure _) ?_
  exact .bind .unquotedUrl fun _ => .ite (.pure _) (.pure _)

theorem nameLike : Uniform (Scan.nameLike (σ := σ)) (Scan.nameLike (σ := τ)) := by
  refine .bind (.acceptTextIgnoringCase _) fun _ => .ite (.bind .urlRest fun _ => .pure _) ?_
  refine .bind .identifier fun _ => .ite ?_ (.pure _)
  exact .bind (.acceptChar _) fun _ => .ite (.pure _) (.pure _)

theorem single (kind : Kind) :
    Uniform (Scan.single (σ := σ) kind) (Scan.single (σ := τ) kind) :=
  .bind .consume fun _ => .pure _

theorem numericOr (kind : Kind) {scan : Scan σ Bool} {scan' : Scan τ Bool}
    (h : Uniform scan scan') :
    Uniform
      (do if ← Scan.lookahead scan then return Lexeme.token (← Scan.numeric)
          else Scan.single kind)
      (do if ← Scan.lookahead scan' then return Lexeme.token (← Scan.numeric)
          else Scan.single kind) :=
  .bind (.keepIf _ h) fun _ => .ite (.bind .numeric fun _ => .pure _) (.single _)

theorem nameLikeOr {scan : Scan σ Lexeme} {scan' : Scan τ Lexeme} (h : Uniform scan scan') :
    Uniform
      (do
        match ← Scan.attempt? Scan.nameLike with
        | some kind => return .token kind
        | none => scan)
      (do
        match ← Scan.attempt? Scan.nameLike with
        | some kind => return .token kind
        | none => scan') := by
  apply Uniform.bind (.keepIf _ .nameLike)
  intro kind?
  cases kind? with
  | some kind => exact .pure _
  | none => exact h

/-- The lexeme that begins with a code point is read the same way from every source. -/
theorem lexeme (c : Char) : Uniform (Scan.lexeme (σ := σ) c) (Scan.lexeme (σ := τ) c) := by
  unfold Scan.lexeme
  split
  case h_1 =>
    refine .bind (.acceptText _) fun _ => .ite ?_ (.single _)
    exact .bind .comment fun _ => .ite (.pure _) (.pure _)
  case h_2 => exact .bind (.acceptWhile _) fun _ => .pure _
  case h_3 =>
    exact .bind .consume fun _ => .bind (.quoted _) fun _ => .ite (.pure _) (.pure _)
  case h_4 =>
    refine .bind .consume fun _ => .bind (.keepIf _ .nameUnit) fun _ => .ite ?_ (.pure _)
    exact .bind .name fun _ => .pure _
  case h_6 => exact .bind .consume fun _ => .pure _
  case h_10 => exact .numericOr _ .numberStart
  case h_11 => exact .bind (.acceptText _) fun _ => .ite (.pure _) (.single _)
  case h_12 =>
    refine .bind .consume fun _ => .bind (.keepIf _ .identifier) fun _ => ?_
    exact .ite (.pure _) (.pure _)
  case h_13 => exact .bind .numeric fun _ => .pure _
  case h_14 =>
    refine .bind (.acceptText _) fun _ => .ite (.pure _) ?_
    exact .nameLikeOr (.numericOr _ .numberStart)
  case h_15 => exact .nameLikeOr (.single _)
  all_goals exact .single _

end Uniform
end Stylesheet
