import Stylesheet.Lexeme

/-!
# What lexemes can be

The lead of a lexeme narrows down its kind, whatever source it is read from: only a closing
bracket is the lexeme of one, only a solidus opens a comment, and no lexeme has a kind that ends a
list of tokens.
-/
namespace Stylesheet

/-- A kind that is no end of a list of tokens and closes no block. -/
def Kind.Plain (kind : Kind) : Prop :=
  kind ≠ .done ∧ kind ≠ .error ∧ kind.closes? = none

instance (kind : Kind) : Decidable kind.Plain := inferInstanceAs (Decidable (_ ∧ _ ∧ _))

/-- What a lexeme with this lead can be. -/
def Lead.Allows (lead : Lead) : Lexeme → Prop
  | .token kind => kind.Plain ∧ ∀ block, lead ≠ .closing block
  | .closing block => lead = .closing block
  | .unterminatedComment => lead = .solidus

namespace Scan

variable {σ α β : Type}

/-- Every answer of the scan has the property, whatever it reads. -/
def Answers (P : α → Prop) (scan : Scan σ α) : Prop := ∀ s, P (scan s).1

theorem Answers.pure {P : α → Prop} {a : α} (h : P a) : Answers (σ := σ) P (Pure.pure a) :=
  fun _ => h

/-- What was answered on the way, and what it makes of what follows. -/
theorem Answers.bind {P : α → Prop} {Q : β → Prop} {scan : Scan σ α} {next : α → Scan σ β}
    (h : Answers P scan) (hn : ∀ a, P a → Answers Q (next a)) : Answers Q (scan >>= next) :=
  fun s => hn _ (h s) _

theorem Answers.after {Q : β → Prop} {scan : Scan σ α} {next : α → Scan σ β}
    (hn : ∀ a, Answers Q (next a)) : Answers Q (scan >>= next) :=
  fun _ => hn _ _

theorem Answers.ite {P : α → Prop} {p : Prop} [Decidable p] {a b : Scan σ α} (ha : Answers P a)
    (hb : Answers P b) : Answers P (if p then a else b) := by
  split
  · exact ha
  · exact hb

variable [Source σ]

theorem Answers.keepIf {P : α → Prop} {scan : Scan σ α} (keep : α → Bool) (h : Answers P scan) :
    Answers P (keepIf keep scan) := by
  intro s
  rw [keepIf_answer]
  exact h s

theorem answers_numeric : Answers (σ := σ) Kind.Plain numeric :=
  .after fun _ => .after fun _ => .ite (.pure (by decide))
    (.after fun _ => .ite (.pure (by decide)) (.pure (by decide)))

theorem answers_urlRest : Answers (σ := σ) Kind.Plain urlRest :=
  .after fun _ => .ite (.pure (by decide))
    (.after fun _ => .ite (.pure (by decide)) (.pure (by decide)))

theorem answers_nameLike : Answers (σ := σ) (∀ kind ∈ ·, Kind.Plain kind) nameLike := by
  refine .after fun _ => .ite (.bind answers_urlRest fun kind h => .pure ?_) ?_
  · rintro _ ⟨⟩
    exact h
  · refine .after fun _ => .ite (.after fun _ => .ite (.pure ?_) (.pure ?_)) (.pure nofun)
    · rintro _ ⟨⟩
      decide
    · rintro _ ⟨⟩
      decide

section Lead

variable {lead : Lead} {kind : Kind}

omit [Source σ] in
theorem answers_token (hl : ∀ block, lead ≠ .closing block) (hk : kind.Plain) :
    Answers (σ := σ) lead.Allows (Pure.pure (Lexeme.token kind)) :=
  .pure ⟨hk, hl⟩

theorem answers_single (hl : ∀ block, lead ≠ .closing block) (hk : kind.Plain) :
    Answers (σ := σ) lead.Allows (single kind) :=
  .after fun _ => answers_token hl hk

theorem answers_numericOr (hl : ∀ block, lead ≠ .closing block) (hk : kind.Plain) :
    Answers (σ := σ) lead.Allows (do
      if ← lookahead numberStart then return Lexeme.token (← numeric) else single kind) :=
  .after fun _ => .ite (.bind answers_numeric fun _ h => answers_token hl h)
    (answers_single hl hk)

theorem answers_nameLikeOr {other : Scan σ Lexeme} (hl : ∀ block, lead ≠ .closing block)
    (h : Answers lead.Allows other) :
    Answers lead.Allows (do
      match ← attempt? nameLike with
      | some kind => return .token kind
      | none => other) := by
  refine .bind (.keepIf _ answers_nameLike) ?_
  intro kind? hplain
  cases kind? with
  | some kind => exact answers_token hl (hplain kind rfl)
  | none => exact h

end Lead

/-- A lexeme is one that its lead allows. -/
theorem answers_lexeme (c : Char) : Answers (σ := σ) (Lead.of c).Allows (lexeme c) := by
  unfold lexeme
  split <;> rename_i hl <;> rw [hl]
  case h_1 =>
    refine .after fun _ => .ite (.after fun _ => .ite ?_ (.pure rfl)) ?_
    · exact answers_token nofun (by decide)
    · exact answers_single nofun (by decide)
  case h_2 => exact .after fun _ => answers_token nofun (by decide)
  case h_3 =>
    exact .after fun _ => .after fun _ => .ite (answers_token nofun (by decide))
      (answers_token nofun (by decide))
  case h_4 =>
    refine .after fun _ => .after fun _ => .ite (.after fun _ => ?_) ?_
    · exact answers_token nofun (by decide)
    · exact answers_token nofun (by decide)
  case h_5 block => exact answers_single nofun (by cases block <;> decide)
  case h_6 => exact .after fun _ => .pure rfl
  case h_10 => exact answers_numericOr nofun (by decide)
  case h_11 =>
    exact .after fun _ => .ite (answers_token nofun (by decide))
      (answers_single nofun (by decide))
  case h_12 =>
    exact .after fun _ => .after fun _ => .ite (answers_token nofun (by decide))
      (answers_token nofun (by decide))
  case h_13 => exact .bind answers_numeric fun _ h => answers_token nofun h
  case h_14 =>
    refine .after fun _ => .ite (answers_token nofun (by decide)) ?_
    exact answers_nameLikeOr nofun (answers_numericOr nofun (by decide))
  case h_15 => exact answers_nameLikeOr nofun (answers_single nofun (by decide))
  all_goals exact answers_single nofun (by decide)

end Scan
end Stylesheet
