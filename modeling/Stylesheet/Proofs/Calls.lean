import Stylesheet.Tokenizer

/-!
# Calls

Everything that one call for a token can do is said here once, and what several calls in a row
answer is named.
-/
namespace Stylesheet.Tokenizer

variable {σ : Type} [Source σ]

/-- The answer of a call and the tokenizer it leaves. -/
inductive Step (t : Tokenizer σ) : Except Failure Token × Tokenizer σ → Prop
  | failed {failure : Failure} (hf : t.failure? = some failure) : Step t (.error failure, t)
  | done {s : σ} (hf : t.failure? = none) (hp : Source.peek t.source = (none, s))
      (hb : t.blocks = []) :
      Step t (.ok ⟨.done, (Source.takeText s).1⟩, { t with source := (Source.takeText s).2 })
  | unclosedBlock {s : σ} {block : Block} (hf : t.failure? = none)
      (hp : Source.peek t.source = (none, s)) (hb : t.blocks.head? = some block) :
      Step t (.error ⟨.unclosedBlock block, t.location⟩,
        { t with source := s, failure? := some ⟨.unclosedBlock block, t.location⟩ })
  | token {s s' : σ} {c : Char} {lexeme : Lexeme} {kind : Kind} (hf : t.failure? = none)
      (hp : Source.peek t.source = (some c, s)) (hl : Scan.lexeme c s = (lexeme, s'))
      (hk : t.blocks.settle lexeme = .ok kind) :
      Step t (.ok ⟨kind, (Source.takeText s').1⟩,
        { t with source := (Source.takeText s').2, blocks := t.blocks.after kind })
  | unterminatedComment {s s' : σ} {c : Char} (hf : t.failure? = none)
      (hp : Source.peek t.source = (some c, s))
      (hl : Scan.lexeme c s = (.unterminatedComment, s')) :
      Step t (.error ⟨.unterminatedComment, t.location⟩,
        { t with source := s', failure? := some ⟨.unterminatedComment, t.location⟩ })

theorem settle_eq_error {blocks : Nesting} {lexeme : Lexeme} {cause : Cause}
    (h : blocks.settle lexeme = .error cause) :
    lexeme = .unterminatedComment ∧ cause = .unterminatedComment := by
  cases lexeme with
  | token kind => contradiction
  | closing block => contradiction
  | unterminatedComment => exact ⟨rfl, (Except.error.inj h).symm⟩

/-- What a call can do is what it does. -/
theorem Step.nextToken_eq {t : Tokenizer σ} {r : Except Failure Token × Tokenizer σ}
    (h : t.Step r) : t.nextToken = r := by
  cases h with
  | failed hf => simp only [nextToken, hf]
  | done hf hp hb =>
    simp only [nextToken, hf, readKind, hp, hb, emit]
    rfl
  | unclosedBlock hf hp hb =>
    obtain ⟨blocks, hblocks⟩ := List.head?_eq_some_iff.mp hb
    simp only [nextToken, hf, readKind, hp, hblocks]
  | token hf hp hl hk => simp only [nextToken, hf, readKind, hp, hl, hk, emit]
  | unterminatedComment hf hp hl =>
    simp only [nextToken, hf, readKind, hp, hl, Nesting.settle]

theorem exists_step (t : Tokenizer σ) : ∃ r, t.Step r := by
  cases hf : t.failure? with
  | some failure => exact ⟨_, .failed hf⟩
  | none =>
    cases hp : Source.peek t.source with
    | mk c? s =>
      cases c? with
      | none =>
        cases hb : t.blocks with
        | nil => exact ⟨_, .done hf hp hb⟩
        | cons block blocks => exact ⟨_, .unclosedBlock hf hp (by rw [hb, List.head?_cons])⟩
      | some c =>
        cases hl : Scan.lexeme c s with
        | mk lexeme s' =>
          cases hk : t.blocks.settle lexeme with
          | ok kind => exact ⟨_, .token hf hp hl hk⟩
          | error cause =>
            obtain ⟨rfl, -⟩ := settle_eq_error hk
            exact ⟨_, .unterminatedComment hf hp hl⟩

theorem nextToken_step (t : Tokenizer σ) : t.Step t.nextToken := by
  obtain ⟨r, h⟩ := t.exists_step
  rwa [h.nextToken_eq]

/-! ## Runs -/

/-- The tokenizer after so many calls. -/
def after : Nat → Tokenizer σ → Tokenizer σ
  | 0, t => t
  | n + 1, t => (t.after n).nextToken.2

/-- What so many calls answer. -/
def answers : Nat → Tokenizer σ → List (Except Failure Token)
  | 0, _ => []
  | n + 1, t => t.answers n ++ [(t.after n).nextToken.1]

end Stylesheet.Tokenizer
