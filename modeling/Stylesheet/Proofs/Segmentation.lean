import Mathlib.Control.Monad.Basic
import Stylesheet.Proofs.Nesting

/-!
# Segmentation

Two tokenizers that stand at the same place of one source take the same texts from it, whatever
blocks are open in each. The open blocks are looked at only to say what a closing mark is, and what
the end of the input is. Main statement: this holds call by call until both have come to an end,
and so also for a tokenizer that is made of the source of another one.
-/
namespace Stylesheet.Tokenizer

variable {σ : Type} [Source σ]

/-! ## One call -/

/-- What the end of the input is answered with, whatever blocks are open. -/
inductive Ending (text : String) (location : Location) : Except Failure Token → Prop
  | done : Ending text location (.ok ⟨.done, text⟩)
  | unclosedBlock (block : Block) : Ending text location (.error ⟨.unclosedBlock block, location⟩)

/-- What two tokenizers answer that differ in their open blocks at most, given the code point that
comes next. -/
inductive Corresponds : Option Char → Except Failure Token → Except Failure Token → Prop
  | token {c : Char} {token : Token} (hk : token.kind ≠ .done) :
      Corresponds (some c) (.ok token) (.ok token)
  /-- A closing mark closes a block in one of them and is a token of nothing in the other. -/
  | bracket (block : Block) (text : String) {kind kind' : Kind}
      (hk : kind = .closing block ∨ kind = .delim)
      (hk' : kind' = .closing block ∨ kind' = .delim) :
      Corresponds (some block.closingChar) (.ok ⟨kind, text⟩) (.ok ⟨kind', text⟩)
  | unterminatedComment {c : Char} (location : Location) :
      Corresponds (some c) (.error ⟨.unterminatedComment, location⟩)
        (.error ⟨.unterminatedComment, location⟩)
  | ended {text : String} {location : Location} {answer answer' : Except Failure Token}
      (h : Ending text location answer) (h' : Ending text location answer') :
      Corresponds none answer answer'

/-- The answer is neither the end of the input nor a failure. -/
def GoesOn (answer : Except Failure Token) : Prop :=
  ∃ token, answer = .ok token ∧ token.kind ≠ .done

theorem closing_ne_done {block : Block} {kind : Kind}
    (h : kind = .closing block ∨ kind = .delim) : kind ≠ .done := by
  obtain rfl | rfl := h
  · cases block <;> decide
  · decide

theorem not_goesOn_error (failure : Failure) : ¬ GoesOn (.error failure) := by
  rintro ⟨token, htoken, -⟩
  contradiction

theorem Ending.not_goesOn {text : String} {location : Location} {answer : Except Failure Token}
    (h : Ending text location answer) : ¬ GoesOn answer := by
  cases h with
  | done =>
    rintro ⟨token, htoken, hk⟩
    obtain rfl := Except.ok.inj htoken
    exact hk rfl
  | unclosedBlock block => exact not_goesOn_error _

namespace Corresponds

variable {ahead : Option Char} {answer answer' : Except Failure Token}

theorem goesOn_iff (h : Corresponds ahead answer answer') : GoesOn answer ↔ GoesOn answer' := by
  cases h with
  | token | unterminatedComment => exact Iff.rfl
  | bracket block text hk hk' =>
    exact ⟨fun _ => ⟨_, rfl, closing_ne_done hk'⟩, fun _ => ⟨_, rfl, closing_ne_done hk⟩⟩
  | ended h h' => exact ⟨fun hg => absurd hg h.not_goesOn, fun hg => absurd hg h'.not_goesOn⟩

theorem text_eq (h : Corresponds ahead answer answer') {token token' : Token}
    (ht : answer = .ok token) (ht' : answer' = .ok token') : token.text = token'.text := by
  cases h with
  | token =>
    obtain rfl := Except.ok.inj ht
    obtain rfl := Except.ok.inj ht'
    rfl
  | bracket block text =>
    obtain rfl := Except.ok.inj ht
    obtain rfl := Except.ok.inj ht'
    rfl
  | unterminatedComment => contradiction
  | ended h h' =>
    cases h with
    | unclosedBlock => contradiction
    | done =>
      cases h' with
      | unclosedBlock => contradiction
      | done =>
        obtain rfl := Except.ok.inj ht
        obtain rfl := Except.ok.inj ht'
        rfl

end Corresponds

/-- Tokenizers that have not failed and stand at the same place. -/
structure Beside (t u : Tokenizer σ) : Prop where
  source : t.source = u.source
  failure : t.failure? = none
  failure' : u.failure? = none

theorem ending_of_peek {t : Tokenizer σ} {s : σ} (hf : t.failure? = none)
    (hp : Source.peek t.source = (none, s)) :
    Ending (Source.takeText s).1 t.location t.nextToken.1 := by
  cases hb : t.blocks with
  | nil =>
    rw [(Step.done hf hp hb).nextToken_eq]
    exact .done
  | cons block blocks =>
    rw [(Step.unclosedBlock hf hp (by rw [hb, List.head?_cons])).nextToken_eq]
    exact .unclosedBlock block

/-- One call of both: the open blocks have no part in what is taken from the source. -/
theorem Beside.nextToken {t u : Tokenizer σ} (h : Beside t u) :
    Corresponds (Source.peek t.source).1 t.nextToken.1 u.nextToken.1 ∧
      (GoesOn t.nextToken.1 → Beside t.nextToken.2 u.nextToken.2) := by
  obtain ⟨hsource, hf, hf'⟩ := h
  have hlocation : u.location = t.location := by rw [location, location, hsource]
  cases hp : Source.peek t.source with
  | mk c? s =>
    have hp' := hp
    rw [hsource] at hp'
    cases c? with
    | none =>
      have hending := ending_of_peek hf hp
      exact ⟨.ended hending (hlocation ▸ ending_of_peek hf' hp'),
        fun hg => absurd hg hending.not_goesOn⟩
    | some c =>
      cases hl : Scan.lexeme c s with
      | mk lexeme s' =>
        cases lexeme with
        | token kind =>
          have hallowed := Scan.answers_lexeme c s
          rw [hl] at hallowed
          rw [(Step.token hf hp hl rfl).nextToken_eq, (Step.token hf' hp' hl rfl).nextToken_eq]
          exact ⟨.token hallowed.1.1, fun _ => ⟨rfl, hf, hf'⟩⟩
        | closing block =>
          have hallowed := Scan.answers_lexeme c s
          rw [hl] at hallowed
          obtain rfl : block.closingChar = c := Lead.says_of_eq hallowed
          have hkind : ∀ blocks : Nesting,
              (if blocks.head? = some block then Kind.closing block else .delim) =
                .closing block ∨
              (if blocks.head? = some block then Kind.closing block else .delim) = .delim :=
            fun blocks => ite_eq_or_eq _ _ _
          rw [(Step.token hf hp hl rfl).nextToken_eq, (Step.token hf' hp' hl rfl).nextToken_eq]
          exact ⟨.bracket block _ (hkind _) (hkind _), fun _ => ⟨rfl, hf, hf'⟩⟩
        | unterminatedComment =>
          rw [(Step.unterminatedComment hf hp hl).nextToken_eq,
            (Step.unterminatedComment hf' hp' hl).nextToken_eq, hlocation]
          exact ⟨.unterminatedComment _, fun hg => absurd hg (not_goesOn_error _)⟩

/-! ## Runs -/

/-- So many calls have given neither the end of the input nor a failure. -/
def Going (t : Tokenizer σ) (n : Nat) : Prop := ∀ answer ∈ t.answers n, GoesOn answer

theorem going_zero (t : Tokenizer σ) : t.Going 0 := nofun

theorem going_succ_iff {t : Tokenizer σ} {n : Nat} :
    t.Going (n + 1) ↔ t.Going n ∧ GoesOn (t.after n).nextToken.1 := by
  simp only [Going, answers, List.forall_mem_append, List.forall_mem_singleton]

/-- After so many calls, both tokenizers have split what they read at the same places: they have
come to an end in the same call, and up to there they take the same texts. -/
structure SplitAlike (t u : Tokenizer σ) (n : Nat) : Prop where
  going : t.Going n ↔ u.Going n
  source : t.Going n → (t.after n).source = (u.after n).source
  texts : t.Going n →
    (returned (t.answers n)).map Token.text = (returned (u.answers n)).map Token.text
  /-- The next answers, which may be the last ones. -/
  next : t.Going n → Corresponds (Source.peek (t.after n).source).1 (t.after n).nextToken.1
    (u.after n).nextToken.1

variable {t u : Tokenizer σ}

theorem Beside.after (h : Beside t u) (n : Nat) :
    (t.Going n ↔ u.Going n) ∧ (t.Going n → Beside (t.after n) (u.after n)) := by
  induction n with
  | zero => exact ⟨⟨fun _ => going_zero u, fun _ => going_zero t⟩, fun _ => h⟩
  | succ n ih =>
    obtain ⟨hgoing, hbeside⟩ := ih
    rw [going_succ_iff, going_succ_iff]
    constructor
    · constructor
      · rintro ⟨hn, hnext⟩
        exact ⟨hgoing.mp hn, (hbeside hn).nextToken.1.goesOn_iff.mp hnext⟩
      · rintro ⟨hn, hnext⟩
        have hn := hgoing.mpr hn
        exact ⟨hn, (hbeside hn).nextToken.1.goesOn_iff.mpr hnext⟩
    · rintro ⟨hn, hnext⟩
      exact (hbeside hn).nextToken.2 hnext

theorem Beside.texts (h : Beside t u) {n : Nat} (hn : t.Going n) :
    (returned (t.answers n)).map Token.text = (returned (u.answers n)).map Token.text := by
  induction n with
  | zero => rfl
  | succ n ih =>
    obtain ⟨hn, hnext⟩ := going_succ_iff.mp hn
    have hcorresponds := ((h.after n).2 hn).nextToken.1
    obtain ⟨token', htoken', -⟩ := hcorresponds.goesOn_iff.mp hnext
    obtain ⟨token, htoken, -⟩ := hnext
    rw [answers, answers, htoken, htoken', returned_append_ok, returned_append_ok,
      List.map_append, List.map_append, ih hn, List.map_singleton, List.map_singleton,
      hcorresponds.text_eq htoken htoken']

theorem Beside.splitAlike (h : Beside t u) (n : Nat) : SplitAlike t u n := by
  obtain ⟨hgoing, hbeside⟩ := h.after n
  exact ⟨hgoing, fun hn => (hbeside hn).source, fun hn => h.texts hn,
    fun hn => (hbeside hn).nextToken.1⟩

/-- Where tokens begin and end does not depend on the open blocks, from any place of any source
on. A tokenizer without open blocks that goes on from a place between two tokens splits what is
left as the one before it would have done. -/
theorem splitAlike_of_source_eq (hsource : t.source = u.source) (ht : t.failure? = none)
    (hu : u.failure? = none) (n : Nat) :
    SplitAlike t u n ∧
      (t.Going n → ∀ m, SplitAlike (t.after n) (ofSource (t.after n).source) m) := by
  have h : Beside t u := ⟨hsource, ht, hu⟩
  refine ⟨h.splitAlike n, fun hn m => ?_⟩
  have hbeside : Beside (t.after n) (ofSource (t.after n).source) :=
    ⟨rfl, ((h.after n).2 hn).failure, rfl⟩
  exact hbeside.splitAlike m

/-- A closing mark inside of the block that it closes, and where nothing is open. -/
theorem splitAlike_of_source_eq_bracket :
    Going { ofString "a)b" with blocks := [.parenthesis] } 1 ∧
      SplitAlike { ofString "a)b" with blocks := [.parenthesis] } (ofString "a)b") 1 ∧
      ({ ofString "a)b" with blocks := [.parenthesis] } : Tokenizer _).answers 4 =
        [.ok ⟨.ident, "a"⟩, .ok ⟨.closeParen, ")"⟩, .ok ⟨.ident, "b"⟩, .ok ⟨.done, ""⟩] ∧
      (ofSource (({ ofString "a)b" with blocks := [.parenthesis] } :
          Tokenizer _).after 1).source).answers 3 =
        [.ok ⟨.delim, ")"⟩, .ok ⟨.ident, "b"⟩, .ok ⟨.done, ""⟩] ∧
      SplitAlike (({ ofString "a)b" with blocks := [.parenthesis] } : Tokenizer _).after 1)
        (ofSource (({ ofString "a)b" with blocks := [.parenthesis] } :
          Tokenizer _).after 1).source) 2 := by
  obtain ⟨hsplit, hrest⟩ := splitAlike_of_source_eq
    (t := { ofString "a)b" with blocks := [.parenthesis] }) (u := ofString "a)b") rfl rfl rfl 1
  have hanswers : ({ ofString "a)b" with blocks := [.parenthesis] } : Tokenizer _).answers 1 =
      [.ok ⟨.ident, "a"⟩] := by decide +kernel
  have hgoing : Going { ofString "a)b" with blocks := [.parenthesis] } 1 := by
    intro answer hmem
    rw [hanswers] at hmem
    obtain rfl := List.mem_singleton.mp hmem
    exact ⟨_, rfl, by decide⟩
  exact ⟨hgoing, hsplit, by decide +kernel, by decide +kernel, hrest hgoing 2⟩

end Stylesheet.Tokenizer
