import Mathlib.Control.Monad.Basic
import Stylesheet.Proofs.Runs

/-!
# Maximal munch

A token ends where it has to: what comes next could not have been part of it, nor have made more
of it. Each judgement of the grammar says where it stops, so a reading does, and so does every
token of a run.
-/
namespace Stylesheet

/-- What comes behind a token is nothing that the token would have gone on with. -/
structure Forced (token : Token) (rest : List Char) : Prop where
  whitespace : token.kind = .whitespace → (Pattern.one CodePoint.isWhitespace).fits rest = false
  name : token.kind ∈ [.ident, .atKeyword, .hash, .dimension] →
    Pattern.nameUnit.fits rest = false
  /-- With a parenthesis behind it, the name would have been one of a function. -/
  ident : token.kind = .ident → (Pattern.one (· = '(')).fits rest = false
  number : token.kind = .number → (Pattern.one CodePoint.isDigit).fits rest = false ∧
    (Pattern.one (· = '%')).fits rest = false ∧ Pattern.identifier.fits rest = false
  /-- A number has one fraction only, and none behind its exponent. -/
  fraction : token.kind = .number → Pattern.fraction.fits rest = true →
    ∃ c ∈ token.text.toList, c = '.' ∨ c = 'e' ∨ c = 'E'

namespace Grammar

open CodePoint

variable {taken rest : List Char}

/-- Nothing is asked of the other kinds, which end with a mark or are one code point. -/
theorem forced_of_kind {kind : Kind}
    (h : kind ∉ [Kind.whitespace, .ident, .atKeyword, .hash, .dimension, .number])
    (text : String) (rest : List Char) : Forced ⟨kind, text⟩ rest := by
  simp only [List.mem_cons, List.not_mem_nil, or_false, not_or] at h
  obtain ⟨hwhitespace, hident, hatKeyword, hhash, hdimension, hnumber⟩ := h
  refine ⟨fun hk => absurd hk hwhitespace, fun hk => ?_, fun hk => absurd hk hident,
    fun hk => absurd hk hnumber, fun hk => absurd hk hnumber⟩
  simp [hident, hatKeyword, hhash, hdimension] at hk

theorem forced_of_name {kind : Kind} {text : String} (hk : kind ∈ [.atKeyword, .hash, .dimension])
    (h : Pattern.nameUnit.fits rest = false) : Forced ⟨kind, text⟩ rest := by
  simp only [List.mem_cons, List.not_mem_nil, or_false] at hk
  obtain rfl | rfl | rfl := hk
  all_goals exact ⟨nofun, fun _ => h, nofun, nofun, nofun⟩

theorem Numeric.forced {kind : Kind} {text : String} (h : Numeric kind text.toList rest) :
    Forced ⟨kind, text⟩ rest := by
  generalize htext : text.toList = taken at h
  cases h with
  | percentage => exact forced_of_kind (by decide) _ _
  | dimension _ hu => exact forced_of_name (by decide) hu.stops
  | number h hp hi =>
    obtain ⟨hdigit, hfraction⟩ := h.stops
    exact ⟨nofun, by simp, nofun, fun _ => ⟨hdigit, hp, hi⟩, fun _ => htext ▸ hfraction⟩

theorem NameLike.forced {kind : Kind} {text : String} (h : NameLike kind text.toList rest) :
    Forced ⟨kind, text⟩ rest := by
  generalize text.toList = taken at h
  cases h with
  | ident h hp => exact ⟨nofun, fun _ => h.stops, fun _ => hp, nofun, nofun⟩
  | function | quotedUrl | endlessUrl => exact forced_of_kind (by decide) _ _
  | @url _ _ _ _ good => cases good <;> exact forced_of_kind (by decide) _ _

/-- Whatever is read as a token, its end is forced. -/
theorem Reading.forced {lexeme : Lexeme} {blocks : Nesting} {token : Token}
    (h : Reading lexeme token.text.toList rest) (hk : blocks.settle lexeme = .ok token.kind) :
    Forced token rest := by
  obtain ⟨kind, text⟩ := token
  cases lexeme with
  | unterminatedComment => contradiction
  | closing block =>
    obtain rfl := Except.ok.inj hk
    apply forced_of_kind
    split
    · cases block <;> decide
    · decide
  | token kind =>
    obtain rfl := Except.ok.inj hk
    dsimp only at h
    generalize htext : text.toList = taken at h
    cases h with
    | whitespace h => exact ⟨fun _ => h.stops, by simp, nofun, nofun, nofun⟩
    | hash h => exact forced_of_name (by decide) h.stops
    | atKeyword h => exact forced_of_name (by decide) h.stops
    | numeric h =>
      subst htext
      exact h.forced
    | nameLike h =>
      subst htext
      exact h.forced
    | opening block => cases block <;> exact forced_of_kind (by decide) _ _
    | _ => exact forced_of_kind (by decide) _ _

end Grammar

namespace Tokenizer

/-- Every token of a run, of whatever text, ends where it has to. -/
theorem token_ends_forced (text : String) (n : Nat) (token : Token)
    (h : ((ofString text).after n).nextToken.1 = .ok token) :
    ∃ rest, (Token.concat (returned ((ofString text).answers (n + 1)))).toList ++ rest =
      LineEnding.normalize text.toList ∧ Forced token rest := by
  obtain ⟨rest, hreturned⟩ := exists_returned h
  refine ⟨rest, hreturned.whole, ?_⟩
  by_cases hk : token.kind = .done
  · obtain ⟨kind, text⟩ := token
    obtain rfl : kind = .done := hk
    exact Grammar.forced_of_kind (by decide) _ _
  · obtain ⟨lexeme, blocks, hr, hsettle⟩ := hreturned.reading hk
    exact hr.forced hsettle

/-- A second fraction is another token. -/
theorem token_ends_forced_fraction :
    ((ofString "1.5.2").after 0).nextToken.1 = .ok ⟨.number, "1.5"⟩ ∧
      ∃ rest, (Token.concat (returned ((ofString "1.5.2").answers 1))).toList ++ rest =
        LineEnding.normalize "1.5.2".toList ∧ Forced ⟨.number, "1.5"⟩ rest :=
  ⟨by decide +kernel, token_ends_forced "1.5.2" 0 ⟨.number, "1.5"⟩ (by decide +kernel)⟩

end Tokenizer
end Stylesheet
