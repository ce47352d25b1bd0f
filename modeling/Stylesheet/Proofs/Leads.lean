import Stylesheet.Lexeme.Lead

/-!
# What leads say

A lead is found by a chain of tests. Here it is said once what each lead means for its code point,
so that nothing else has to walk down that chain.
-/
namespace Stylesheet.Lead

open CodePoint

/-- What a lead says about its code point. -/
def Says : Lead → Char → Prop
  | solidus, c => c = '/'
  | whitespace, c => isWhitespace c = true
  | quote, c => isQuote c = true
  | numberSign, c => c = '#'
  | opening block, c => block.openingChar = c
  | closing block, c => block.closingChar = c
  | comma, c => c = ','
  | colon, c => c = ':'
  | semicolon, c => c = ';'
  | pointOrPlus, c => c = '.' ∨ c = '+'
  | lessThan, c => c = '<'
  | atSign, c => c = '@'
  | digit, c => isDigit c = true
  | hyphen, c => c = '-'
  | name, c => c = '\\' ∨ isNameStart c = true
  | other, c => isWhitespace c = false ∧ isQuote c = false ∧ isDigit c = false ∧
      isNameStart c = false ∧ ∀ block : Block, block.openingChar ≠ c ∧ block.closingChar ≠ c

theorem says_ite {p : Prop} [Decidable p] {a b : Lead} {c : Char} (ha : p → a.Says c)
    (hb : ¬ p → b.Says c) : (if p then a else b).Says c := by
  by_cases h : p
  · rw [if_pos h]
    exact ha h
  · rw [if_neg h]
    exact hb h

theorem says_of (c : Char) : (of c).Says c := by
  refine says_ite id fun _ => says_ite id fun hspace => says_ite id fun hquote =>
    says_ite id fun _ => says_ite id fun _ => says_ite id fun _ => says_ite id fun _ =>
    says_ite id fun _ => says_ite id fun _ => says_ite id fun _ => says_ite id fun _ =>
    says_ite id fun hdigit => says_ite id fun hname => ?_
  cases hopening : Block.ofOpening? c with
  | some block => exact Block.openingChar_of_ofOpening? hopening
  | none =>
    cases hclosing : Block.ofClosing? c with
    | some block => exact Block.closingChar_of_ofClosing? hclosing
    | none =>
      refine ⟨Bool.eq_false_iff.mpr hspace, Bool.eq_false_iff.mpr hquote,
        Bool.eq_false_iff.mpr hdigit, Bool.eq_false_iff.mpr fun h => hname (.inr h),
        fun block => ⟨?_, ?_⟩⟩
      · rintro rfl
        rw [Block.ofOpening?_openingChar] at hopening
        contradiction
      · rintro rfl
        rw [Block.ofClosing?_closingChar] at hclosing
        contradiction

/-- A code point has the lead of its class. -/
theorem says_of_eq {c : Char} {l : Lead} (h : of c = l) : l.Says c := h ▸ says_of c

/-- No class but that of the remaining code points leaves a choice. -/
theorem of_eq_of_says {c : Char} {l : Lead} (hl : l ≠ other) (h : l.Says c) : of c = l := by
  cases l with
  | solidus | numberSign | comma | colon | semicolon | lessThan | atSign | hyphen =>
    obtain rfl := h
    decide
  | opening block =>
    obtain rfl := h
    exact of_openingChar block
  | closing block =>
    obtain rfl := h
    exact of_closingChar block
  | pointOrPlus =>
    obtain rfl | rfl := h
    · decide
    · decide
  | whitespace =>
    obtain (rfl | rfl) | (rfl | rfl) | rfl :
        (c = ' ' ∨ c = '\t') ∨ (c = '\n' ∨ c = '\r') ∨ c = '\x0c' := by
      simpa [Says, isWhitespace, isNewline] using h
    all_goals decide
  | quote =>
    obtain rfl | rfl : c = '"' ∨ c = '\'' := by simpa [Says, isQuote] using h
    all_goals decide
  | digit =>
    have hd : isDigit c = true := h
    have hne : ∀ x, isDigit x = false → c ≠ x := fun x => ne_of_class hd
    have hs := isWhitespace_of_class hd (by decide) (by decide) (by decide) (by decide) (by decide)
    have hq := isQuote_of_class hd (by decide) (by decide)
    simp [of, hd, hs, hq, hne '/' (by decide), hne '#' (by decide), hne ',' (by decide),
      hne ':' (by decide), hne ';' (by decide), hne '.' (by decide), hne '+' (by decide),
      hne '<' (by decide), hne '@' (by decide), hne '-' (by decide)]
  | name =>
    obtain rfl | hn := h
    · decide
    · have hne : ∀ x, isNameStart x = false → c ≠ x := fun x => ne_of_class hn
      have hs := isWhitespace_of_class hn (by decide) (by decide) (by decide) (by decide)
        (by decide)
      have hq := isQuote_of_class hn (by decide) (by decide)
      simp [of, hn, isDigit_of_isNameStart hn, hs, hq, hne '/' (by decide), hne '#' (by decide),
        hne ',' (by decide), hne ':' (by decide), hne ';' (by decide), hne '.' (by decide),
        hne '+' (by decide), hne '<' (by decide), hne '@' (by decide), hne '-' (by decide)]
  | other => contradiction

end Stylesheet.Lead
