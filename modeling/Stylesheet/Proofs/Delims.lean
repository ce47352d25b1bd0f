import Stylesheet.Proofs.Starts

/-!
# Code points that stand alone

A code point that nothing else begins with is a token of its own. Which of them can begin something
else depends on what follows, and for a closing bracket on the open blocks. Main statement: a
delimiter token is read exactly in these cases, and it takes its code point and nothing more,
whatever was tried before.
-/
namespace Stylesheet

open CodePoint Grammar

/-- An ASCII code point that begins no token but its own, whatever follows. -/
def CodePoint.isStray (c : Char) : Bool :=
  !(isNonAscii c || isWhitespace c || isQuote c || isLetter c || isDigit c ||
    c ∈ ['_', ',', ':', ';', '(', ')', '[', ']', '{', '}', '#', '@', '.', '+', '-', '<', '/', '\\'])

/-- In front of the text, the code point is a token of its own. -/
inductive StandsAlone (blocks : Nesting) : Char → List Char → Prop
  | closing {block : Block} (h : blocks.head? ≠ some block) (rest : List Char) :
      StandsAlone blocks block.closingChar rest
  | numberSign {rest : List Char} (h : Pattern.nameUnit.fits rest = false) :
      StandsAlone blocks '#' rest
  | atSign {rest : List Char} (h : Pattern.identifier.fits rest = false) :
      StandsAlone blocks '@' rest
  | pointOrPlus {c : Char} {rest : List Char} (hc : c = '.' ∨ c = '+')
      (h : Pattern.number.fits (c :: rest) = false) : StandsAlone blocks c rest
  | hyphen {rest : List Char} (hc : ¬ ['-', '-', '>'] <+: '-' :: rest)
      (hi : Pattern.identifier.fits ('-' :: rest) = false)
      (hn : Pattern.number.fits ('-' :: rest) = false) : StandsAlone blocks '-' rest
  | lessThan {rest : List Char} (h : ¬ ['<', '!', '-', '-'] <+: '<' :: rest) :
      StandsAlone blocks '<' rest
  | solidus {rest : List Char} (h : ¬ ['/', '*'] <+: '/' :: rest) : StandsAlone blocks '/' rest
  | backslash {rest : List Char} (h : rest.head?.all isNewline = true) :
      StandsAlone blocks '\\' rest
  | stray {c : Char} (hc : isStray c = true) (rest : List Char) : StandsAlone blocks c rest

variable {c : Char} {rest taken : List Char} {blocks : Nesting}

theorem forall_ascii {p : Char → Prop} (h : ∀ n < 128, p (Char.ofNat n))
    (hc : isNonAscii c = false) : p c := by
  have hlt : c.toNat < 128 := by simpa [isNonAscii] using hc
  have hp := h c.toNat hlt
  rwa [Char.ofNat_toNat] at hp

theorem lead_eq_other_iff (c : Char) : Lead.of c = .other ↔ isStray c = true := by
  cases hc : isNonAscii c with
  | true =>
    have hname : Lead.of c = .name :=
      Lead.of_eq_of_says (by decide) (.inr (by simp [isNameStart, hc]))
    simp [hname, isStray, hc]
  | false =>
    revert c
    refine fun c hc => forall_ascii (p := fun c => Lead.of c = .other ↔ isStray c = true) ?_ hc
    decide +kernel

/-! ## What follows -/

theorem fits_backslash (rest : List Char) :
    (Pattern.one (!isNewline ·)).fits rest = false ↔ rest.head?.all isNewline = true := by
  cases rest <;> simp

theorem fits_text_behind_iff {text : List Char} :
    (Pattern.text text).fits rest = false ↔ ¬ c :: text <+: c :: rest := by
  rw [Pattern.fits_text_eq_false_iff, List.cons_prefix_cons, eq_self, true_and]

/-- What does not go on stands alone. -/
theorem standsAlone_of_goesOn (h : (Lead.goesOn c).fits rest = false) :
    StandsAlone blocks c rest := by
  have hsays := Lead.says_of c
  unfold Lead.goesOn at h
  cases hlead : Lead.of c <;> rw [hlead] at h hsays
  case solidus =>
    obtain rfl : c = '/' := hsays
    exact .solidus (fits_text_behind_iff.mp h)
  case numberSign =>
    obtain rfl : c = '#' := hsays
    exact .numberSign h
  case pointOrPlus =>
    obtain rfl | rfl : c = '.' ∨ c = '+' := hsays
    · refine .pointOrPlus (.inl rfl) ?_
      rw [Pattern.fits_number_point]
      exact h
    · refine .pointOrPlus (.inr rfl) ?_
      rw [Pattern.fits_number_sign (by decide)]
      exact h
  case lessThan =>
    obtain rfl : c = '<' := hsays
    exact .lessThan (fits_text_behind_iff.mp h)
  case atSign =>
    obtain rfl : c = '@' := hsays
    exact .atSign h
  case hyphen =>
    obtain rfl : c = '-' := hsays
    have h : (Pattern.text ['-', '>'] ++ .hyphenated ++ .unsigned).fits rest = false := h
    rw [Pattern.fits_either, Pattern.fits_either, Bool.or_eq_false_iff, Bool.or_eq_false_iff] at h
    obtain ⟨⟨hcdc, hidentifier⟩, hnumber⟩ := h
    refine .hyphen (fits_text_behind_iff.mp hcdc) ?_ ?_
    · rwa [Pattern.fits_identifier_hyphen]
    · rwa [Pattern.fits_number_sign (by decide)]
  case name =>
    by_cases hc : c = '\\'
    · subst hc
      exact .backslash ((fits_backslash rest).mp h)
    · simp [hc, Pattern.anything, Pattern.fits, begins] at h
  case other => exact .stray ((lead_eq_other_iff c).mp hlead) rest
  all_goals contradiction

/-- And what stands alone does not go on, or closes no block. -/
theorem StandsAlone.exists_reading (h : StandsAlone blocks c rest) :
    ∃ lexeme, Reading lexeme [c] rest ∧ blocks.settle lexeme = .ok .delim := by
  have hgoes : (Lead.goesOn c).fits rest = false →
      ∃ lexeme, Reading lexeme [c] rest ∧ blocks.settle lexeme = .ok .delim :=
    fun hgoes => ⟨.token .delim, .delim hgoes, rfl⟩
  cases h with
  | @closing block h =>
    refine ⟨.closing block, .closing block rest, ?_⟩
    rw [Nesting.settle, if_neg h]
  | numberSign h | atSign h => exact hgoes h
  | pointOrPlus hc h =>
    obtain rfl | rfl := hc
    · rw [Pattern.fits_number_point] at h
      exact hgoes h
    · rw [Pattern.fits_number_sign (by decide)] at h
      exact hgoes h
  | hyphen hc hi hn =>
    have hcdc : (Pattern.text ['-', '>']).fits rest = false := fits_text_behind_iff.mpr hc
    rw [Pattern.fits_identifier_hyphen] at hi
    rw [Pattern.fits_number_sign (by decide)] at hn
    have hall : (Pattern.text ['-', '>'] ++ .hyphenated ++ .unsigned).fits rest = false := by
      rw [Pattern.fits_either, Pattern.fits_either, hcdc, hi, hn]
      rfl
    exact hgoes hall
  | lessThan h | solidus h => exact hgoes (fits_text_behind_iff.mpr h)
  | backslash h => exact hgoes ((fits_backslash rest).mpr h)
  | stray hc =>
    apply hgoes
    unfold Lead.goesOn
    rw [(lead_eq_other_iff c).mpr hc]
    rfl

theorem closing_ne_delim (block : Block) : Kind.closing block ≠ .delim := by
  cases block <;> decide

theorem delim_of_settle {lexeme : Lexeme} (h : blocks.settle lexeme = .ok .delim) :
    lexeme = .token .delim ∨ ∃ block, lexeme = .closing block ∧ blocks.head? ≠ some block := by
  cases lexeme with
  | token kind =>
    obtain rfl : kind = .delim := Except.ok.inj h
    exact .inl rfl
  | closing block =>
    refine .inr ⟨block, rfl, fun hhead => ?_⟩
    rw [Nesting.settle, if_pos hhead] at h
    exact closing_ne_delim block (Except.ok.inj h)
  | unterminatedComment => contradiction

/-- A delimiter is one code point, which stands alone. -/
theorem Grammar.Reading.standsAlone {lexeme : Lexeme} (h : Reading lexeme taken rest)
    (hk : blocks.settle lexeme = .ok .delim) : ∃ c, taken = [c] ∧ StandsAlone blocks c rest := by
  obtain rfl | ⟨block, rfl, hhead⟩ := delim_of_settle hk
  · generalize hkind : Kind.delim = kind at h
    cases h with
    | delim h => exact ⟨_, rfl, standsAlone_of_goesOn h⟩
    | opening block => cases block <;> contradiction
    | numeric h => cases h <;> contradiction
    | nameLike h =>
      obtain rfl | rfl | rfl | rfl := h.kind_eq
      all_goals contradiction
    | _ => contradiction
  · cases h with
    | closing block => exact ⟨_, rfl, .closing hhead rest⟩

namespace Tokenizer

variable {ι : Type} [CharStream ι] [CharStream.Fused ι] {t : Tokenizer (BufferedSource ι)}

/-- The next token is a delimiter if and only if the code point that is next stands alone. It is
then that code point and nothing more: the open blocks are as they were, and the tokenizer stands in
front of what follows, one code point on. -/
theorem nextToken_delim (h : t.Faces (c :: rest)) :
    ((∃ token, t.nextToken.1 = .ok token ∧ token.kind = .delim) ↔ StandsAlone t.blocks c rest) ∧
    (StandsAlone t.blocks c rest →
      t.Hands ⟨.delim, String.ofList [c]⟩ t.blocks rest ∧
      Source.position t.nextToken.2.source =
        ⟨t.source.offset + c.utf8Size, t.location.advance c⟩) := by
  have halone : StandsAlone t.blocks c rest →
      t.Hands ⟨.delim, String.ofList [c]⟩ t.blocks rest ∧
      Source.position t.nextToken.2.source =
        ⟨t.source.offset + c.utf8Size, t.location.advance c⟩ := by
    intro halone
    obtain ⟨lexeme, hr, hk⟩ := halone.exists_reading
    have h : t.Faces ([c] ++ rest) := h
    have hposition := h.position_nextToken hr hk
    rw [utf8Length_cons, utf8Length_nil, Nat.add_zero] at hposition
    exact ⟨h.hands hr hk, hposition⟩
  refine ⟨⟨?_, fun hc => ⟨_, (halone hc).1.answer, rfl⟩⟩, halone⟩
  rintro ⟨token, ha, hk⟩
  have hne : token.kind ≠ .done := by
    rw [hk]
    decide
  obtain ⟨lexeme, behind, htext, hr, hsettle⟩ := h.exists_reading ha hne
  rw [hk] at hsettle
  obtain ⟨d, htoken, hd⟩ := hr.standsAlone hsettle
  rw [htoken] at htext
  obtain ⟨rfl, rfl⟩ := List.cons.inj htext
  exact hd

/-- Behind a hyphen neither a name nor a number begins with a backslash that a line ends after. -/
theorem nextToken_delim_hyphen :
    (ofString "-\\\n1").Hands ⟨.delim, "-"⟩ [] ['\\', '\n', '1'] ∧
      Source.position (ofString "-\\\n1").nextToken.2.source = ⟨1, ⟨1, 2⟩⟩ := by
  have hfaces : (ofString "-\\\n1").Faces ('-' :: ['\\', '\n', '1']) := faces_ofString _
  exact (nextToken_delim hfaces).2 (.hyphen (by decide) (by decide) (by decide))

end Tokenizer
end Stylesheet
