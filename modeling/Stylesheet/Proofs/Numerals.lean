import Stylesheet.Proofs.Languages
import Stylesheet.Proofs.Pieces
import Stylesheet.Proofs.Starts

/-!
# Numbers

The numbers of style sheets as a language. The grammar takes a number apart into a sign, digits, a
fraction and an exponent, each of them as long as it goes; that none of them could have stopped
earlier for the sake of the next is what makes the whole the longest number there is. Main
statement: a numeric token begins wherever the language says so, and is the longest number with the
unit that stands behind it.
-/
namespace Stylesheet

open CodePoint Grammar
open scoped Computability

/-- A sign or none. -/
def signs : Language Char := 1 + oneOf isSign

/-- Digits, and at least one. -/
def digits : Language Char := oneOf isDigit * (oneOf isDigit)∗

/-- A point and digits. -/
def decimals : Language Char := oneOf (· = '.') * digits

/-- The mark of an exponent, a sign or none, and digits. -/
def exponents : Language Char := oneOf isExponentMark * (signs * digits)

/-- What a number begins with. -/
def numberStarts : Language Char := signs * (digits + decimals)

/-- Digits, decimals or both, with a sign before them and an exponent behind them or without. -/
def numbers : Language Char := signs * ((digits * (1 + decimals) + decimals) * (1 + exponents))

/-! ## Patterns -/

/-- The pattern fits in front of the words of the language. -/
def Pattern.Announces (pattern : Pattern) (l : Language Char) : Prop :=
  ∀ cs, pattern.fits cs = true ↔ ∃ word ∈ l, word <+: cs

namespace Pattern.Announces

variable {pattern other : Pattern} {l m : Language Char} {p : Char → Bool}

theorem after (h : pattern.Announces l) : (Pattern.after p pattern).Announces (oneOf p * l) := by
  intro cs
  constructor
  · intro hfits
    cases cs with
    | nil => simp at hfits
    | cons c cs =>
      rw [fits_after_cons, Bool.and_eq_true] at hfits
      obtain ⟨word, hword, hbegins⟩ := (h cs).mp hfits.2
      exact ⟨c :: word, cons_mem_oneOf_mul.mpr ⟨hfits.1, hword⟩,
        List.cons_prefix_cons.mpr ⟨rfl, hbegins⟩⟩
  · rintro ⟨word, hword, hbegins⟩
    obtain ⟨_, ⟨c, hc, rfl⟩, rest, hrest, rfl⟩ := Language.mem_mul.mp hword
    obtain ⟨more, rfl⟩ := hbegins
    have hfits := (h (rest ++ more)).mpr ⟨rest, hrest, List.prefix_append rest more⟩
    rw [List.append_assoc, List.singleton_append, fits_after_cons, hc, hfits]
    rfl

/-- One of a class announces any number of them. -/
theorem one (p : Char → Bool) : (Pattern.one p).Announces (oneOf p * (oneOf p)∗) := by
  have hone : Pattern.anything.Announces (oneOf p)∗ := fun cs =>
    iff_of_true rfl ⟨[], Language.nil_mem_kstar _, List.nil_prefix⟩
  exact hone.after

theorem either (h : pattern.Announces l) (ho : other.Announces m) :
    Announces (pattern ++ other) (l + m) := by
  intro cs
  rw [fits_either, Bool.or_eq_true, h cs, ho cs]
  simp only [Language.mem_add, or_and_right, exists_or]

theorem signed (h : pattern.Announces l) : (Pattern.signed pattern).Announces (signs * l) := by
  rw [signs, add_mul, one_mul]
  exact h.either h.after

end Pattern.Announces

theorem announces_fraction : Pattern.fraction.Announces decimals := (Pattern.Announces.one _).after

theorem announces_exponent : Pattern.exponent.Announces exponents :=
  (Pattern.Announces.one _).signed.after

theorem announces_number : Pattern.number.Announces numberStarts :=
  ((Pattern.Announces.one _).either announces_fraction).signed

/-! ## Longest numbers -/

variable {taken rest : List Char}

theorem Grammar.Optional.reaches {p : Char → Bool} (h : Optional p taken rest) :
    Reaches p (1 + oneOf p) taken rest := by
  cases h with
  | @taken c hc => exact (Reaches.letter p p c rest).optional hc
  | absent hnone =>
    refine .absent fun word hword hbegins => ?_
    obtain ⟨c, hc, rfl⟩ := hword
    obtain ⟨more, rfl⟩ := hbegins
    rw [List.singleton_append, Pattern.fits_one_cons, hc] at hnone
    contradiction

theorem Grammar.Run.reaches {p : Char → Bool} (h : Run p taken rest) :
    Reaches p (oneOf p)∗ taken rest :=
  .kstar h.all (Pattern.fits_one_eq p rest ▸ h.stops)

theorem Grammar.Run.mem_digits (h : Run isDigit taken rest) (hne : taken ≠ []) :
    taken ∈ digits := mem_oneOf_mul_kstar.mpr ⟨hne, h.all⟩

theorem Grammar.Run.reaches_digits (h : Run isDigit taken rest) :
    Reaches isDigit digits taken rest :=
  h.reaches.restrict fun _ => mem_kstar_of_mem_mul_kstar

theorem not_prefix_of_fits {pattern : Pattern} {l : Language Char} (h : pattern.Announces l)
    (hfits : pattern.fits rest = false) : ∀ word ∈ l, ¬ word <+: rest := by
  intro word hword hbegins
  rw [(h rest).mpr ⟨word, hword, hbegins⟩] at hfits
  contradiction

/-! What the parts of a number begin with. -/

section Letters

variable {c : Char} {word : List Char}

theorem isDigit_of_cons_mem (h : c :: word ∈ digits) : isDigit c = true :=
  (cons_mem_oneOf_mul.mp h).1

theorem isSign_of_isDigit (h : isDigit c = true) : isSign c = false := by
  have hplus : c ≠ '+' := ne_of_class h (by decide)
  have hminus : c ≠ '-' := ne_of_class h (by decide)
  simp [isSign, hplus, hminus]

theorem isExponentMark_of_isDigit (h : isDigit c = true) : isExponentMark c = false := by
  have hlower : c ≠ 'e' := ne_of_class h (by decide)
  have hupper : c ≠ 'E' := ne_of_class h (by decide)
  simp [isExponentMark, hlower, hupper]

theorem of_cons_mem_exponents (h : c :: word ∈ 1 + exponents) : c = 'e' ∨ c = 'E' := by
  rw [Language.mem_add, exponents, cons_mem_oneOf_mul] at h
  obtain hnil | ⟨hmark, -⟩ := h
  · exact absurd hnil (List.cons_ne_nil c word)
  · simpa [isExponentMark] using hmark

theorem of_cons_mem_fraction (h : c :: word ∈ (1 + decimals) * (1 + exponents)) :
    c = '.' ∨ c = 'e' ∨ c = 'E' := by
  rw [mem_optional_mul, decimals, mul_assoc, cons_mem_oneOf_mul] at h
  obtain hexponent | ⟨hpoint, -⟩ := h
  · exact .inr (of_cons_mem_exponents hexponent)
  · exact .inl (of_decide_eq_true hpoint)

theorem stops_fraction (h : c :: word ∈ 1 + exponents) : (c = '.' || isDigit c) = false := by
  obtain rfl | rfl := of_cons_mem_exponents h
  · rfl
  · rfl

theorem stops_digits (h : c :: word ∈ (1 + decimals) * (1 + exponents)) : isDigit c = false := by
  obtain rfl | rfl | rfl := of_cons_mem_fraction h
  all_goals rfl

theorem stops_sign (h : c :: word ∈ (oneOf isDigit)∗ * ((1 + decimals) * (1 + exponents))) :
    isSign c = false := by
  obtain ⟨hdigit, -⟩ | hfraction := cons_mem_kstar_mul.mp h
  · exact isSign_of_isDigit hdigit
  · obtain rfl | rfl | rfl := of_cons_mem_fraction hfraction
    all_goals rfl

theorem stops_mark (h : c :: word ∈ signs * digits) : isExponentMark c = false := by
  rw [signs, mem_optional_mul, cons_mem_oneOf_mul] at h
  obtain hdigit | ⟨hsign, -⟩ := h
  · exact isExponentMark_of_isDigit (isDigit_of_cons_mem hdigit)
  · obtain rfl | rfl : c = '+' ∨ c = '-' := by simpa [isSign] using hsign
    all_goals rfl

end Letters

theorem Grammar.Fraction.reaches (h : Fraction taken rest) :
    Reaches (fun c => c = '.' || isDigit c) (1 + decimals) taken rest := by
  cases h with
  | taken hd =>
    refine ((Reaches.letter (· = '.') _ _ _).mul hd.reaches_digits fun c word hword => ?_).optional
      rfl
    simpa using ne_of_class (isDigit_of_cons_mem hword) (by decide)
  | absent hnone => exact .absent (not_prefix_of_fits announces_fraction hnone)

theorem Grammar.Exponent.reaches (h : Exponent taken rest) :
    Reaches (fun c => isExponentMark c || (isSign c || isDigit c)) (1 + exponents) taken rest := by
  cases h with
  | @taken mark sign behind _ hm hs hd =>
    have hsigned := hs.reaches.mul hd.reaches_digits fun c word hword =>
      isSign_of_isDigit (isDigit_of_cons_mem hword)
    have hmarked := (Reaches.letter isExponentMark isExponentMark mark _).mul hsigned
      fun c word => stops_mark
    exact hmarked.optional (by simp [hm])
  | absent hnone => exact .absent (not_prefix_of_fits announces_exponent hnone)

/-- The parts of a number, of which none has to be there. -/
def numberParts : Language Char :=
  signs * ((oneOf isDigit)∗ * ((1 + decimals) * (1 + exponents)))

theorem mem_numberParts {word : List Char} (h : word ∈ numbers) : word ∈ numberParts := by
  obtain ⟨sign, hsign, unsigned, hunsigned, rfl⟩ := Language.mem_mul.mp h
  obtain ⟨mantissa, hmantissa, exponent, hexponent, rfl⟩ := Language.mem_mul.mp hunsigned
  rw [numberParts, ← mul_assoc (oneOf isDigit)∗]
  refine Language.append_mem_mul hsign (Language.append_mem_mul ?_ hexponent)
  obtain hdigits | hdecimals := hmantissa
  · obtain ⟨whole, hwhole, fraction, hfraction, rfl⟩ := Language.mem_mul.mp hdigits
    exact Language.append_mem_mul (mem_kstar_of_mem_mul_kstar hwhole) hfraction
  · exact Language.append_mem_mul (Language.nil_mem_kstar _) (.inr hdecimals)

theorem Grammar.Number.reaches (h : Number taken rest) :
    Reaches (fun _ => true) numberParts taken rest := by
  cases h with
  | @intro sign whole fraction exponent _ hs hw hf he =>
    rw [← List.append_assoc fraction] at hs hw
    rw [← List.append_assoc whole] at hs
    have hbehind := hf.reaches.mul he.reaches fun c word => stops_fraction
    have hunsigned := hw.reaches.mul hbehind fun c word => stops_digits
    have hnumber := hs.reaches.mul hunsigned fun c word => stops_sign
    exact hnumber.weaken fun _ _ => rfl

theorem Grammar.Optional.mem {p : Char → Bool} (h : Optional p taken rest) :
    taken ∈ 1 + oneOf p := by
  cases h with
  | taken hc => exact .inr ⟨_, hc, rfl⟩
  | absent => exact .inl rfl

theorem Grammar.Fraction.mem (h : Fraction taken rest) (hne : taken ≠ []) : taken ∈ decimals := by
  cases h with
  | taken hd hdigits => exact cons_mem_oneOf_mul.mpr ⟨rfl, hd.mem_digits hdigits⟩
  | absent => contradiction

theorem Grammar.Exponent.mem (h : Exponent taken rest) : taken ∈ 1 + exponents := by
  cases h with
  | taken hm hs hd hne =>
    exact .inr (cons_mem_oneOf_mul.mpr ⟨hm, Language.append_mem_mul hs.mem (hd.mem_digits hne)⟩)
  | absent => exact .inl rfl

theorem Grammar.Number.mem (h : Number taken rest) : taken ∈ numbers := by
  cases h with
  | @intro sign whole fraction exponent _ hs hw hf he hne =>
    refine Language.append_mem_mul hs.mem ?_
    rw [← List.append_assoc]
    refine Language.append_mem_mul ?_ he.mem
    by_cases hwhole : whole = []
    · have hfraction := hne.resolve_left (not_not_intro hwhole)
      rw [hwhole, List.nil_append]
      exact .inr (hf.mem hfraction)
    · refine .inl (Language.append_mem_mul (hw.mem_digits hwhole) ?_)
      by_cases hfraction : fraction = []
      · exact .inl hfraction
      · exact .inr (hf.mem hfraction)

/-- What the grammar takes as a number is the longest one that the text begins with. -/
theorem Grammar.Number.isLongest (h : Number taken rest) :
    IsLongest numbers taken (taken ++ rest) :=
  (h.reaches.restrict fun _ => mem_numberParts).isLongest h.mem

/-! ## The token -/

/-- The token of a number, with what it measures if that stands behind it. -/
def measured (number behind : List Char) : Token :=
  if behind.head? = some '%' then ⟨.percentage, String.ofList (number ++ ['%'])⟩
  else if Pattern.identifier.fits behind then
    ⟨.dimension, String.ofList (number ++ leadingName behind)⟩
  else ⟨.number, String.ofList number⟩

/-- The kinds of numbers. -/
def Kind.isNumeric (kind : Kind) : Bool :=
  kind = .number || kind = .percentage || kind = .dimension

theorem Kind.proper_of_isNumeric {kind : Kind} (h : kind.isNumeric = true) :
    kind ≠ .done ∧ kind ≠ .delim ∧ kind.closes? = none := by
  cases kind with
  | number | percentage | dimension => decide
  | _ => contradiction

theorem isNumeric_measured (number behind : List Char) :
    (measured number behind).kind.isNumeric = true := by
  unfold measured
  split_ifs <;> rfl

theorem Grammar.Number.exists_digit (h : Number taken rest) : ∃ c ∈ taken, isDigit c = true := by
  cases h with
  | intro hs hw hf he hne =>
    obtain hwhole | hfraction := hne
    · obtain ⟨c, hc⟩ := List.exists_mem_of_ne_nil _ hwhole
      exact ⟨c, by simp [hc], hw.all c hc⟩
    · cases hf with
      | taken hd hdigits =>
        obtain ⟨c, hc⟩ := List.exists_mem_of_ne_nil _ hdigits
        exact ⟨c, by simp [hc], hd.all c hc⟩
      | absent => contradiction

theorem Grammar.Numeric.exists_number {kind : Kind} (h : Numeric kind taken rest) :
    ∃ number behind, taken ++ rest = number ++ behind ∧ Number number behind ∧
      measured number behind = ⟨kind, String.ofList taken⟩ := by
  cases h with
  | @percentage number _ h => exact ⟨number, '%' :: rest, by simp, h, rfl⟩
  | @dimension number unit _ h hu =>
    have hpercent := Pattern.fits_one_of_identifier hu.fits (x := '%') (by decide) (by decide)
      (by decide)
    rw [Pattern.fits_one_eq_false_iff] at hpercent
    refine ⟨number, unit ++ rest, List.append_assoc _ _ _, h, ?_⟩
    rw [measured, if_neg hpercent, if_pos hu.fits, hu.name.eq_leadingName]
  | number h hp hi =>
    rw [Pattern.fits_one_eq_false_iff] at hp
    refine ⟨taken, rest, rfl, h, ?_⟩
    rw [measured, if_neg hp, if_neg (Bool.eq_false_iff.mp hi)]

theorem Grammar.Reading.numeric_of_isNumeric {kind : Kind} (h : Reading (.token kind) taken rest)
    (hk : kind.isNumeric = true) : Numeric kind taken rest := by
  cases h with
  | numeric h => exact h
  | nameLike h =>
    obtain rfl | rfl | rfl | rfl := h.kind_eq
    all_goals contradiction
  | opening block => cases block <;> contradiction
  | _ => contradiction

namespace Tokenizer

variable {ι : Type} [CharStream ι] [CharStream.Fused ι] {t : Tokenizer (BufferedSource ι)}
  {text : List Char}

theorem Faces.answers_numeric {kind : Kind} (h : t.Faces (taken ++ rest))
    (hn : Numeric kind taken rest) :
    ∃ number, IsLongest numbers number (taken ++ rest) ∧ (∃ c ∈ number, isDigit c = true) ∧
      t.nextToken.1 = .ok (measured number ((taken ++ rest).drop number.length)) := by
  obtain ⟨number, behind, heq, hnumber, hmeasured⟩ := hn.exists_number
  have hanswer := (h.hands (.numeric hn) rfl).answer
  rw [heq]
  refine ⟨number, hnumber.isLongest, hnumber.exists_digit, ?_⟩
  rw [List.drop_left, hmeasured, hanswer]

/-- The token is numeric if and only if the text begins like a number. It is then the longest number
there, with the percent sign or the name behind it that says what is measured. -/
theorem nextToken_numeric (h : t.Faces text) :
    ((∃ token, t.nextToken.1 = .ok token ∧ token.kind.isNumeric = true) ↔
      ∃ word ∈ numberStarts, word <+: text) ∧
    ((∃ word ∈ numberStarts, word <+: text) →
      ∃ number, IsLongest numbers number text ∧ (∃ c ∈ number, isDigit c = true) ∧
        t.nextToken.1 = .ok (measured number (text.drop number.length))) := by
  have hmeasured : (∃ word ∈ numberStarts, word <+: text) →
      ∃ number, IsLongest numbers number text ∧ (∃ c ∈ number, isDigit c = true) ∧
        t.nextToken.1 = .ok (measured number (text.drop number.length)) := by
    intro hstarts
    have hfits := (announces_number text).mpr hstarts
    obtain ⟨kind, taken, rest, rfl, hnumeric⟩ := splits_numeric hfits
    exact h.answers_numeric hnumeric
  refine ⟨⟨?_, fun hstarts => ?_⟩, hmeasured⟩
  · rintro ⟨token, htoken, hk⟩
    obtain ⟨rest, rfl, hr⟩ := h.exists_reading_token htoken (Kind.proper_of_isNumeric hk)
    exact (announces_number _).mp (hr.numeric_of_isNumeric hk).fits
  · obtain ⟨number, -, -, htoken⟩ := hmeasured hstarts
    exact ⟨_, htoken, isNumeric_measured _ _⟩

/-- The mark of an exponent without digits begins the unit. -/
theorem nextToken_numeric_unit :
    ∃ number, IsLongest numbers number "+.5e-2e-x%".toList ∧ (∃ c ∈ number, isDigit c = true) ∧
      (ofString "+.5e-2e-x%").nextToken.1 =
        .ok (measured number ("+.5e-2e-x%".toList.drop number.length)) := by
  have hfaces : (ofString "+.5e-2e-x%").Faces "+.5e-2e-x%".toList := faces_ofString _
  exact (nextToken_numeric hfaces).2 ((announces_number _).mp (by decide))

end Tokenizer
end Stylesheet
