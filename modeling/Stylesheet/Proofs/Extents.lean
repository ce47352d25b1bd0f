import Stylesheet.Proofs.Grammar

/-!
# Beginnings and ends

What a judgement takes begins in the way that announces it, and ends where nothing more of it
comes. Nothing is read as a lexeme that is empty.
-/
namespace Stylesheet.Grammar

open CodePoint

variable {taken rest : List Char}

/-! ## Beginnings -/

theorem EscapeBody.exists_cons (h : EscapeBody taken rest) :
    ∃ x tail, taken = x :: tail ∧ isNewline x = false := by
  cases h with
  | plain hn => exact ⟨_, [], rfl, hn⟩
  | @hex digits space _ hd hne =>
    cases digits with
    | nil => exact absurd rfl hne
    | cons x digits =>
      have hx := hd x List.mem_cons_self
      exact ⟨x, digits ++ space, rfl,
        isNewline_of_class hx (by decide) (by decide) (by decide)⟩

theorem Name.fits (h : Name taken rest) (hne : taken ≠ []) :
    Pattern.nameUnit.fits (taken ++ rest) = true := by
  cases h with
  | stop => contradiction
  | char hc => simp [Pattern.nameUnit, hc]
  | escape he =>
    obtain ⟨x, tail, rfl, hx⟩ := he.exists_cons
    simp [Pattern.nameUnit, Pattern.escape, hx]

theorem Identifier.fits (h : Identifier taken rest) :
    Pattern.identifier.fits (taken ++ rest) = true := by
  cases h with
  | hyphens => simp [Pattern.identifier, Pattern.hyphenated]
  | start hh hc =>
    obtain rfl | rfl := hh
    · simp [Pattern.identifier, Pattern.nameStart, hc]
    · simp [Pattern.identifier, Pattern.hyphenated, Pattern.nameStart, hc]
  | escape hh he =>
    obtain ⟨x, tail, rfl, hx⟩ := he.exists_cons
    obtain rfl | rfl := hh
    · simp [Pattern.identifier, Pattern.nameStart, Pattern.escape, hx]
    · simp [Pattern.identifier, Pattern.hyphenated, Pattern.nameStart, Pattern.escape, hx]

theorem Number.fits (h : Number taken rest) :
    Pattern.number.fits (taken ++ rest) = true := by
  cases h with
  | @intro sign whole fraction exponent _ hs hw hf he hne =>
    have hunsigned : Pattern.unsigned.fits (whole ++ (fraction ++ (exponent ++ rest))) = true := by
      rw [Pattern.unsigned, Pattern.fits_either, Bool.or_eq_true]
      cases whole with
      | cons d whole =>
        have hd := hw.all d List.mem_cons_self
        exact .inl (by simp [hd])
      | nil =>
        cases hf with
        | absent => simp at hne
        | @taken digits _ hd hdigits =>
          cases digits with
          | nil => contradiction
          | cons d digits =>
            have hd := hd.all d List.mem_cons_self
            exact .inr (by simp [Pattern.fraction, hd])
    rw [Pattern.number, Pattern.signed, Pattern.fits_either, Bool.or_eq_true]
    simp only [List.append_assoc]
    cases hs with
    | taken hsign => exact .inr (by simp [hsign, hunsigned])
    | absent => exact .inl hunsigned

theorem Numeric.fits {kind : Kind} (h : Numeric kind taken rest) :
    Pattern.number.fits (taken ++ rest) = true := by
  cases h with
  | percentage h | dimension h =>
    rw [List.append_assoc]
    exact h.fits
  | number h => exact h.fits

/-- The letters of the mark are a name in front of its parenthesis. -/
theorem exists_identifier_of_isUrlMark {mark : List Char} (h : isUrlMark mark = true)
    (rest : List Char) :
    ∃ name, mark = name ++ ['('] ∧ Identifier name ('(' :: rest) := by
  have hmark : mark.map Char.toLower = ['u', 'r', 'l', '('] := of_decide_eq_true h
  simp only [List.map_eq_cons_iff, List.map_eq_nil_iff] at hmark
  obtain ⟨u, _, rfl, hu, r, _, rfl, hr, l, _, rfl, hl, p, _, rfl, hp, rfl⟩ := hmark
  obtain rfl := eq_of_toLower hp (by decide)
  have hu := isNameStart_of_isLetter (isLetter_of_toLower hu (by decide))
  have hr := isNameStart_of_isLetter (isLetter_of_toLower hr (by decide))
  have hl := isNameStart_of_isLetter (isLetter_of_toLower hl (by decide))
  have hstop : Name [] ('(' :: rest) := by
    refine .stop ?_
    rw [Pattern.nameUnit, Pattern.escape, Pattern.fits_either, Pattern.fits_one_cons,
      Pattern.fits_after_cons]
    rfl
  have hname : Name [r, l] ('(' :: rest) :=
    .char (isNameChar_of_isNameStart hr) (.char (isNameChar_of_isNameStart hl) hstop)
  have hidentifier : Identifier ([] ++ u :: [r, l]) ('(' :: rest) := .start (.inl rfl) hu hname
  exact ⟨[u, r, l], rfl, hidentifier⟩

theorem NameLike.fits {kind : Kind} (h : NameLike kind taken rest) :
    Pattern.identifier.fits (taken ++ rest) = true := by
  have hmark : ∀ mark more, isUrlMark mark = true →
      Pattern.identifier.fits (mark ++ more) = true := by
    intro mark more hmark
    obtain ⟨name, rfl, hidentifier⟩ := exists_identifier_of_isUrlMark hmark more
    rw [← List.append_cons]
    exact hidentifier.fits
  cases h with
  | ident h => exact h.fits
  | function h =>
    rw [← List.append_cons]
    exact h.fits
  | quotedUrl hm => exact hmark _ _ hm
  | url hm | endlessUrl hm =>
    rw [List.append_assoc]
    exact hmark _ _ hm

/-! ## Ends -/

theorem Name.stops (h : Name taken rest) : Pattern.nameUnit.fits rest = false := by
  induction h with
  | stop h => exact h
  | char _ _ ih => exact ih
  | escape _ _ ih => exact ih

theorem Identifier.stops (h : Identifier taken rest) : Pattern.nameUnit.fits rest = false := by
  cases h with
  | hyphens h | start _ _ h | escape _ _ h => exact h.stops

/-- A number ends with digits, or stands in front of what would begin a fraction of it. -/
theorem Number.stops (h : Number taken rest) :
    (Pattern.one isDigit).fits rest = false ∧
      (Pattern.fraction.fits rest = true → ∃ c ∈ taken, c = '.' ∨ c = 'e' ∨ c = 'E') := by
  cases h with
  | @intro sign whole fraction exponent _ hs hw hf he hne =>
    cases he with
    | @taken mark sign' digits _ hm hs' hd hne' =>
      refine ⟨hd.stops, fun _ => ⟨mark, by simp, .inr ?_⟩⟩
      simpa [isExponentMark] using hm
    | absent =>
      cases hf with
      | taken hd => exact ⟨hd.stops, fun _ => ⟨'.', by simp, .inl rfl⟩⟩
      | absent hnone =>
        refine ⟨hw.stops, fun hfits => ?_⟩
        rw [List.nil_append] at hnone
        rw [hnone] at hfits
        contradiction

/-- A string is left where nothing more of it can be taken. -/
theorem Quoted.stops {quote : Char} (h : Quoted quote taken rest) :
    (Pattern.quoted quote).fits rest = false := by
  induction h with
  | stop h => exact h
  | char _ _ _ _ ih => exact ih
  | lineEnding _ ih => exact ih
  | escape _ _ ih => exact ih

/-- A string goes on unless the quote, an LF or the end of the input is next, or a backslash that
begins nothing. -/
theorem Quoted.end_cases {quote : Char} (h : Quoted quote taken rest) :
    rest = [] ∨ (∃ behind, rest = quote :: behind) ∨ (∃ behind, rest = '\n' :: behind) ∨
      ∃ behind, rest = '\\' :: behind ∧ ∀ d ∈ behind.head?, d = '\r' ∨ d = '\x0c' := by
  have hstops := h.stops
  cases rest with
  | nil => exact .inl rfl
  | cons c behind =>
    simp only [Pattern.quoted, Pattern.fits_either, Pattern.fits_one_cons,
      Bool.or_eq_false_iff, Bool.and_eq_false_iff, decide_eq_false_iff_not,
      Decidable.not_not] at hstops
    obtain ⟨(hq | hb) | hn, hbehind⟩ := hstops
    · exact .inr (.inl ⟨behind, by rw [hq]⟩)
    · refine .inr (.inr (.inr ⟨behind, by rw [hb], fun d hd => ?_⟩))
      obtain ⟨tail, rfl⟩ := List.head?_eq_some_iff.mp hd
      rw [hb, Pattern.fits_after_cons] at hbehind
      obtain ⟨hd, hnewline⟩ : d ≠ '\n' ∧ isNewline d = true := by simpa using hbehind
      simpa [isNewline, hd] using hnewline
    · exact .inr (.inr (.inl ⟨behind, by rw [hn]⟩))

/-- An unquoted URL is left in front of a closing parenthesis or at the end of the input. -/
theorem UrlBody.stops {good result : Bool}
    (h : UrlBody good result taken rest) : (Pattern.one (· ≠ ')')).fits rest = false := by
  induction h with
  | stop h => exact h
  | char _ _ ih => exact ih
  | space _ _ _ ih => exact ih
  | escape _ _ ih => exact ih
  | bad _ _ _ _ _ ih => exact ih

/-! ## What is taken -/

/-- The last two code points of a comment are its closing mark. -/
theorem Comment.exists_content (h : Comment taken) :
    ∃ content, taken = content ++ ['*', '/'] := by
  induction h with
  | close => exact ⟨[], rfl⟩
  | @pass c _ _ _ ih =>
    obtain ⟨content, rfl⟩ := ih
    exact ⟨c :: content, rfl⟩

theorem Identifier.ne_nil (h : Identifier taken rest) : taken ≠ [] := by
  cases h with
  | hyphens => exact List.cons_ne_nil _ _
  | start | escape => simp

theorem Number.ne_nil (h : Number taken rest) : taken ≠ [] := by
  obtain ⟨-, -, -, -, hne⟩ := h
  intro hnil
  obtain ⟨-, hwhole, hfraction, -⟩ := by simpa using hnil
  exact hne.elim (· hwhole) (· hfraction)

theorem Fraction.two_le_length (h : Fraction taken rest) (hne : taken ≠ []) :
    2 ≤ taken.length := by
  cases h with
  | absent => contradiction
  | taken _ hdigits =>
    have hpos := List.length_pos_iff.mpr hdigits
    rw [List.length_cons]
    omega

/-- A number that does not begin with a digit has one behind what it begins with. -/
theorem Number.two_le_length (h : Number taken rest)
    (hd : (Pattern.one isDigit).fits taken = false) : 2 ≤ taken.length := by
  cases h with
  | @intro sign whole fraction exponent _ hs hw hf _ hne =>
    simp only [List.length_append]
    cases hs with
    | taken =>
      have hpos : 0 < whole.length ∨ 0 < fraction.length :=
        hne.imp List.length_pos_iff.mpr List.length_pos_iff.mpr
      rw [List.length_singleton]
      omega
    | absent =>
      cases whole with
      | nil =>
        have hfraction := hf.two_le_length (hne.resolve_left (· rfl))
        omega
      | cons d whole =>
        have hdigit := hw.all d List.mem_cons_self
        simp [hdigit] at hd

theorem Numeric.ne_nil {kind : Kind} (h : Numeric kind taken rest) : taken ≠ [] := by
  cases h with
  | percentage => simp
  | dimension h => simp [h.ne_nil]
  | number h => exact h.ne_nil

theorem NameLike.ne_nil {kind : Kind} (h : NameLike kind taken rest) : taken ≠ [] := by
  have hmark : ∀ mark, isUrlMark mark = true → mark ≠ [] := by
    rintro mark hmark rfl
    contradiction
  cases h with
  | ident h => exact h.ne_nil
  | function => simp
  | quotedUrl hm => exact hmark _ hm
  | url hm | endlessUrl hm => simp [hmark _ hm]

theorem NameLike.kind_eq {kind : Kind} (h : NameLike kind taken rest) :
    kind = .ident ∨ kind = .function ∨ kind = .url ∨ kind = .badUrl := by
  cases h with
  | ident | function | quotedUrl | endlessUrl => simp
  | @url _ _ _ _ good => cases good <;> simp

theorem Reading.ne_nil {lexeme : Lexeme} (h : Reading lexeme taken rest) : taken ≠ [] := by
  cases h with
  | whitespace _ hne => exact hne
  | numeric h => exact h.ne_nil
  | nameLike h => exact h.ne_nil
  | _ => exact List.cons_ne_nil _ _

end Stylesheet.Grammar
