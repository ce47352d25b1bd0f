import Stylesheet.Proofs.Lexing

/-!
# Everything can be read

Each judgement of the grammar splits every text that begins in the way that announces it, those
for names, strings and URLs by induction on the length of the text. Main statements: whatever the
input goes on with, a lexeme can be read there, and it can be read in one way only.
-/
namespace Stylesheet.Grammar

open CodePoint

/-- Part of the text is taken as the judgement says. -/
def Splits (judgement : List Char → List Char → Prop) (cs : List Char) : Prop :=
  ∃ taken rest, cs = taken ++ rest ∧ judgement taken rest

variable {cs : List Char}

theorem splits_optional (p : Char → Bool) (cs : List Char) : Splits (Optional p) cs := by
  cases cs with
  | nil => exact ⟨[], [], rfl, .absent rfl⟩
  | cons x cs =>
    cases hx : p x with
    | true => exact ⟨[x], cs, rfl, .taken hx cs⟩
    | false => exact ⟨[], x :: cs, rfl, .absent (by simp [hx])⟩

theorem splits_run (p : Char → Bool) (cs : List Char) : Splits (Run p) cs := by
  induction cs with
  | nil => exact ⟨[], [], rfl, nofun, rfl⟩
  | cons x cs ih =>
    cases hx : p x with
    | false => exact ⟨[], x :: cs, rfl, nofun, by simp [hx]⟩
    | true =>
      obtain ⟨taken, rest, rfl, hrun⟩ := ih
      refine ⟨x :: taken, rest, rfl, fun c hc => ?_, hrun.stops⟩
      obtain rfl | hc := List.mem_cons.mp hc
      · exact hx
      · exact hrun.all c hc

theorem run_ne_nil {p : Char → Bool} {taken rest : List Char} (h : Run p taken rest)
    (hfits : (Pattern.one p).fits (taken ++ rest) = true) : taken ≠ [] := by
  rintro rfl
  rw [List.nil_append, h.stops] at hfits
  contradiction

theorem Name.ne_nil {taken rest : List Char} (h : Name taken rest)
    (hfits : Pattern.nameUnit.fits (taken ++ rest) = true) : taken ≠ [] := by
  rintro rfl
  rw [List.nil_append, h.stops] at hfits
  contradiction

theorem splits_escapeBody (h : (Pattern.one (!isNewline ·)).fits cs = true) :
    Splits EscapeBody cs := by
  cases cs with
  | nil => contradiction
  | cons x cs =>
    have hn : isNewline x = false := by simpa using h
    cases hx : isHexDigit x with
    | false => exact ⟨[x], cs, rfl, .plain hn hx cs⟩
    | true =>
      -- At most six digits of the run belong to the escape.
      obtain ⟨run, behind, heq, hrun⟩ := splits_run isHexDigit (x :: cs)
      obtain ⟨space, rest, hspace, ho⟩ := splits_optional isWhitespace (run.drop 6 ++ behind)
      have hsplit : x :: cs = run.take 6 ++ space ++ rest := by
        rw [List.append_assoc, ← hspace, ← List.append_assoc, List.take_append_drop, heq]
      have hrunne : run ≠ [] := run_ne_nil hrun (by rw [← heq, Pattern.fits_one_cons, hx])
      refine ⟨_, rest, hsplit, .hex ?_ ?_ (List.length_take_le 6 run) ?_ ho⟩
      · exact fun d hd => hrun.all d (List.mem_of_mem_take hd)
      · simpa using hrunne
      · intro hlt
        have hshort : run.length ≤ 6 := by rw [List.length_take] at hlt; omega
        rw [← hspace, List.drop_of_length_le hshort]
        exact hrun.stops

theorem splits_name (cs : List Char) : Splits Name cs := by
  induction hn : cs.length using Nat.strongRecOn generalizing cs with
  | ind n ih =>
    cases hfits : Pattern.nameUnit.fits cs with
    | false => exact ⟨[], cs, rfl, .stop hfits⟩
    | true =>
      cases cs with
      | nil => contradiction
      | cons x cs =>
        rw [Pattern.nameUnit, Pattern.escape, Pattern.fits_either, Pattern.fits_one_cons,
          Pattern.fits_after_cons, Bool.or_eq_true, Bool.and_eq_true, decide_eq_true_eq] at hfits
        rw [List.length_cons] at hn
        obtain hx | ⟨rfl, hbody⟩ := hfits
        · obtain ⟨taken, rest, rfl, hname⟩ := ih cs.length (by omega) cs rfl
          exact ⟨x :: taken, rest, rfl, .char hx hname⟩
        · obtain ⟨body, behind, rfl, he⟩ := splits_escapeBody hbody
          have hlength : behind.length < n := by simp at hn; omega
          obtain ⟨taken, rest, rfl, hname⟩ := ih behind.length hlength behind rfl
          exact ⟨'\\' :: (body ++ taken), rest, by simp, .escape he hname⟩

/-- What begins like a name is an identifier, and one with a hyphen before it. -/
theorem splits_named (h : Pattern.nameStart.fits cs = true) :
    Splits (fun taken rest => ∀ hyphen, hyphen = [] ∨ hyphen = ['-'] →
      Identifier (hyphen ++ taken) rest) cs := by
  cases cs with
  | nil => contradiction
  | cons x cs =>
    rw [Pattern.nameStart, Pattern.escape, Pattern.fits_either, Pattern.fits_one_cons,
      Pattern.fits_after_cons, Bool.or_eq_true, Bool.and_eq_true, decide_eq_true_eq] at h
    obtain hx | ⟨rfl, hbody⟩ := h
    · obtain ⟨taken, rest, rfl, hname⟩ := splits_name cs
      exact ⟨x :: taken, rest, rfl, fun _ hh => .start hh hx hname⟩
    · obtain ⟨body, behind, rfl, he⟩ := splits_escapeBody hbody
      obtain ⟨taken, rest, rfl, hname⟩ := splits_name behind
      exact ⟨'\\' :: (body ++ taken), rest, by simp, fun _ hh => .escape hh he hname⟩

theorem splits_identifier (h : Pattern.identifier.fits cs = true) : Splits Identifier cs := by
  rw [Pattern.identifier, Pattern.fits_either, Bool.or_eq_true] at h
  obtain hstart | hhyphen := h
  · obtain ⟨taken, rest, rfl, hidentifier⟩ := splits_named hstart
    exact ⟨taken, rest, rfl, hidentifier [] (.inl rfl)⟩
  · cases cs with
    | nil => contradiction
    | cons x cs =>
      rw [Pattern.fits_after_cons, Bool.and_eq_true, decide_eq_true_eq, Pattern.hyphenated,
        Pattern.fits_either, Bool.or_eq_true] at hhyphen
      obtain ⟨rfl, htwo | hstart⟩ := hhyphen
      · cases cs with
        | nil => contradiction
        | cons y cs =>
          obtain rfl : y = '-' := by simpa using htwo
          obtain ⟨taken, rest, rfl, hname⟩ := splits_name cs
          exact ⟨'-' :: '-' :: taken, rest, rfl, .hyphens hname⟩
      · obtain ⟨taken, rest, rfl, hidentifier⟩ := splits_named hstart
        exact ⟨'-' :: taken, rest, rfl, hidentifier ['-'] (.inr rfl)⟩

theorem splits_fraction (cs : List Char) : Splits Fraction cs := by
  cases hfits : Pattern.fraction.fits cs with
  | false => exact ⟨[], cs, rfl, .absent hfits⟩
  | true =>
    cases cs with
    | nil => contradiction
    | cons x cs =>
      rw [Pattern.fraction, Pattern.fits_after_cons, Bool.and_eq_true, decide_eq_true_eq] at hfits
      obtain ⟨rfl, hdigit⟩ := hfits
      obtain ⟨digits, rest, rfl, hrun⟩ := splits_run isDigit cs
      exact ⟨'.' :: digits, rest, rfl, .taken hrun (run_ne_nil hrun hdigit)⟩

/-- What may have a sign before it stands behind that sign. -/
theorem fits_behind_sign {pattern : Pattern} {sign behind : List Char}
    (hsign : ∀ x rest, isSign x = true → pattern.fits (x :: rest) = false)
    (ho : Optional isSign sign behind)
    (h : (Pattern.signed pattern).fits (sign ++ behind) = true) :
    pattern.fits behind = true := by
  rw [Pattern.signed, Pattern.fits_either, Bool.or_eq_true] at h
  cases ho with
  | @taken c hc =>
    rw [List.singleton_append, hsign c behind hc, Pattern.fits_after_cons, Bool.and_eq_true] at h
    exact (h.resolve_left Bool.false_ne_true).2
  | absent hnone =>
    obtain h | h := h
    · exact h
    · cases behind with
      | nil => simp at h
      | cons y behind =>
        rw [Pattern.fits_one_cons] at hnone
        simp [hnone] at h

theorem splits_exponent (cs : List Char) : Splits Exponent cs := by
  cases hfits : Pattern.exponent.fits cs with
  | false => exact ⟨[], cs, rfl, .absent hfits⟩
  | true =>
    cases cs with
    | nil => contradiction
    | cons x cs =>
      rw [Pattern.exponent, Pattern.fits_after_cons, Bool.and_eq_true] at hfits
      obtain ⟨hx, hsigned⟩ := hfits
      obtain ⟨sign, behind, rfl, hsign⟩ := splits_optional isSign cs
      obtain ⟨digits, rest, rfl, hrun⟩ := splits_run isDigit behind
      have hdigit : (Pattern.one isDigit).fits (digits ++ rest) = true := by
        refine fits_behind_sign (fun y more hy => ?_) hsign hsigned
        rw [Pattern.fits_one_cons, isDigit_of_isSign hy]
      exact ⟨x :: (sign ++ digits), rest, by simp, .taken hx hsign hrun (run_ne_nil hrun hdigit)⟩

theorem splits_number (h : Pattern.number.fits cs = true) : Splits Number cs := by
  obtain ⟨sign, behind, rfl, hsign⟩ := splits_optional isSign cs
  have hunsigned : Pattern.unsigned.fits behind = true := by
    refine fits_behind_sign (fun x more hx => ?_) hsign h
    obtain rfl | rfl : x = '+' ∨ x = '-' := by simpa [isSign] using hx
    · rfl
    · rfl
  obtain ⟨whole, behind, rfl, hwhole⟩ := splits_run isDigit behind
  obtain ⟨fraction, behind, rfl, hfraction⟩ := splits_fraction behind
  obtain ⟨exponent, rest, rfl, hexponent⟩ := splits_exponent behind
  refine ⟨_, rest, by simp, .intro hsign hwhole hfraction hexponent ?_⟩
  rw [Pattern.unsigned, Pattern.fits_either, Bool.or_eq_true] at hunsigned
  obtain hdigit | hpoint := hunsigned
  · exact .inl (run_ne_nil hwhole hdigit)
  · cases hfraction with
    | taken => exact .inr (List.cons_ne_nil _ _)
    | absent hnone =>
      left
      rintro rfl
      simp only [List.nil_append] at hpoint
      rw [hnone] at hpoint
      contradiction

theorem splits_numeric (h : Pattern.number.fits cs = true) :
    ∃ kind, Splits (Numeric kind) cs := by
  obtain ⟨number, rest, rfl, hnumber⟩ := splits_number h
  cases hpercent : (Pattern.one (· = '%')).fits rest with
  | true =>
    cases rest with
    | nil => contradiction
    | cons x rest =>
      obtain rfl : x = '%' := by simpa using hpercent
      exact ⟨.percentage, number ++ ['%'], rest, by simp, .percentage hnumber⟩
  | false =>
    cases hidentifier : Pattern.identifier.fits rest with
    | true =>
      obtain ⟨unit, rest, rfl, hunit⟩ := splits_identifier hidentifier
      exact ⟨.dimension, number ++ unit, rest, by simp, .dimension hnumber hunit⟩
    | false => exact ⟨.number, number, rest, rfl, .number hnumber hpercent hidentifier⟩

/-! ## Comments, strings and URLs -/

theorem splits_comment (h : ['*', '/'] <:+: cs) : Splits (fun taken _ => Comment taken) cs := by
  induction cs with
  | nil => simp at h
  | cons x cs ih =>
    by_cases hclose : x = '*' ∧ cs.head? = some '/'
    · obtain ⟨rfl, hhead⟩ := hclose
      obtain ⟨rest, rfl⟩ := List.head?_eq_some_iff.mp hhead
      exact ⟨['*', '/'], rest, rfl, .close⟩
    · have hin : ['*', '/'] <:+: cs := by
        obtain hprefix | hin := List.infix_cons_iff.mp h
        · obtain ⟨rest, hrest⟩ := hprefix
          obtain ⟨rfl, rfl⟩ := List.cons.inj hrest
          exact absurd ⟨rfl, rfl⟩ hclose
        · exact hin
      obtain ⟨taken, rest, rfl, hcomment⟩ := ih hin
      refine ⟨x :: taken, rest, rfl, .pass (fun hx hhead => hclose ⟨hx, ?_⟩) hcomment⟩
      rw [List.head?_append, hhead]
      rfl

theorem splits_quoted (quote : Char) (cs : List Char) : Splits (Quoted quote) cs := by
  induction hn : cs.length using Nat.strongRecOn generalizing cs with
  | ind n ih =>
    cases hfits : (Pattern.quoted quote).fits cs with
    | false => exact ⟨[], cs, rfl, .stop hfits⟩
    | true =>
      cases cs with
      | nil => contradiction
      | cons x cs =>
        rw [List.length_cons] at hn
        simp only [Pattern.quoted, Pattern.fits_either, Pattern.fits_one_cons,
          Pattern.fits_after_cons, Bool.or_eq_true, Bool.and_eq_true, decide_eq_true_eq] at hfits
        obtain ⟨⟨hq, hb⟩, hl⟩ | ⟨rfl, hbehind⟩ := hfits
        · obtain ⟨taken, rest, rfl, h⟩ := ih cs.length (by omega) cs rfl
          exact ⟨x :: taken, rest, rfl, .char hq hb hl h⟩
        · cases cs with
          | nil => contradiction
          | cons y cs =>
            rw [List.length_cons] at hn
            obtain rfl | hy : y = '\n' ∨ isNewline y = false := by simpa using hbehind
            · obtain ⟨taken, rest, rfl, h⟩ := ih cs.length (by omega) cs rfl
              exact ⟨'\\' :: '\n' :: taken, rest, rfl, .lineEnding h⟩
            · have hfits : (Pattern.one (!isNewline ·)).fits (y :: cs) = true := by simp [hy]
              obtain ⟨body, behind, hsplit, he⟩ := splits_escapeBody hfits
              have hlength := congrArg List.length hsplit
              rw [List.length_cons, List.length_append] at hlength
              obtain ⟨taken, rest, rfl, h⟩ := ih behind.length (by omega) behind rfl
              exact ⟨'\\' :: (body ++ taken), rest, by simp [hsplit], .escape he h⟩

theorem splits_urlBody (good : Bool) (cs : List Char) :
    ∃ result, Splits (UrlBody good result) cs := by
  induction hn : cs.length using Nat.strongRecOn generalizing good cs with
  | ind n ih =>
    cases cs with
    | nil => exact ⟨good, [], [], rfl, .stop rfl⟩
    | cons x cs =>
      rw [List.length_cons] at hn
      by_cases hclose : x = ')'
      · exact ⟨good, [], x :: cs, rfl, .stop (by simp [hclose])⟩
      · cases hw : isWhitespace x with
        | true =>
          obtain ⟨space, behind, hsplit, hrun⟩ := splits_run isWhitespace (x :: cs)
          have hspace := run_ne_nil hrun (by rw [← hsplit, Pattern.fits_one_cons, hw])
          have hlength := congrArg List.length hsplit
          rw [List.length_cons, List.length_append] at hlength
          have hpos := List.length_pos_iff.mpr hspace
          obtain ⟨result, taken, rest, rfl, h⟩ := ih behind.length (by omega)
            (good && (Pattern.one (· = ')')).fits behind) behind rfl
          exact ⟨result, space ++ taken, rest, by simp [hsplit], .space hrun hspace h⟩
        | false =>
          by_cases hescape : x = '\\' ∧ (Pattern.one (!isNewline ·)).fits cs = true
          · obtain ⟨rfl, hfits⟩ := hescape
            obtain ⟨body, behind, rfl, he⟩ := splits_escapeBody hfits
            rw [List.length_append] at hn
            obtain ⟨result, taken, rest, rfl, h⟩ := ih behind.length (by omega) good behind rfl
            exact ⟨result, '\\' :: (body ++ taken), rest, by simp, .escape he h⟩
          · cases hc : isUrlChar x with
            | true =>
              obtain ⟨result, taken, rest, rfl, h⟩ := ih cs.length (by omega) good cs rfl
              exact ⟨result, x :: taken, rest, rfl, .char hc h⟩
            | false =>
              obtain ⟨result, taken, rest, rfl, h⟩ := ih cs.length (by omega) false cs rfl
              have hnone : x = '\\' → (Pattern.one (!isNewline ·)).fits (taken ++ rest) = false :=
                fun hx => Bool.eq_false_iff.mpr fun hfits => hescape ⟨hx, hfits⟩
              exact ⟨result, x :: taken, rest, rfl, .bad hc hclose hw hnone h⟩

theorem splits_nameLike (h : Pattern.identifier.fits cs = true) :
    ∃ kind, Splits (NameLike kind) cs := by
  cases hmark : isUrlMark (cs.take 4) with
  | true =>
    obtain ⟨space, behind, hspace, hrun⟩ := splits_run isWhitespace (cs.drop 4)
    have hsplit : cs = cs.take 4 ++ (space ++ behind) := by
      rw [← hspace, List.take_append_drop]
    cases hquote : (Pattern.one isQuote).fits behind with
    | true =>
      cases behind with
      | nil => contradiction
      | cons quote rest =>
        rw [Pattern.fits_one_cons] at hquote
        exact ⟨.function, _, _, hsplit, .quotedUrl hmark hrun.all hquote⟩
    | false =>
      obtain ⟨good, body, rest, rfl, hbody⟩ := splits_urlBody true behind
      have hstops := hbody.stops
      cases rest with
      | nil =>
        rw [List.append_nil] at hsplit hrun hquote
        have hall : cs = cs.take 4 ++ (space ++ body) ++ [] := by rwa [List.append_nil]
        exact ⟨.badUrl, _, [], hall, .endlessUrl hmark hrun hquote hbody⟩
      | cons x rest =>
        obtain rfl : x = ')' := by simpa using hstops
        refine ⟨_, _, rest, ?_, .url hmark hrun hquote hbody⟩
        simpa using hsplit
  | false =>
    obtain ⟨name, rest, rfl, hidentifier⟩ := splits_identifier h
    cases hparen : (Pattern.one (· = '(')).fits rest with
    | true =>
      cases rest with
      | nil => contradiction
      | cons x rest =>
        obtain rfl : x = '(' := by simpa using hparen
        refine ⟨.function, name ++ ['('], rest, by simp, .function hidentifier ?_⟩
        rw [Bool.eq_false_iff]
        intro hname
        have hlength : (name ++ ['(']).length = 4 := by
          simpa using congrArg List.length (of_decide_eq_true hname)
        rw [List.append_cons, ← hlength, List.take_left, hname] at hmark
        contradiction
    | false => exact ⟨.ident, name, rest, rfl, .ident hidentifier hparen⟩

/-! ## Lexemes -/

theorem splits_lexeme_solidus (h : (Pattern.text ['*']).fits cs = true) :
    ∃ lexeme, Splits (Reading lexeme) ('/' :: cs) := by
  obtain ⟨body, rfl⟩ := (Pattern.fits_text_iff _ _).mp h
  by_cases hclose : ['*', '/'] <:+: body
  · obtain ⟨taken, rest, rfl, hcomment⟩ := splits_comment hclose
    exact ⟨.token .comment, '/' :: '*' :: taken, rest, rfl, .comment hcomment rest⟩
  · exact ⟨.unterminatedComment, '/' :: '*' :: body, [], by simp, .unterminatedComment hclose⟩

theorem splits_lexeme_quote {quote : Char} (hq : isQuote quote = true) (cs : List Char) :
    ∃ lexeme, Splits (Reading lexeme) (quote :: cs) := by
  obtain ⟨content, rest, rfl, h⟩ := splits_quoted quote cs
  obtain rfl | ⟨rest, rfl⟩ | ⟨rest, rfl⟩ | ⟨rest, rfl, -⟩ := h.end_cases
  · exact ⟨.token .badString, quote :: content, [], rfl, .badString hq h rfl⟩
  · exact ⟨.token .string, quote :: (content ++ [quote]), rest, by simp, .string hq h⟩
  · exact ⟨.token .badString, quote :: content, '\n' :: rest, rfl, .badString hq h (by simp)⟩
  · exact ⟨.token .badString, quote :: (content ++ ['\\']), rest, by simp, .loneBackslash hq h⟩

theorem splits_lexeme_numberSign (h : Pattern.nameUnit.fits cs = true) :
    ∃ lexeme, Splits (Reading lexeme) ('#' :: cs) := by
  obtain ⟨name, rest, rfl, hname⟩ := splits_name cs
  exact ⟨.token .hash, '#' :: name, rest, rfl, .hash hname (hname.ne_nil h)⟩

theorem splits_lexeme_numeric (h : Pattern.number.fits cs = true) :
    ∃ lexeme, Splits (Reading lexeme) cs := by
  obtain ⟨kind, taken, rest, heq, hnumeric⟩ := splits_numeric h
  exact ⟨.token kind, taken, rest, heq, .numeric hnumeric⟩

theorem splits_lexeme_nameLike (h : Pattern.identifier.fits cs = true)
    (hc : (Pattern.text ['-', '-', '>']).fits cs = false) :
    ∃ lexeme, Splits (Reading lexeme) cs := by
  obtain ⟨kind, taken, rest, rfl, hname⟩ := splits_nameLike h
  exact ⟨.token kind, taken, rest, rfl, .nameLike hname hc⟩

theorem splits_lexeme_hyphen
    (h : (Pattern.text ['-', '>'] ++ .hyphenated ++ .unsigned).fits cs = true) :
    ∃ lexeme, Splits (Reading lexeme) ('-' :: cs) := by
  cases hcdc : (Pattern.text ['-', '>']).fits cs with
  | true =>
    obtain ⟨rest, rfl⟩ := (Pattern.fits_text_iff _ _).mp hcdc
    exact ⟨.token .cdc, ['-', '-', '>'], rest, rfl, .cdc rest⟩
  | false =>
    rw [Pattern.fits_either, Pattern.fits_either, hcdc, Bool.false_or, Bool.or_eq_true] at h
    obtain hhyphenated | hunsigned := h
    · rw [← Pattern.fits_identifier_hyphen] at hhyphenated
      exact splits_lexeme_nameLike hhyphenated hcdc
    · apply splits_lexeme_numeric
      rw [Pattern.fits_number_sign (by decide), hunsigned]

theorem splits_lexeme_name {x : Char} (hx : x = '\\' ∨ isNameStart x = true)
    (h : Pattern.identifier.fits (x :: cs) = true) :
    ∃ lexeme, Splits (Reading lexeme) (x :: cs) := by
  have hhyphen : x ≠ '-' := by
    obtain rfl | hstart := hx
    · decide
    · exact ne_of_class hstart (by decide)
  apply splits_lexeme_nameLike h
  rw [Pattern.text, Pattern.fits_after_cons]
  simp [hhyphen]

/-- Whatever the input goes on with, a lexeme can be read there. -/
theorem splits_lexeme (x : Char) (cs : List Char) :
    ∃ lexeme, Splits (Reading lexeme) (x :: cs) := by
  have hclass := Lead.says_of x
  cases hgoes : (Lead.goesOn x).fits cs with
  | false => exact ⟨.token .delim, [x], cs, rfl, .delim hgoes⟩
  | true =>
    unfold Lead.goesOn at hgoes
    cases hlead : Lead.of x <;> rw [hlead] at hclass hgoes
    case solidus =>
      obtain rfl : x = '/' := hclass
      exact splits_lexeme_solidus hgoes
    case whitespace =>
      obtain ⟨space, rest, heq, hrun⟩ := splits_run isWhitespace (x :: cs)
      have hne := run_ne_nil hrun (by rw [← heq, Pattern.fits_one_cons]; exact hclass)
      exact ⟨.token .whitespace, space, rest, heq, .whitespace hrun hne⟩
    case quote => exact splits_lexeme_quote hclass cs
    case numberSign =>
      obtain rfl : x = '#' := hclass
      exact splits_lexeme_numberSign hgoes
    case opening block =>
      obtain rfl : block.openingChar = x := hclass
      exact ⟨_, _, cs, rfl, .opening block cs⟩
    case closing block =>
      obtain rfl : block.closingChar = x := hclass
      exact ⟨_, _, cs, rfl, .closing block cs⟩
    case comma =>
      obtain rfl : x = ',' := hclass
      exact ⟨_, _, cs, rfl, .comma cs⟩
    case colon =>
      obtain rfl : x = ':' := hclass
      exact ⟨_, _, cs, rfl, .colon cs⟩
    case semicolon =>
      obtain rfl : x = ';' := hclass
      exact ⟨_, _, cs, rfl, .semicolon cs⟩
    case pointOrPlus =>
      apply splits_lexeme_numeric
      obtain rfl | rfl : x = '.' ∨ x = '+' := hclass
      · rw [Pattern.fits_number_point]
        exact hgoes
      · rw [Pattern.fits_number_sign (by decide)]
        exact hgoes
    case lessThan =>
      obtain rfl : x = '<' := hclass
      obtain ⟨rest, rfl⟩ := (Pattern.fits_text_iff _ _).mp hgoes
      exact ⟨.token .cdo, ['<', '!', '-', '-'], rest, rfl, .cdo rest⟩
    case atSign =>
      obtain rfl : x = '@' := hclass
      obtain ⟨name, rest, rfl, hname⟩ := splits_identifier hgoes
      exact ⟨.token .atKeyword, '@' :: name, rest, rfl, .atKeyword hname⟩
    case digit =>
      have hdigit : isDigit x = true := hclass
      exact splits_lexeme_numeric (by rw [Pattern.fits_number_cons, hdigit]; rfl)
    case hyphen =>
      obtain rfl : x = '-' := hclass
      exact splits_lexeme_hyphen hgoes
    case name =>
      apply splits_lexeme_name hclass
      obtain rfl | hstart : x = '\\' ∨ isNameStart x = true := hclass
      · rw [Pattern.fits_identifier_backslash]
        exact hgoes
      · simp [Pattern.identifier, Pattern.nameStart, hstart]
    case other => contradiction

/-! ## One reading -/

theorem takes_reading {x : Char} {lexeme : Lexeme} {taken rest : List Char}
    (h : Reading lexeme taken rest) (heq : x :: cs = taken ++ rest) :
    Cursor.Takes (Scan.lexeme x) taken rest lexeme := by
  cases taken with
  | nil => exact absurd rfl h.ne_nil
  | cons y taken =>
    obtain ⟨rfl, -⟩ := List.cons.inj heq
    exact Cursor.takes_lexeme h

/-- A text can be read in one way only. -/
theorem Reading.unique {lexeme lexeme' : Lexeme} {taken taken' rest rest' : List Char}
    (h : Reading lexeme taken rest) (h' : Reading lexeme' taken' rest')
    (heq : taken ++ rest = taken' ++ rest') :
    taken = taken' ∧ rest = rest' ∧ lexeme = lexeme' := by
  cases htaken : taken with
  | nil => exact absurd htaken h.ne_nil
  | cons x tail =>
    have hsplit : x :: (tail ++ rest) = taken ++ rest := by rw [htaken]; rfl
    rw [← htaken]
    exact (takes_reading h hsplit).unique (takes_reading h' (hsplit.trans heq)) heq

end Stylesheet.Grammar
