import Stylesheet.Proofs.Grammar

/-!
# Tameness

What follows a judgement comes into it only as what does not come next, so a judgement stays true
in front of a tamer text. Main statement: whatever is read as a lexeme is read so in front of every
tamer text, unless it is the name of a quoted URL, which is told by the quote behind it.
-/
namespace Stylesheet.Grammar

open CodePoint

variable {taken tamer rest : List Char}

theorem Optional.tame {p : Char → Bool} (h : Optional p taken rest) (ht : Tamer tamer rest) :
    Optional p taken tamer := by
  cases h with
  | taken h => exact .taken h tamer
  | absent h => exact .absent (ht.fits_eq_false (Pattern.shallow_one p) h)

theorem Run.tame {p : Char → Bool} (h : Run p taken rest) (ht : Tamer tamer rest) :
    Run p taken tamer :=
  ⟨h.all, ht.fits_eq_false (Pattern.shallow_one p) h.stops⟩

theorem EscapeBody.tame (h : EscapeBody taken rest) (ht : Tamer tamer rest) :
    EscapeBody taken tamer := by
  cases h with
  | plain hn hx => exact .plain hn hx tamer
  | @hex digits space _ hd hne hle hstop hs =>
    refine .hex hd hne hle (fun hlt => ?_) (hs.tame ht)
    exact (ht.behind space).fits_eq_false (Pattern.shallow_one _) (hstop hlt)

theorem Name.tame (h : Name taken rest) (ht : Tamer tamer rest) : Name taken tamer := by
  induction h with
  | stop h => exact .stop (ht.fits_eq_false Pattern.shallow_nameUnit h)
  | char hc _ ih => exact .char hc (ih ht)
  | @escape body taken rest he _ ih => exact .escape (he.tame (ht.behind taken)) (ih ht)

theorem Identifier.tame (h : Identifier taken rest) (ht : Tamer tamer rest) :
    Identifier taken tamer := by
  cases h with
  | hyphens h => exact .hyphens (h.tame ht)
  | start hh hc h => exact .start hh hc (h.tame ht)
  | escape hh he h => exact .escape hh (he.tame (ht.behind _)) (h.tame ht)

theorem Fraction.tame (h : Fraction taken rest) (ht : Tamer tamer rest) :
    Fraction taken tamer := by
  cases h with
  | taken hd hne => exact .taken (hd.tame ht) hne
  | absent h => exact .absent (ht.fits_eq_false Pattern.shallow_fraction h)

theorem Exponent.tame (h : Exponent taken rest) (ht : Tamer tamer rest) :
    Exponent taken tamer := by
  cases h with
  | taken hm hs hd hne => exact .taken hm (hs.tame (ht.behind _)) (hd.tame ht) hne
  | absent h => exact .absent (ht.fits_eq_false Pattern.shallow_exponent h)

theorem Number.tame (h : Number taken rest) (ht : Tamer tamer rest) : Number taken tamer := by
  cases h with
  | @intro sign whole fraction exponent _ hs hw hf he hne =>
    have hexponent := ht.behind exponent
    have hfraction := hexponent.behind fraction
    exact .intro (hs.tame (hfraction.behind whole)) (hw.tame hfraction) (hf.tame hexponent)
      (he.tame ht) hne

theorem Numeric.tame {kind : Kind} (h : Numeric kind taken rest) (ht : Tamer tamer rest) :
    Numeric kind taken tamer := by
  cases h with
  | percentage h => exact .percentage (h.tame (ht.behind ['%']))
  | @dimension _ unit _ h hu => exact .dimension (h.tame (ht.behind unit)) (hu.tame ht)
  | number h hp hi =>
    exact .number (h.tame ht) (ht.fits_eq_false (Pattern.shallow_one _) hp)
      (ht.fits_eq_false Pattern.shallow_identifier hi)

theorem Quoted.tame {quote : Char} (h : Quoted quote taken rest) (ht : Tamer tamer rest) :
    Quoted quote taken tamer := by
  induction h with
  | stop h => exact .stop (ht.fits_eq_false (Pattern.shallow_quoted quote) h)
  | char hq hb hn _ ih => exact .char hq hb hn (ih ht)
  | lineEnding _ ih => exact .lineEnding (ih ht)
  | @escape body taken rest he _ ih => exact .escape (he.tame (ht.behind taken)) (ih ht)

theorem head?_behind (taken : List Char) (hh : tamer.head? = rest.head?) :
    (taken ++ tamer).head? = (taken ++ rest).head? := by
  rw [List.head?_append, List.head?_append, hh]

/-- Whether a URL is closed depends on what comes next, so that has to be the same. -/
theorem UrlBody.tame {good result : Bool} (h : UrlBody good result taken rest)
    (ht : Tamer tamer rest) (hh : tamer.head? = rest.head?) :
    UrlBody good result taken tamer := by
  induction h with
  | stop h => exact .stop (ht.fits_eq_false (Pattern.shallow_one _) h)
  | char hc _ ih => exact .char hc (ih ht hh)
  | @space good result space taken rest hs hne _ ih =>
    have hclose : (Pattern.one (· = ')')).fits (taken ++ tamer) =
        (Pattern.one (· = ')')).fits (taken ++ rest) := by
      rw [Pattern.fits_one_eq, Pattern.fits_one_eq, head?_behind taken hh]
    refine .space (hs.tame (ht.behind taken)) hne ?_
    rw [hclose]
    exact ih ht hh
  | @escape good result body taken rest he _ ih =>
    exact .escape (he.tame (ht.behind taken)) (ih ht hh)
  | @bad good result c taken rest hc hp hw hb _ ih =>
    refine .bad hc hp hw (fun hx => ?_) (ih ht hh)
    exact (ht.behind taken).fits_eq_false (Pattern.shallow_one _) (hb hx)

theorem NameLike.tame {kind : Kind} (h : NameLike kind taken rest) (ht : Tamer tamer rest)
    (hq : kind = .function → isUrlMark taken = false) : NameLike kind taken tamer := by
  cases h with
  | ident h hp => exact .ident (h.tame ht) (ht.fits_eq_false (Pattern.shallow_one _) hp)
  | function h hu => exact .function (h.tame (ht.behind ['('])) hu
  | quotedUrl hm =>
    rw [hq rfl] at hm
    contradiction
  | @url _ _ body _ _ hm hs hquote h =>
    have hclose := ht.behind [')']
    have hbody := hclose.behind body
    exact .url hm (hs.tame hbody) (hbody.fits_eq_false (Pattern.shallow_one _) hquote)
      (h.tame hclose rfl)
  | endlessUrl hm hs hquote h =>
    obtain rfl := ht.eq_nil
    exact .endlessUrl hm hs hquote h

theorem shallow_goesOn (c : Char) : (Lead.goesOn c).Shallow := by
  unfold Lead.goesOn
  split
  case h_1 => exact Pattern.shallow_text (by decide)
  case h_2 => exact Pattern.shallow_nameUnit
  case h_3 =>
    split
    · exact Pattern.shallow_one _
    · exact Pattern.shallow_unsigned
  case h_4 => exact Pattern.shallow_text (by decide)
  case h_5 => exact Pattern.shallow_identifier
  case h_6 =>
    have htext : (Pattern.text ['-', '>']).Shallow := Pattern.shallow_text (by decide)
    exact (htext.either Pattern.shallow_hyphenated).either Pattern.shallow_unsigned
  case h_7 =>
    split
    · exact Pattern.shallow_one _
    · exact Pattern.shallow_anything
  case h_8 => exact nofun
  case h_9 => exact Pattern.shallow_anything

/-- What is read as a lexeme is read so in front of every tamer text. -/
theorem Reading.tame {lexeme : Lexeme} (h : Reading lexeme taken rest) (ht : Tamer tamer rest)
    (hq : lexeme = .token .function → isUrlMark taken = false) : Reading lexeme taken tamer := by
  cases h with
  | whitespace h hne => exact .whitespace (h.tame ht) hne
  | comment h => exact .comment h tamer
  | unterminatedComment h =>
    obtain rfl := ht.eq_nil
    exact .unterminatedComment h
  | @string quote _ _ hquote h => exact .string hquote (h.tame (ht.behind [quote]))
  | badString hquote h he =>
    exact .badString hquote (h.tame ht) (ht.fits_eq_false (Pattern.shallow_one _) he)
  | loneBackslash hquote h => exact .loneBackslash hquote (h.tame (ht.behind ['\\']))
  | hash h hne => exact .hash (h.tame ht) hne
  | atKeyword h => exact .atKeyword (h.tame ht)
  | opening block => exact .opening block tamer
  | closing block => exact .closing block tamer
  | comma => exact .comma tamer
  | colon => exact .colon tamer
  | semicolon => exact .semicolon tamer
  | numeric h => exact .numeric (h.tame ht)
  | cdo => exact .cdo tamer
  | cdc => exact .cdc tamer
  | nameLike h hc =>
    exact .nameLike (h.tame ht fun hk => hq (congrArg Lexeme.token hk))
      ((ht.behind taken).fits_eq_false (Pattern.shallow_text (by decide)) hc)
  | @delim c _ h => exact .delim (ht.fits_eq_false (shallow_goesOn c) h)

end Stylesheet.Grammar
