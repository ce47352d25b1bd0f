import Stylesheet.Proofs.Leads
import Stylesheet.Proofs.Taking

/-!
# Scans follow the grammar

What scans take is said here of the longer productions, and of lexemes, which the first code point
picks a scan for. Main statement: where the grammar reads a lexeme, the scan takes that lexeme.
-/
namespace Stylesheet.Cursor

open Scan CodePoint Grammar

variable {taken rest : List Char}

/-! ## Comments and strings -/

theorem closeAt_of_comment (h : Comment taken) (rest : List Char) :
    closeAt (taken ++ rest) = some taken.length := by
  induction h with
  | close => exact closeAt_star_slash rest
  | @pass x taken hx _ ih =>
    have hhead : x = '*' → (taken ++ rest).head? ≠ some '/' := by
      intro hstar
      have hne := hx hstar
      cases taken with
      | nil => contradiction
      | cons y taken => exact hne
    rw [List.cons_append, closeAt_cons hhead, ih]
    rfl

theorem takes_comment (h : Comment taken) : Takes Scan.comment taken rest true := by
  intro c hc
  rw [comment_eq, hc, closeAt_of_comment h]

theorem takes_endlessComment (h : ¬ ['*', '/'] <:+: taken) :
    Takes Scan.comment taken [] false := by
  intro c hc
  rw [List.append_nil] at hc
  rw [comment_eq, hc, (closeAt_eq_none_iff taken).mpr h]

section Quoted

variable {quote : Char} {content more : List Char} {result : Bool}

/-- A string goes on behind what it has taken as if it began there. -/
theorem takes_quoted (h : Quoted quote content (more ++ rest))
    (hend : Takes (Scan.quoted quote) more rest result) :
    Takes (Scan.quoted quote) (content ++ more) rest result := by
  generalize hbehind : more ++ rest = behind at h
  induction h with
  | stop => exact hend
  | @char c content _ hc hb hn _ ih =>
    have hround : Takes (Scan.quotedUnit quote) [c] (content ++ more ++ rest) (.again ()) := by
      refine .peek_bind ?_
      simp only [List.singleton_append, List.head?_cons, hn, if_false]
      refine .consume_bind ?_
      simp only [hb, hc, if_false]
      exact .pure _ _
    exact .again (w := [c]) hround (ih hbehind)
  | @lineEnding content _ _ ih =>
    have hround :
        Takes (Scan.quotedUnit quote) ['\\', '\n'] (content ++ more ++ rest) (.again ()) := by
      refine .peek_bind (.consume_bind ?_)
      exact .answer (.accept (by decide) _) (.pure _ _)
    exact .again (w := ['\\', '\n']) hround (ih hbehind)
  | @escape body content _ he _ ih =>
    obtain rfl := hbehind
    rw [← List.append_assoc] at he
    have hbody : (Pattern.one (· = '\n')).fits (body ++ (content ++ more ++ rest)) = false := by
      obtain ⟨x, tail, rfl, hx⟩ := he.exists_cons
      have hne : x ≠ '\n' := ne_of_class (p := (!isNewline ·)) (by simp [hx]) (by decide)
      simp [hne]
    have hround :
        Takes (Scan.quotedUnit quote) ('\\' :: body) (content ++ more ++ rest) (.again ()) := by
      refine .peek_bind (.consume_bind (.nothing_bind (.accept_none hbody) ?_))
      exact .answer (takes_escapeBody he) (.pure _ _)
    have hcontent : '\\' :: (body ++ content) ++ more = ('\\' :: body) ++ (content ++ more) := by
      simp
    rw [hcontent]
    exact .again hround (ih rfl)

/-- The quote that comes again closes the string. -/
theorem takes_quote (hq : isQuote quote = true) (rest : List Char) :
    Takes (Scan.quoted quote) [quote] rest true := by
  have hn : quote ≠ '\n' := ne_of_class hq (by decide)
  have hb : quote ≠ '\\' := ne_of_class hq (by decide)
  refine .finish (.peek_bind ?_)
  simp only [List.singleton_append, List.head?_cons, hn, if_false]
  refine .consume_bind ?_
  simp only [hb, if_false, if_true]
  exact .pure _ rest

theorem takes_lineEnd (quote : Char) (h : (Pattern.one (· ≠ '\n')).fits rest = false) :
    Takes (Scan.quoted quote) [] rest false := by
  refine .finish (.peek_bind ?_)
  cases rest with
  | nil => exact .pure _ []
  | cons x rest =>
    obtain rfl : x = '\n' := by simpa using h
    exact .pure _ _

/-- A backslash that nothing can be escaped behind ends the string. -/
theorem takes_loneBackslash (quote : Char) (h : Quoted quote content ('\\' :: rest)) :
    Takes (Scan.quoted quote) ['\\'] rest false := by
  have hfits := h.stops
  rw [Pattern.quoted, Pattern.fits_either, Pattern.fits_after_cons] at hfits
  have hrest : (Pattern.one fun c => c = '\n' || !isNewline c).fits rest = false := by
    simpa using hfits
  have hline : (Pattern.one (· = '\n')).fits rest = false ∧
      (Pattern.one (!isNewline ·)).fits rest = false := by
    cases rest <;> simp_all
  refine .finish (.peek_bind (.consume_bind (.nothing_bind (.accept_none hline.1) ?_)))
  exact .nothing_bind (takes_escapeBody_none hline.2) (.pure _ rest)

end Quoted

/-! ## URLs -/

/-- In a URL, what begins with a closing parenthesis is the end of it. -/
theorem UrlBody.eq_nil {good result : Bool} (h : UrlBody good result taken rest)
    (hclose : (Pattern.one (· = ')')).fits (taken ++ rest) = true) :
    taken = [] ∧ result = good := by
  cases h with
  | stop => exact ⟨rfl, rfl⟩
  | char hc =>
    obtain rfl := by simpa using hclose
    contradiction
  | @space _ _ space _ _ hs hne =>
    cases space with
    | nil => contradiction
    | cons x space =>
      have hx := hs.all x List.mem_cons_self
      obtain rfl := by simpa using hclose
      contradiction
  | escape => simp at hclose
  | bad _ hp =>
    obtain rfl := by simpa using hclose
    contradiction

section UrlBody

variable {good result answer : Bool} {body more : List Char}

/-- Whitespace in a URL is taken as a whole, and then it is seen whether the URL ends there. -/
theorem takes_urlUnit_space {space : List Char} {round : Round Bool Bool}
    (hs : Run isWhitespace space (taken ++ rest)) (hne : space ≠ [])
    (hn : Takes (do if ← acceptChar ')' then return .finish good else return .again false) taken
      rest round) : Takes (urlUnit good) (space ++ taken) rest round := by
  cases space with
  | nil => contradiction
  | cons x space =>
    have hx := hs.all x List.mem_cons_self
    have hchar : isUrlChar x = false := by simp [isUrlChar, hx]
    have hclose : x ≠ ')' := ne_of_class hx (by decide)
    refine .peek_bind (.consume_bind ?_)
    simp only [hchar, hclose, hx, if_false, if_true]
    have hrun : Run isWhitespace space (taken ++ rest) :=
      ⟨fun c hc => hs.all c (List.mem_cons_of_mem x hc), hs.stops⟩
    exact .bind (.acceptWhile hrun) hn

theorem takes_urlUnit_char {c : Char} (hc : isUrlChar c = true) (rest : List Char) :
    Takes (urlUnit good) [c] rest (.again good) := by
  refine .peek_bind (.consume_bind ?_)
  simp only [hc, if_true]
  exact .pure _ rest

theorem takes_urlUnit_escape (h : EscapeBody taken rest) :
    Takes (urlUnit good) ('\\' :: taken) rest (.again good) := by
  refine .peek_bind (.consume_bind ?_)
  exact .answer (takes_escapeBody h) (.pure _ rest)

/-- Anything else is taken by itself, a backslash included that no escape begins with. -/
theorem takes_urlUnit_bad {c : Char} (hc : isUrlChar c = false) (hp : c ≠ ')')
    (hw : isWhitespace c = false)
    (hb : c = '\\' → (Pattern.one (!isNewline ·)).fits rest = false) :
    Takes (urlUnit good) [c] rest (.again false) := by
  refine .peek_bind (.consume_bind ?_)
  simp only [hc, hp, hw, if_false]
  by_cases hx : c = '\\'
  · rw [if_pos hx]
    exact .nothing_bind (takes_escapeBody_none (hb hx)) (.pure _ rest)
  · rw [if_neg hx]
    exact .pure _ rest

/-- An unquoted URL goes on behind what it has taken as if it began there. -/
theorem takes_urlBody (h : UrlBody good result body (more ++ rest))
    (hend : Takes (iterate urlUnit .urlUnit result) more rest answer)
    (hclose : (Pattern.one (· = ')')).fits (more ++ rest) = true → more = [')'] ∧ answer = result) :
    Takes (iterate urlUnit .urlUnit good) (body ++ more) rest answer := by
  generalize hbehind : more ++ rest = behind at h
  induction h with
  | stop => exact hend
  | @char good result c body _ hc _ ih =>
    exact .again (w := [c]) (takes_urlUnit_char hc _) (ih hend hclose hbehind)
  | @space good result space body _ hs hne h ih =>
    obtain rfl := hbehind
    rw [← List.append_assoc] at hs h
    simp only [← List.append_assoc] at ih
    cases hfits : (Pattern.one (· = ')')).fits (body ++ more ++ rest) with
    | true =>
      rw [hfits, Bool.and_true] at h
      rw [List.append_assoc] at hfits
      obtain ⟨rfl, rfl⟩ := UrlBody.eq_nil h hfits
      obtain ⟨rfl, rfl⟩ := hclose hfits
      rw [List.append_nil]
      refine .finish (takes_urlUnit_space hs hne ?_)
      exact .answer (.accept (by decide) rest) (.pure _ rest)
    | false =>
      rw [hfits, Bool.and_false] at ih
      have hround : Takes (urlUnit good) space (body ++ more ++ rest) (.again false) := by
        rw [← List.append_nil space]
        refine takes_urlUnit_space hs hne ?_
        exact .nothing_bind (.accept_none hfits) (.pure _ _)
      rw [List.append_assoc]
      exact .again hround (ih hend hclose trivial)
  | @escape good result body' body _ he _ ih =>
    obtain rfl := hbehind
    rw [← List.append_assoc] at he
    have hcontent : '\\' :: (body' ++ body) ++ more = ('\\' :: body') ++ (body ++ more) := by
      simp
    rw [hcontent]
    exact .again (takes_urlUnit_escape he) (ih hend hclose rfl)
  | @bad good result c body _ hc hp hw hb _ ih =>
    obtain rfl := hbehind
    rw [← List.append_assoc] at hb
    exact .again (w := [c]) (takes_urlUnit_bad hc hp hw hb) (ih hend hclose rfl)

theorem takes_unquotedUrl (h : UrlBody true good body (')' :: rest)) :
    Takes Scan.unquotedUrl (body ++ [')']) rest good := by
  refine takes_urlBody h (.finish ?_) fun _ => ⟨rfl, rfl⟩
  exact .peek_bind (.consume_bind (.pure _ rest))

theorem takes_endlessUrl (h : UrlBody true good body []) :
    Takes Scan.unquotedUrl body [] false := by
  have hend : Takes (iterate urlUnit .urlUnit good) [] [] false :=
    .finish (.peek_bind (.pure _ []))
  rw [← List.append_nil body]
  exact takes_urlBody h hend nofun

end UrlBody

section NameLike

variable {mark space body : List Char}

/-- Behind its mark a URL is quoted if a quote stands there, or behind the whitespace there. -/
theorem takes_urlRest_quoted {quote : Char} (hs : ∀ c ∈ space, isWhitespace c = true)
    (hq : isQuote quote = true) (rest : List Char) :
    Takes Scan.urlRest [] (space ++ quote :: rest) .function := by
  have hspace : isWhitespace quote = false := by
    obtain rfl | rfl : quote = '"' ∨ quote = '\'' := by simpa [isQuote] using hq
    all_goals decide
  have hrun : Run isWhitespace space (quote :: rest) := ⟨hs, by simp [hspace]⟩
  have hahead : Takes Scan.quoteAhead space (quote :: rest) true := by
    refine .answer (.acceptWhile hrun) (.peek_bind ?_)
    simp only [List.nil_append, List.head?_cons, Option.any_some, hq]
    exact .pure true _
  refine .nothing_bind (.undone (a := true) .quoteAhead (fun c hc => ?_) rfl) (.pure _ _)
  rw [hahead c hc]

theorem takes_urlRest {good : Bool} (hs : Run isWhitespace space (body ++ rest))
    (hq : (Pattern.one isQuote).fits (body ++ rest) = false)
    (h : Takes Scan.unquotedUrl body rest good) :
    Takes Scan.urlRest (space ++ body) rest (if good then .url else .badUrl) := by
  have hahead : Takes Scan.quoteAhead space (body ++ rest) false := by
    refine .answer (.acceptWhile hs) (.peek_bind ?_)
    rw [List.nil_append, ← Pattern.fits_one_eq, hq]
    exact .pure false _
  refine .bind (.kept hahead rfl) (.answer h ?_)
  cases good
  · exact .pure _ rest
  · exact .pure _ rest

/-- A literal whose case is ignored. -/
theorem takes_acceptEach {text : List Char} (h : taken.map Char.toLower = text.map Char.toLower)
    (rest : List Char) : Takes (Scan.acceptEach sameIgnoringCase text) taken rest true := by
  induction text generalizing taken with
  | nil =>
    obtain rfl := List.map_eq_nil_iff.mp h
    exact .pure true rest
  | cons y text ih =>
    cases taken with
    | nil => contradiction
    | cons x taken =>
      obtain ⟨hx, htaken⟩ := List.cons.inj h
      exact .one_bind (.accept (by simp [sameIgnoringCase, hx]) _) (ih htaken)

theorem answer_acceptEach (text : List Char) (c : Cursor) :
    (Scan.acceptEach sameIgnoringCase text c).1 =
      decide ((c.ahead.take text.length).map Char.toLower = text.map Char.toLower) := by
  induction text generalizing c with
  | nil => rfl
  | cons y text ih =>
    rw [Scan.acceptEach, bind_apply]
    cases h : c.ahead with
    | nil => simp [accept_nil h]
    | cons x rest =>
      have hrest := ih (c.skip 1)
      rw [ahead_skip, h] at hrest
      by_cases hx : x.toLower = y.toLower
      · simpa [accept_cons h, sameIgnoringCase, hx] using hrest
      · simp [accept_cons h, sameIgnoringCase, hx]

theorem takes_urlMark (h : isUrlMark mark = true) (rest : List Char) :
    Takes (Scan.acceptTextIgnoringCase "url(") mark rest true := by
  have hmark : mark.map Char.toLower = "url(".toList := of_decide_eq_true h
  exact .kept (takes_acceptEach hmark rest) rfl

theorem takes_urlMark_none (h : isUrlMark (rest.take 4) = false) :
    Takes (Scan.acceptTextIgnoringCase "url(") [] rest false := by
  refine .undone (.acceptEach _ _) (fun c hc => ?_) rfl
  rw [answer_acceptEach, hc]
  exact h

/-- A name that is not the mark of a URL with the parenthesis behind it does not begin one. -/
theorem takes_urlMark_of_identifier {name : List Char} (h : Identifier name rest)
    (hn : ∀ tail, rest = '(' :: tail → isUrlMark (name ++ ['(']) = false) :
    Takes (Scan.acceptTextIgnoringCase "url(") [] (name ++ rest) false := by
  apply takes_urlMark_none
  rw [Bool.eq_false_iff]
  intro hmark
  obtain ⟨mark, hsplit, hidentifier⟩ :=
    exists_identifier_of_isUrlMark hmark ((name ++ rest).drop 4)
  have heq : mark ++ ('(' :: (name ++ rest).drop 4) = name ++ rest := by
    rw [List.append_cons, ← hsplit, List.take_append_drop]
  obtain ⟨rfl, hrest, -⟩ := (takes_identifier hidentifier).unique (takes_identifier h) heq
  rw [hsplit, hn _ hrest.symm] at hmark
  contradiction

/-- Whatever is read as a token that begins like a name is taken as one. -/
theorem takes_nameLike {kind : Kind} (h : NameLike kind taken rest) :
    Takes (Scan.attempt? Scan.nameLike) taken rest (some kind) := by
  cases h with
  | ident h hp =>
    refine .kept (.nothing_bind (takes_urlMark_of_identifier h fun tail htail => ?_) ?_) rfl
    · rw [htail] at hp
      simp at hp
    · exact .answer (takes_identifier h) (.nothing_bind (.accept_none hp) (.pure _ rest))
  | @function name _ h hu =>
    have hmark := takes_urlMark_of_identifier h fun _ _ => hu
    rw [List.append_cons] at hmark
    refine .kept (.nothing_bind hmark (.bind (takes_identifier h) ?_)) rfl
    exact .answer (.accept (by decide) rest) (.pure _ rest)
  | quotedUrl hm hs hq =>
    refine .kept (.answer (takes_urlMark hm _) ?_) rfl
    exact .answer (takes_urlRest_quoted hs hq _) (.pure _ _)
  | url hm hs hquote h =>
    rw [List.append_cons] at hs hquote
    refine .kept (.bind (takes_urlMark hm _) ?_) rfl
    exact .answer (takes_urlRest hs hquote (takes_unquotedUrl h)) (.pure _ rest)
  | @endlessUrl _ _ body _ hm hs hquote h =>
    rw [← List.append_nil body] at hs hquote
    refine .kept (.bind (takes_urlMark hm _) ?_) rfl
    exact .answer (takes_urlRest hs hquote (takes_endlessUrl h)) (.pure _ [])

/-- Without an identifier there is no token of that sort. -/
theorem takes_nameLike_none (h : Pattern.identifier.fits rest = false) :
    Takes (Scan.attempt? Scan.nameLike) [] rest none := by
  have hmark : isUrlMark (rest.take 4) = false := by
    rw [Bool.eq_false_iff]
    intro hmark
    obtain ⟨name, hsplit, hidentifier⟩ := exists_identifier_of_isUrlMark hmark (rest.drop 4)
    have hfits := hidentifier.fits
    rw [List.append_cons, ← hsplit, List.take_append_drop, h] at hfits
    contradiction
  refine .undone .nameLike (fun c hc => ?_) rfl
  have hidentifier : (Scan.identifier c).1 = false := by rw [answer_identifier, hc, h]
  rw [Scan.nameLike, bind_apply, takes_urlMark_none hmark c hc]
  simp [hidentifier]

end NameLike

/-! ## Lexemes -/

section Lexeme

variable {x : Char} {w : List Char} {kind : Kind}

theorem takes_single (kind : Kind) (x : Char) (rest : List Char) :
    Takes (Scan.single kind) [x] rest (.token kind) :=
  .consume_bind (.pure _ rest)

theorem takes_acceptText (text : String) (rest : List Char) :
    Takes (Scan.acceptText text) text.toList rest true := by
  intro c hc
  rw [acceptText_eq, if_pos ⟨rest, hc.symm⟩]

theorem takes_acceptText_none {text : String}
    (h : (Pattern.text text.toList).fits rest = false) :
    Takes (Scan.acceptText text) [] rest false := by
  intro c hc
  have hnot : ¬ text.toList <+: c.ahead := by
    rw [← Pattern.fits_text_iff, hc, List.nil_append, h]
    simp
  rw [acceptText_eq, if_neg hnot, List.length_nil, skip_zero]

theorem takes_lookahead {scan : Scan Cursor Bool} {pattern : Pattern} (hu : Uniform scan scan)
    (h : ∀ c : Cursor, (scan c).1 = pattern.fits c.ahead) (rest : List Char) :
    Takes (Scan.lookahead scan) [] rest (pattern.fits rest) :=
  .undone hu (fun c hc => by rw [h, hc]) rfl

/-- A code point that begins no number is a delimiter where one is looked for. -/
theorem takes_numericOr_none (h : Pattern.number.fits (x :: rest) = false) :
    Takes (do
      if ← Scan.lookahead Scan.numberStart then return Lexeme.token (← Scan.numeric)
      else Scan.single .delim) [x] rest (.token .delim) := by
  have hlookahead := takes_lookahead .numberStart answer_numberStart_fits (x :: rest)
  rw [h] at hlookahead
  exact .nothing_bind hlookahead (takes_single .delim x rest)

theorem takes_numericOr (h : Numeric kind taken rest) :
    Takes (do
      if ← Scan.lookahead Scan.numberStart then return Lexeme.token (← Scan.numeric)
      else Scan.single .delim) taken rest (.token kind) := by
  have hlookahead := takes_lookahead .numberStart answer_numberStart_fits (taken ++ rest)
  rw [h.fits] at hlookahead
  exact .nothing_bind hlookahead (.answer (takes_numeric h) (.pure _ rest))

theorem takes_nameLikeOr (h : NameLike kind taken rest) (other : Scan Cursor Lexeme) :
    Takes (do
      match ← Scan.attempt? Scan.nameLike with
      | some kind => return .token kind
      | none => other) taken rest (.token kind) :=
  .answer (takes_nameLike h) (.pure _ rest)

theorem takes_nameLikeOr_none {other : Scan Cursor Lexeme} {lexeme : Lexeme}
    (h : Pattern.identifier.fits (taken ++ rest) = false) (ho : Takes other taken rest lexeme) :
    Takes (do
      match ← Scan.attempt? Scan.nameLike with
      | some kind => return .token kind
      | none => other) taken rest lexeme :=
  .nothing_bind (takes_nameLike_none h) ho

theorem takes_lexeme_numeric (h : Numeric kind (x :: w) rest) :
    Takes (Scan.lexeme x) (x :: w) rest (.token kind) := by
  have hfits := h.fits
  rw [List.cons_append, Pattern.fits_number_cons] at hfits
  have hx : isDigit x = true ∨ (x = '.' ∨ x = '+') ∨
      x = '-' ∧ Pattern.unsigned.fits (w ++ rest) = true := by
    simp [isSign] at hfits
    grind
  unfold Scan.lexeme
  obtain hdigit | hpoint | ⟨rfl, hunsigned⟩ := hx
  · rw [Lead.of_eq_of_says (l := .digit) (by decide) hdigit]
    exact .answer (takes_numeric h) (.pure _ rest)
  · rw [Lead.of_eq_of_says (l := .pointOrPlus) (by decide) hpoint]
    exact takes_numericOr h
  · rw [Lead.of_eq_of_says (l := .hyphen) (by decide) rfl]
    have hhyphenated := Pattern.fits_hyphenated_of_unsigned hunsigned
    have hcdc : (Pattern.text ['-', '-', '>']).fits ('-' :: w ++ rest) = false := by
      rw [List.cons_append, Pattern.text, Pattern.fits_after_cons, Pattern.text]
      cases hw : w ++ rest with
      | nil => rfl
      | cons y tail =>
        rw [hw, Pattern.hyphenated, Pattern.fits_either, Pattern.fits_one_cons,
          Bool.or_eq_false_iff] at hhyphenated
        rw [Pattern.fits_after_cons, hhyphenated.1]
        rfl
    refine .nothing_bind (takes_acceptText_none hcdc) (takes_nameLikeOr_none ?_ (takes_numericOr h))
    rw [List.cons_append, Pattern.fits_identifier_hyphen, hhyphenated]

theorem takes_lexeme_nameLike (h : NameLike kind (x :: w) rest)
    (hc : (Pattern.text ['-', '-', '>']).fits (x :: w ++ rest) = false) :
    Takes (Scan.lexeme x) (x :: w) rest (.token kind) := by
  unfold Scan.lexeme
  obtain rfl | hx := Pattern.lead_of_fits_identifier h.fits
  · rw [Lead.of_eq_of_says (l := .hyphen) (by decide) rfl]
    exact .nothing_bind (takes_acceptText_none hc) (takes_nameLikeOr h _)
  · rw [Lead.of_eq_of_says (l := .name) (by decide) hx]
    exact takes_nameLikeOr h _

theorem takes_lexeme_delim (h : (Lead.goesOn x).fits rest = false) :
    Takes (Scan.lexeme x) [x] rest (.token .delim) := by
  have hclass := Lead.says_of x
  unfold Scan.lexeme
  unfold Lead.goesOn at h
  cases hlead : Lead.of x with
  | solidus =>
    rw [hlead] at h hclass
    obtain rfl : x = '/' := hclass
    refine .nothing_bind (takes_acceptText_none ?_) (takes_single .delim '/' rest)
    exact h
  | numberSign =>
    rw [hlead] at h
    have hlookahead := takes_lookahead .nameUnit answer_nameUnit rest
    simp only [h] at hlookahead
    exact .consume_bind (.nothing_bind hlookahead (.pure _ rest))
  | pointOrPlus =>
    rw [hlead] at h hclass
    apply takes_numericOr_none
    obtain rfl | rfl : x = '.' ∨ x = '+' := hclass
    · rw [Pattern.fits_number_point]
      exact h
    · rw [Pattern.fits_number_sign (by decide)]
      exact h
  | lessThan =>
    rw [hlead] at h hclass
    obtain rfl : x = '<' := hclass
    refine .nothing_bind (takes_acceptText_none ?_) (takes_single .delim '<' rest)
    exact h
  | atSign =>
    rw [hlead] at h
    have hattempt := takes_nothing_of_attempt .identifier answer_identifier h
    exact .consume_bind (.nothing_bind hattempt (.pure _ rest))
  | hyphen =>
    rw [hlead] at h hclass
    obtain rfl : x = '-' := hclass
    simp only [Pattern.fits_either, Bool.or_eq_false_iff] at h
    obtain ⟨⟨hcdc, hhyphenated⟩, hunsigned⟩ := h
    refine .nothing_bind (takes_acceptText_none hcdc) (takes_nameLikeOr_none ?_ ?_)
    · rw [List.singleton_append, Pattern.fits_identifier_hyphen, hhyphenated]
    · apply takes_numericOr_none
      rw [Pattern.fits_number_sign (by decide), hunsigned]
  | name =>
    rw [hlead] at h hclass
    obtain rfl | hstart : x = '\\' ∨ isNameStart x = true := hclass
    · refine takes_nameLikeOr_none ?_ (takes_single .delim '\\' rest)
      exact h
    · have hne : x ≠ '\\' := ne_of_class hstart (by decide)
      simp only [hne, if_false] at h
      contradiction
  | other => exact takes_single .delim x rest
  | whitespace | quote | opening | closing | comma | colon | semicolon | digit =>
    rw [hlead] at h
    contradiction

theorem takes_lexeme {lexeme : Lexeme} (h : Reading lexeme (x :: w) rest) :
    Takes (Scan.lexeme x) (x :: w) rest lexeme := by
  have hlead := fun (l : Lead) (hl : l ≠ .other) (hclass : l.Says x) =>
    Lead.of_eq_of_says hl hclass
  unfold Scan.lexeme
  cases h with
  | numeric h => exact takes_lexeme_numeric h
  | nameLike h hc => exact takes_lexeme_nameLike h hc
  | delim h => exact takes_lexeme_delim h
  | whitespace h hne =>
    rw [hlead .whitespace (by simp) (h.all x List.mem_cons_self)]
    exact .answer (.acceptWhile h) (.pure _ rest)
  | comment h =>
    rw [hlead .solidus (by simp) rfl]
    refine .bind (w := ['/', '*']) (takes_acceptText "/*" _) ?_
    exact .answer (takes_comment h) (.pure _ rest)
  | unterminatedComment h =>
    rw [hlead .solidus (by simp) rfl]
    refine .bind (w := ['/', '*']) (takes_acceptText "/*" _) ?_
    exact .answer (takes_endlessComment h) (.pure _ [])
  | string hq h =>
    rw [hlead .quote (by simp) hq]
    exact .consume_bind (.answer (takes_quoted h (takes_quote hq rest)) (.pure _ rest))
  | badString hq h he =>
    rw [hlead .quote (by simp) hq]
    have hquoted : Takes (Scan.quoted x) (w ++ []) rest false :=
      takes_quoted h (takes_lineEnd x he)
    rw [List.append_nil] at hquoted
    exact .consume_bind (.answer hquoted (.pure _ rest))
  | loneBackslash hq h =>
    rw [hlead .quote (by simp) hq]
    exact .consume_bind (.answer (takes_quoted h (takes_loneBackslash x h)) (.pure _ rest))
  | hash h hne =>
    rw [hlead .numberSign (by simp) rfl]
    have hlookahead := takes_lookahead .nameUnit answer_nameUnit (w ++ rest)
    rw [h.fits hne] at hlookahead
    exact .consume_bind (.nothing_bind hlookahead (.answer (takes_name h) (.pure _ rest)))
  | atKeyword h =>
    rw [hlead .atSign (by simp) rfl]
    refine .consume_bind (.answer (.kept (takes_identifier h) rfl) (.pure _ rest))
  | opening block =>
    rw [hlead (.opening block) (by simp) rfl]
    exact takes_single _ _ rest
  | closing block =>
    rw [hlead (.closing block) (by simp) rfl]
    exact .consume_bind (.pure _ rest)
  | comma =>
    rw [hlead .comma (by simp) rfl]
    exact takes_single _ _ rest
  | colon =>
    rw [hlead .colon (by simp) rfl]
    exact takes_single _ _ rest
  | semicolon =>
    rw [hlead .semicolon (by simp) rfl]
    exact takes_single _ _ rest
  | cdo =>
    rw [hlead .lessThan (by simp) rfl]
    exact .answer (takes_acceptText "<!--" rest) (.pure _ rest)
  | cdc =>
    rw [hlead .hyphen (by simp) rfl]
    exact .answer (takes_acceptText "-->" rest) (.pure _ rest)

end Lexeme
end Stylesheet.Cursor
