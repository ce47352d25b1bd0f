import Stylesheet.Proofs.Languages
import Stylesheet.Proofs.Pieces
import Stylesheet.Proofs.Starts

/-!
# Unquoted URLs

An unquoted URL goes as far as the first closing parenthesis that is no part of an escape, whatever
stands before that, and it is well formed if what stands before it is. What a URL may hold is said
of its pieces, as a language. Main statement: behind its mark, the pieces of the text decide where
the token ends and of which kind it is.
-/
namespace Stylesheet

open CodePoint Grammar
open scoped Computability

/-- What a well-formed URL is made of behind the whitespace that it begins with. -/
def urlContent : Language Piece :=
  (oneOf (Piece.isCharOrEscape isUrlChar))∗ * (oneOf (Piece.isChar isWhitespace))∗

/-- What a well-formed URL is made of. -/
def urlForm : Language Piece := (oneOf (Piece.isChar isWhitespace))∗ * urlContent

/-- The first code point that is no whitespace is a quote. -/
def startsQuoted (behind : List Char) : Bool := (behind.dropWhile isWhitespace).head?.any isQuote

variable {piece : Piece} {body space : List Piece}

namespace Piece

/-- The class of a code point, unless escapes begin with it, is that of the first piece. -/
theorem fits_text {p : Char → Bool} (hp : p '\\' = false) (piece : Piece) (rest : List Char) :
    (Pattern.one p).fits (piece.text ++ rest) = piece.isChar p := by
  cases piece with
  | char c => exact Pattern.fits_one_cons p c rest
  | escape body => exact (Pattern.fits_one_cons p '\\' (body ++ rest)).trans hp

theorem isChar_isWhitespace_of_isUrl (h : piece.isCharOrEscape isUrlChar = true) :
    piece.isChar isWhitespace = false := by
  cases piece with
  | char c =>
    have hc : isUrlChar c = true := h
    exact isWhitespace_of_class hc (by decide) (by decide) (by decide) (by decide) (by decide)
  | escape => rfl

theorem isUrl_of_isWhitespace (h : piece.isChar isWhitespace = true) :
    piece.isCharOrEscape isUrlChar = false := by
  cases hp : piece.isCharOrEscape isUrlChar with
  | false => rfl
  | true =>
    rw [isChar_isWhitespace_of_isUrl hp] at h
    contradiction

end Piece

/-! ## What a URL is made of -/

theorem nil_mem_urlContent : [] ∈ urlContent :=
  Language.append_mem_mul (Language.nil_mem_kstar _) (Language.nil_mem_kstar _)

theorem cons_mem_urlContent (h : piece.isCharOrEscape isUrlChar = true) :
    piece :: body ∈ urlContent ↔ body ∈ urlContent := by
  have hspace := Piece.isChar_isWhitespace_of_isUrl h
  rw [urlContent, cons_mem_kstar_mul, cons_mem_kstar_oneOf]
  simp [h, hspace]

/-- Behind anything else there is whitespace only. -/
theorem cons_mem_urlContent_of_not (h : piece.isCharOrEscape isUrlChar = false) :
    piece :: body ∈ urlContent ↔
      piece.isChar isWhitespace = true ∧ body ∈ (oneOf (Piece.isChar isWhitespace))∗ := by
  rw [urlContent, cons_mem_kstar_mul, cons_mem_kstar_oneOf]
  simp [h]

theorem mem_urlContent_of_spaces (h : body ∈ (oneOf (Piece.isChar isWhitespace))∗) :
    body ∈ urlContent :=
  Language.append_mem_mul (a := []) (Language.nil_mem_kstar _) h

/-- Whitespace inside of a URL is at the end of it. -/
theorem append_mem_urlContent (hs : ∀ piece ∈ space, piece.isChar isWhitespace = true)
    (hne : space ≠ []) (hb : body.head?.any (Piece.isChar isWhitespace) = false) :
    space ++ body ∈ urlContent ↔ body = [] := by
  cases space with
  | nil => contradiction
  | cons piece space =>
    obtain ⟨hpiece, hs⟩ := List.forall_mem_cons.mp hs
    rw [List.cons_append, cons_mem_urlContent_of_not (Piece.isUrl_of_isWhitespace hpiece),
      mem_kstar_oneOf, List.forall_mem_append]
    constructor
    · rintro ⟨-, -, hall⟩
      cases body with
      | nil => rfl
      | cons piece' body =>
        have hpiece' : piece'.isChar isWhitespace = false := hb
        rw [hall piece' List.mem_cons_self] at hpiece'
        contradiction
    · rintro rfl
      exact ⟨hpiece, hs, nofun⟩

/-- Only the whitespace that a URL begins with is of no account. -/
theorem append_mem_urlForm (hs : ∀ piece ∈ space, piece.isChar isWhitespace = true)
    (hb : body.head?.any (Piece.isChar isWhitespace) = false) :
    space ++ body ∈ urlForm ↔ body ∈ urlContent := by
  induction space with
  | nil =>
    have hnil : [] ∈ urlForm :=
      Language.append_mem_mul (Language.nil_mem_kstar _) nil_mem_urlContent
    cases body with
    | nil => exact iff_of_true hnil nil_mem_urlContent
    | cons piece body =>
      have hpiece : piece.isChar isWhitespace = false := hb
      rw [List.nil_append, urlForm, cons_mem_kstar_mul]
      simp [hpiece]
  | cons piece space ih =>
    obtain ⟨hpiece, hs⟩ := List.forall_mem_cons.mp hs
    rw [List.cons_append, urlForm, cons_mem_kstar_mul, ← urlForm, ih hs,
      cons_mem_urlContent_of_not (Piece.isUrl_of_isWhitespace hpiece)]
    refine ⟨fun h => ?_, fun h => .inl ⟨hpiece, h⟩⟩
    obtain ⟨-, hcontent⟩ | ⟨-, hall⟩ := h
    · exact hcontent
    · rw [mem_kstar_oneOf, List.forall_mem_append] at hall
      exact mem_urlContent_of_spaces (mem_kstar_oneOf.mpr hall.2)

/-! ## The pieces of a URL -/

/-- In front of `rest`, what is taken has these pieces, and none of them closes a URL. -/
structure UrlPieces (body : List Piece) (taken rest : List Char) : Prop where
  pieces : pieces (taken ++ rest) = body ++ pieces rest
  text : body.flatMap Piece.text = taken
  unclosed : .char ')' ∉ body

variable {good result : Bool} {taken rest : List Char}

namespace UrlPieces

theorem nil (rest : List Char) : UrlPieces [] [] rest := ⟨rfl, rfl, List.not_mem_nil⟩

theorem cons_char {c : Char} (h : UrlPieces body taken rest) (hc : c ≠ ')')
    (hescape : Pattern.escape.fits (c :: (taken ++ rest)) = false) :
    UrlPieces (.char c :: body) (c :: taken) rest := by
  refine ⟨?_, ?_, ?_⟩
  · rw [List.cons_append, pieces_char hescape, h.pieces]
    rfl
  · rw [List.flatMap_cons, h.text]
    rfl
  · simp [h.unclosed, hc.symm]

theorem cons_escape {escape : List Char} (h : UrlPieces body taken rest)
    (he : EscapeBody escape (taken ++ rest)) :
    UrlPieces (.escape escape :: body) ('\\' :: (escape ++ taken)) rest := by
  refine ⟨?_, ?_, ?_⟩
  · rw [List.cons_append, List.append_assoc, pieces_escape he, h.pieces]
    rfl
  · rw [List.flatMap_cons, h.text]
    rfl
  · simp [h.unclosed]

theorem append_space {space : List Char} (h : UrlPieces body taken rest)
    (hs : ∀ c ∈ space, isWhitespace c = true) :
    UrlPieces (space.map .char ++ body) (space ++ taken) rest := by
  induction space with
  | nil => exact h
  | cons c space ih =>
    obtain ⟨hc, hs⟩ := List.forall_mem_cons.mp hs
    exact (ih hs).cons_char (ne_of_class hc (by decide))
      (Pattern.fits_escape_of_ne (ne_of_class hc (by decide)) _)

theorem head?_eq (h : UrlPieces body taken rest) {p : Char → Bool} (hp : p '\\' = false)
    (hne : body ≠ []) : (Pattern.one p).fits (taken ++ rest) = body.head?.any (Piece.isChar p) := by
  rw [← h.text]
  cases body with
  | nil => contradiction
  | cons piece body =>
    rw [List.flatMap_cons, List.append_assoc, Piece.fits_text hp]
    rfl

theorem head?_of_run {space : List Char} (h : UrlPieces body taken rest)
    (hs : Run isWhitespace space (taken ++ rest)) :
    body.head?.any (Piece.isChar isWhitespace) = false := by
  by_cases hne : body = []
  · rw [hne]
    rfl
  · rw [← h.head?_eq (by decide) hne]
    exact hs.stops

/-- A closing parenthesis is next only if nothing is taken before it. -/
theorem fits_close (h : UrlPieces body taken rest)
    (hstop : (Pattern.one (· ≠ ')')).fits rest = false) (hne : rest ≠ []) :
    (Pattern.one (· = ')')).fits (taken ++ rest) = true ↔ body = [] := by
  by_cases hbody : body = []
  · have htaken := h.text
    rw [hbody, List.flatMap_nil] at htaken
    cases rest with
    | nil => contradiction
    | cons c rest =>
      obtain rfl : c = ')' := by simpa using hstop
      rw [← htaken]
      exact iff_of_true rfl hbody
  · refine iff_of_false (fun hclose => ?_) hbody
    rw [h.head?_eq (by decide) hbody, Option.any_eq_true] at hclose
    obtain ⟨piece, hhead, hclose⟩ := hclose
    cases piece with
    | char c =>
      obtain rfl : c = ')' := of_decide_eq_true hclose
      exact h.unclosed (List.mem_of_mem_head? hhead)
    | escape => contradiction

end UrlPieces

theorem all_map_char {space : List Char} (hs : ∀ c ∈ space, isWhitespace c = true) :
    ∀ piece ∈ space.map Piece.char, piece.isChar isWhitespace = true := by
  intro piece hpiece
  obtain ⟨c, hc, rfl⟩ := List.mem_map.mp hpiece
  exact hs c hc

/-- What the flags say is said of the pieces. Where the input ends it does not matter. -/
theorem Grammar.UrlBody.exists_pieces (h : UrlBody good result taken rest) :
    ∃ body, UrlPieces body taken rest ∧
      (rest ≠ [] → (result = true ↔ good = true ∧ body ∈ urlContent)) := by
  induction h with
  | stop _ => exact ⟨[], .nil _, fun _ => by simp [nil_mem_urlContent]⟩
  | @char good result c taken rest hc _ ih =>
    obtain ⟨body, hbody, hform⟩ := ih
    have hurl : Piece.isCharOrEscape isUrlChar (.char c) = true := hc
    have hescape := Pattern.fits_escape_of_ne (ne_of_class hc (by decide)) (taken ++ rest)
    refine ⟨_, hbody.cons_char (ne_of_class hc (by decide)) hescape, fun hrest => ?_⟩
    rw [hform hrest, cons_mem_urlContent hurl]
  | escape he _ ih =>
    obtain ⟨body, hbody, hform⟩ := ih
    refine ⟨_, hbody.cons_escape he, fun hrest => ?_⟩
    rw [hform hrest, cons_mem_urlContent rfl]
  | @space good result space taken rest hs hne h ih =>
    obtain ⟨body, hbody, hform⟩ := ih
    refine ⟨_, hbody.append_space hs.all, fun hrest => ?_⟩
    -- The flag is kept where the closing parenthesis is next, which is where nothing is left.
    rw [hform hrest, Bool.and_eq_true, hbody.fits_close h.stops hrest,
      append_mem_urlContent (all_map_char hs.all) (by simpa using hne) (hbody.head?_of_run hs)]
    refine ⟨And.left, fun hgood => ⟨hgood, ?_⟩⟩
    rw [hgood.2]
    exact nil_mem_urlContent
  | @bad good result c taken rest hc hp hw hb _ ih =>
    obtain ⟨body, hbody, hform⟩ := ih
    have hurl : Piece.isCharOrEscape isUrlChar (.char c) = false := hc
    have hspace : Piece.isChar isWhitespace (.char c) = false := hw
    have hescape : Pattern.escape.fits (c :: (taken ++ rest)) = false := by
      rw [Pattern.escape, Pattern.fits_after_cons, Bool.and_eq_false_imp]
      exact fun hbackslash => hb (of_decide_eq_true hbackslash)
    refine ⟨_, hbody.cons_char hp hescape, fun hrest => ?_⟩
    rw [hform hrest, cons_mem_urlContent_of_not hurl]
    simp [hspace]

/-- The same with the whitespace that the URL begins with. -/
theorem Grammar.UrlBody.exists_pieces_behind {space : List Char} (h : UrlBody true good taken rest)
    (hs : Run isWhitespace space (taken ++ rest)) :
    ∃ body, UrlPieces body (space ++ taken) rest ∧
      (rest ≠ [] → (good = true ↔ body ∈ urlForm)) := by
  obtain ⟨body, hbody, hform⟩ := h.exists_pieces
  refine ⟨_, hbody.append_space hs.all, fun hrest => ?_⟩
  rw [hform hrest, append_mem_urlForm (all_map_char hs.all) (hbody.head?_of_run hs)]
  exact and_iff_right rfl

/-! ## The token -/

theorem Grammar.Run.dropWhile_eq {p : Char → Bool} (h : Run p taken rest) :
    (taken ++ rest).dropWhile p = rest := by
  rw [List.dropWhile_append_of_pos h.all]
  cases rest with
  | nil => rfl
  | cons c rest =>
    have hc : p c = false := by simpa using h.stops
    exact List.dropWhile_cons_of_neg (Bool.eq_false_iff.mp hc)

theorem split_at_first {α : Type} [DecidableEq α] {a : α} {before before' after after' : List α}
    (h : a ∉ before) (h' : a ∉ before') (heq : before ++ a :: after = before' ++ a :: after') :
    before = before' ∧ after = after' := by
  have hlength := congrArg (List.idxOf a) heq
  rw [List.idxOf_append_of_notMem h, List.idxOf_append_of_notMem h', List.idxOf_cons_self,
    List.idxOf_cons_self] at hlength
  obtain ⟨hbefore, hafter⟩ := List.append_inj heq hlength
  exact ⟨hbefore, (List.cons.inj hafter).2⟩

theorem fits_cdc_of_isUrlMark {mark : List Char} (h : isUrlMark mark = true) (more : List Char) :
    (Pattern.text ['-', '-', '>']).fits (mark ++ more) = false := by
  have hmark : mark.map Char.toLower = ['u', 'r', 'l', '('] := of_decide_eq_true h
  obtain ⟨u, tail, rfl, hu, -⟩ := List.map_eq_cons_iff.mp hmark
  have hne : u ≠ '-' := by
    rintro rfl
    contradiction
  rw [List.cons_append, Pattern.text, Pattern.fits_after_cons]
  simp [hne]

namespace Tokenizer

variable {ι : Type} [CharStream ι] [CharStream.Fused ι] {t : Tokenizer (BufferedSource ι)}
  {mark behind : List Char}

/-- In front of a quote the mark is a function, and the whitespace before the quote is left. -/
theorem Faces.hands_quotedUrl (h : t.Faces (mark ++ behind)) (hm : isUrlMark mark = true)
    (hq : startsQuoted behind = true) :
    t.Hands ⟨.function, String.ofList mark⟩ (.parenthesis :: t.blocks) behind := by
  obtain ⟨space, quoted, rfl, hrun⟩ := splits_run isWhitespace behind
  rw [startsQuoted, hrun.dropWhile_eq] at hq
  cases quoted with
  | nil => contradiction
  | cons quote rest =>
    exact h.hands (.nameLike (.quotedUrl hm hrun.all hq) (fits_cdc_of_isUrlMark hm _)) rfl

/-- Anything else is read as an unquoted URL, which ends in front of the first closing parenthesis
or at the end of the input. -/
theorem exists_unquotedUrl (hq : startsQuoted behind = false) :
    ∃ space taken rest good, behind = space ++ (taken ++ rest) ∧
      Run isWhitespace space (taken ++ rest) ∧ (Pattern.one isQuote).fits (taken ++ rest) = false ∧
      UrlBody true good taken rest := by
  obtain ⟨space, tail, rfl, hrun⟩ := splits_run isWhitespace behind
  rw [startsQuoted, hrun.dropWhile_eq, ← Pattern.fits_one_eq] at hq
  obtain ⟨good, taken, rest, rfl, hbody⟩ := splits_urlBody true tail
  exact ⟨space, taken, rest, good, rfl, hrun, hq, hbody⟩

theorem Faces.hands_closedUrl (h : t.Faces (mark ++ behind)) (hm : isUrlMark mark = true)
    (hq : startsQuoted behind = false) {left : List Piece}
    (hb : pieces behind = body ++ .char ')' :: left) (hc : .char ')' ∉ body) :
    ∃ kind, t.Hands ⟨kind, String.ofList (mark ++ (body.flatMap Piece.text ++ [')']))⟩ t.blocks
        (left.flatMap Piece.text) ∧
      (kind = .url ∧ body ∈ urlForm ∨ kind = .badUrl ∧ body ∉ urlForm) := by
  obtain ⟨space, taken, rest, good, rfl, hrun, hquote, hurl⟩ := exists_unquotedUrl hq
  obtain ⟨body', hbody, hform⟩ := hurl.exists_pieces_behind hrun
  rw [← List.append_assoc, hbody.pieces] at hb
  cases rest with
  | nil =>
    rw [pieces_nil, List.append_nil] at hb
    exact absurd (hb ▸ by simp) hbody.unclosed
  | cons c rest =>
    obtain rfl : c = ')' := by simpa using hurl.stops
    rw [pieces_char_of_ne (by decide)] at hb
    obtain ⟨rfl, rfl⟩ := split_at_first hbody.unclosed hc hb
    have hall : mark ++ (space ++ (taken ++ ')' :: rest)) =
        mark ++ (space ++ (taken ++ [')'])) ++ rest := by simp
    have hcdc := fits_cdc_of_isUrlMark hm (space ++ (taken ++ ')' :: rest))
    rw [hall] at h hcdc
    have hhands := h.hands (.nameLike (.url hm hrun hquote hurl) hcdc) rfl
    rw [hbody.text, flatMap_pieces, List.append_assoc, ← hform (List.cons_ne_nil _ _)]
    cases good with
    | true => exact ⟨.url, hhands, .inl ⟨rfl, rfl⟩⟩
    | false => exact ⟨.badUrl, hhands, .inr ⟨rfl, Bool.false_ne_true⟩⟩

theorem Faces.hands_endlessUrl (h : t.Faces (mark ++ behind)) (hm : isUrlMark mark = true)
    (hq : startsQuoted behind = false) (hc : .char ')' ∉ pieces behind) :
    t.Hands ⟨.badUrl, String.ofList (mark ++ behind)⟩ t.blocks [] := by
  obtain ⟨space, taken, rest, good, rfl, hrun, hquote, hurl⟩ := exists_unquotedUrl hq
  obtain ⟨body, hbody, -⟩ := hurl.exists_pieces_behind hrun
  cases rest with
  | nil =>
    have hcdc := fits_cdc_of_isUrlMark hm (space ++ (taken ++ []))
    have hall : mark ++ (space ++ (taken ++ [])) = mark ++ (space ++ taken) ++ [] := by simp
    rw [hall] at h hcdc
    rw [List.append_nil] at hrun hquote ⊢
    exact h.hands (.nameLike (.endlessUrl hm hrun hquote hurl) hcdc) rfl
  | cons c rest =>
    obtain rfl : c = ')' := by simpa using hurl.stops
    rw [← List.append_assoc, hbody.pieces, pieces_char_of_ne (by decide)] at hc
    exact absurd (by simp) hc

/-- The mark of a URL in front of a quote is a function, and opens its block. Otherwise the token goes
as far as the first piece that closes it, or to the end of the input, and no block is opened. It is
well formed if it is closed and what stands before that is. -/
theorem nextToken_url (h : t.Faces (mark ++ behind)) (hm : isUrlMark mark = true) :
    (startsQuoted behind = true →
      t.Hands ⟨.function, String.ofList mark⟩ (.parenthesis :: t.blocks) behind) ∧
    (startsQuoted behind = false →
      (∀ body left, pieces behind = body ++ .char ')' :: left → .char ')' ∉ body →
        ∃ kind, t.Hands ⟨kind, String.ofList (mark ++ (body.flatMap Piece.text ++ [')']))⟩ t.blocks
            (left.flatMap Piece.text) ∧
          (kind = .url ∧ body ∈ urlForm ∨ kind = .badUrl ∧ body ∉ urlForm)) ∧
      (.char ')' ∉ pieces behind →
        t.Hands ⟨.badUrl, String.ofList (mark ++ behind)⟩ t.blocks [])) :=
  ⟨h.hands_quotedUrl hm, fun hq => ⟨fun _ _ => h.hands_closedUrl hm hq, h.hands_endlessUrl hm hq⟩⟩

/-- An escaped parenthesis does not end a URL. -/
theorem nextToken_url_escaped :
    (ofString "url( a\\)b )c").Hands ⟨.url, "url( a\\)b )"⟩ [] ['c'] := by
  have hfaces : (ofString "url( a\\)b )c").Faces ("url(".toList ++ " a\\)b )c".toList) :=
    faces_ofString "url( a\\)b )c"
  let blank : List Piece := [.char ' ']
  let content : List Piece := [.char 'a', .escape [')'], .char 'b']
  have hpieces : pieces " a\\)b )c".toList =
      blank ++ (content ++ blank) ++ .char ')' :: [.char 'c'] := by
    decide +kernel
  have hform : blank ++ (content ++ blank) ∈ urlForm :=
    Language.append_mem_mul (mem_kstar_oneOf.mpr (by decide))
      (Language.append_mem_mul (mem_kstar_oneOf.mpr (by decide)) (mem_kstar_oneOf.mpr (by decide)))
  obtain ⟨-, hunquoted⟩ := nextToken_url hfaces (by decide)
  obtain ⟨kind, hhands, ⟨rfl, -⟩ | ⟨-, hbad⟩⟩ :=
    (hunquoted (by decide)).1 _ _ hpieces (by decide)
  · exact hhands
  · exact absurd hform hbad

end Tokenizer
end Stylesheet
