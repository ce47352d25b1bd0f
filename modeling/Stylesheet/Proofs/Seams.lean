import Mathlib.Control.Monad.Basic
import Stylesheet.Proofs.Drain
import Stylesheet.Proofs.Runs
import Stylesheet.Proofs.Tameness

/-!
# Seams

Some kinds of tokens end with themselves, so a text that ends with one can be read on its own and
what is written behind it after it. Every token before holds on to its end as well: a delimiter of
the last token stands somewhere behind it, and nothing looks past a delimiter.
-/
namespace Stylesheet

/-- The kinds of tokens that say themselves where they end. -/
def Kind.selfDelimiting : List Kind :=
  [comma, colon, semicolon, openParen, openBracket, openBrace, closeParen, closeBracket,
   closeBrace, string, url, comment, cdo, cdc, percentage, function]

namespace Grammar

open CodePoint

variable {taken rest : List Char} {lexeme : Lexeme} {blocks : Nesting} {kind : Kind}

/-- The text holds a delimiter, and no line ends with it. -/
structure Closed (taken : List Char) : Prop where
  delimiter : ∃ c ∈ taken, Pattern.isDelimiter c = true
  last : taken.getLast? ≠ some '\n'

theorem closed_append {x : Char} (hx : Pattern.isDelimiter x = true) (before : List Char) :
    Closed (before ++ [x]) := by
  refine ⟨⟨x, by simp, hx⟩, ?_⟩
  rw [List.getLast?_concat]
  rintro ⟨⟩
  contradiction

theorem isDelimiter_of_isQuote {quote : Char} (h : isQuote quote = true) :
    Pattern.isDelimiter quote = true := by
  obtain rfl | rfl : quote = '"' ∨ quote = '\'' := by simpa [isQuote] using h
  · decide
  · decide

theorem Numeric.closed (h : Numeric kind taken rest) (hd : kind ∈ Kind.selfDelimiting) :
    Closed taken := by
  cases h with
  | percentage => exact closed_append (by decide) _
  | dimension | number => exact absurd hd (by decide)

theorem NameLike.closed (h : NameLike kind taken rest) (hd : kind ∈ Kind.selfDelimiting) :
    Closed taken := by
  cases h with
  | function => exact closed_append (by decide) _
  | quotedUrl hm =>
    obtain ⟨name, rfl, -⟩ := exists_identifier_of_isUrlMark hm []
    exact closed_append (by decide) _
  | @url mark space body =>
    rw [← List.append_assoc, ← List.append_assoc]
    exact closed_append (by decide) _
  | ident | endlessUrl => exact absurd hd (by decide)

/-- The text of a token of such a kind is closed. -/
theorem Reading.closed (h : Reading lexeme taken rest) (hk : blocks.settle lexeme = .ok kind)
    (hd : kind ∈ Kind.selfDelimiting) : Closed taken := by
  cases h with
  | closing block =>
    cases block <;> exact closed_append (by decide) []
  | opening block =>
    cases block <;> exact closed_append (by decide) []
  | comment h =>
    obtain ⟨content, rfl⟩ := h.exists_content
    rw [List.append_cons content '*' ['/']]
    exact closed_append (by decide) ('/' :: '*' :: (content ++ ['*']))
  | @string quote content _ hq => exact closed_append (isDelimiter_of_isQuote hq) (quote :: content)
  | comma | colon | semicolon => exact closed_append (by decide) []
  | cdo => exact ⟨⟨'<', by simp, by decide⟩, by decide⟩
  | cdc => exact closed_append (by decide) ['-', '-']
  | numeric h =>
    obtain rfl := Except.ok.inj hk
    exact h.closed hd
  | nameLike h =>
    obtain rfl := Except.ok.inj hk
    exact h.closed hd
  | unterminatedComment => contradiction
  | _ =>
    obtain rfl := Except.ok.inj hk
    exact absurd hd (by decide)

/-- What stands behind the name of a quoted URL. -/
theorem Reading.quotedUrl_cases (h : Reading lexeme taken rest) (hl : lexeme = .token .function)
    (hm : isUrlMark taken = true) : ∃ space quote behind, rest = space ++ quote :: behind ∧
      (∀ c ∈ space, isWhitespace c = true) ∧ isQuote quote = true ∧
      (Pattern.text ['-', '-', '>']).fits (taken ++ rest) = false := by
  cases h with
  | numeric h => cases h <;> cases hl
  | nameLike h hc =>
    cases h with
    | function _ hu =>
      rw [hm] at hu
      contradiction
    | quotedUrl _ hs hq => exact ⟨_, _, _, rfl, hs, hq, hc⟩
    | @url _ _ _ _ good => cases good <;> cases hl
    | ident | endlessUrl => cases hl
  | opening block => cases block <;> cases hl
  | _ => cases hl

/-- A reading reaches no further than the first delimiter behind it. -/
theorem Reading.extend (h : Reading lexeme taken rest)
    (hd : ∃ c ∈ rest, Pattern.isDelimiter c = true) (more : List Char) :
    Reading lexeme taken (rest ++ more) := by
  have htamer := Tamer.append hd more
  by_cases hq : lexeme = .token .function ∧ isUrlMark taken = true
  · obtain ⟨rfl, hm⟩ := hq
    obtain ⟨space, quote, behind, rfl, hs, hquote, hc⟩ := h.quotedUrl_cases rfl hm
    have hc' := (htamer.behind taken).fits_eq_false (Pattern.shallow_text (by decide)) hc
    rw [List.append_assoc, List.cons_append] at hc' ⊢
    exact .nameLike (.quotedUrl hm hs hquote) hc'
  · exact h.tame htamer fun hl => Bool.eq_false_iff.mpr fun hm => hq ⟨hl, hm⟩

theorem NameLike.anywhere (h : NameLike kind taken rest) (hrest : rest = [])
    (hd : kind ∈ Kind.selfDelimiting) (more : List Char) : NameLike kind taken more := by
  have hparen : Tamer ('(' :: more) ['('] := .delimiter (by decide) more []
  have hclose : Tamer (')' :: more) [')'] := .delimiter (by decide) more []
  cases h with
  | function h hu =>
    subst hrest
    exact .function (h.tame hparen) hu
  | quotedUrl => simp at hrest
  | @url _ _ body _ _ hm hs hq h =>
    subst hrest
    have hbody := hclose.behind body
    exact .url hm (hs.tame hbody) (hbody.fits_eq_false (Pattern.shallow_one _) hq)
      (h.tame hclose rfl)
  | ident | endlessUrl => exact absurd hd (by decide)

/-- A token that says itself where it ends, and ended its text, ends there whatever follows. -/
theorem Reading.anywhere (h : Reading lexeme taken []) (hk : blocks.settle lexeme = .ok kind)
    (hd : kind ∈ Kind.selfDelimiting) (more : List Char) : Reading lexeme taken more := by
  have hclosed := h.closed hk hd
  cases h with
  | closing block => exact .closing block more
  | opening block => exact .opening block more
  | comment h => exact .comment h more
  | string hq h => exact .string hq (h.tame (.delimiter (isDelimiter_of_isQuote hq) more []))
  | comma => exact .comma more
  | colon => exact .colon more
  | semicolon => exact .semicolon more
  | cdo => exact .cdo more
  | cdc => exact .cdc more
  | numeric h =>
    obtain rfl := Except.ok.inj hk
    cases h with
    | percentage h => exact .numeric (.percentage (h.tame (.delimiter (by decide) more [])))
    | dimension | number => exact absurd hd (by decide)
  | nameLike h hc =>
    obtain rfl := Except.ok.inj hk
    rw [List.append_nil] at hc
    have hc' := (Tamer.append hclosed.delimiter more).fits_eq_false
      (Pattern.shallow_text (by decide)) hc
    exact .nameLike (h.anywhere rfl hd more) hc'
  | unterminatedComment => contradiction
  | _ =>
    obtain rfl := Except.ok.inj hk
    exact absurd hd (by decide)

/-! ## Two texts -/

/-- Some answer of the tokens of a text has its delimiter in it. -/
theorem Yields.exists_delimiter {text : List Char} {answers : List (Except Cause Token)}
    {token : Token} (h : Yields blocks text answers) (hmem : .ok token ∈ answers)
    (hd : token.kind ∈ Kind.selfDelimiting) : ∃ c ∈ text, Pattern.isDelimiter c = true := by
  induction h with
  | done =>
    obtain rfl := Except.ok.inj (List.mem_singleton.mp hmem)
    exact absurd hd (by decide)
  | unclosedBlock => simp at hmem
  | failed => simp at hmem
  | @token blocks lexeme kind taken rest answers hr hk h ih =>
    obtain heq | hmem := List.mem_cons.mp hmem
    · obtain rfl := Except.ok.inj heq
      obtain ⟨c, hc, hdelimiter⟩ := (hr.closed hk hd).delimiter
      exact ⟨c, List.mem_append_left rest hc, hdelimiter⟩
    · obtain ⟨c, hc, hdelimiter⟩ := ih hmem
      exact ⟨c, List.mem_append_right taken hc, hdelimiter⟩

theorem Yields.ne_nil {text : List Char} {answers : List (Except Cause Token)}
    (h : Yields blocks text answers) : answers ≠ [] := by
  cases h with
  | _ => exact List.cons_ne_nil _ _

/-- A token with answers behind it was read as the grammar says. -/
theorem Yields.of_cons {text : List Char} {token : Token} {answers : List (Except Cause Token)}
    (h : Yields blocks text (.ok token :: answers)) (hne : answers ≠ []) :
    ∃ lexeme taken rest, text = taken ++ rest ∧ token = ⟨token.kind, String.ofList taken⟩ ∧
      Reading lexeme taken rest ∧ blocks.settle lexeme = .ok token.kind ∧
      Yields (blocks.push token) rest answers := by
  cases h with
  | done => contradiction
  | @token _ lexeme kind taken rest _ hr hk h =>
    refine ⟨lexeme, taken, rest, rfl, rfl, hr, hk, ?_⟩
    rwa [← Nesting.after_kind]

/-- An answer that a text comes to its very end with. -/
def IsEnd (answer : Except Cause Token) : Prop :=
  answer = .ok ⟨.done, ""⟩ ∨ ∃ block, answer = .error (.unclosedBlock block)

theorem Yields.eq_nil {text : List Char} {last : Except Cause Token}
    (h : Yields blocks text [last]) (hl : IsEnd last) : text = [] := by
  cases h with
  | done => rfl
  | unclosedBlock => rfl
  | failed hr hk =>
    obtain ⟨-, rfl⟩ := Tokenizer.settle_eq_error hk
    obtain hl | ⟨block, hl⟩ := hl
    · contradiction
    · cases hl
  | token hr hk h => exact absurd rfl h.ne_nil

/-- What a text yields up to its last token comes first, and then what is written behind it yields
among the blocks that are left open. -/
theorem Yields.append {text more : List Char} {tokens : List Token} {token : Token}
    {last : Except Cause Token} {answers : List (Except Cause Token)}
    (h : Yields blocks text ((tokens ++ [token]).map .ok ++ [last])) (hl : IsEnd last)
    (hd : token.kind ∈ Kind.selfDelimiting)
    (hm : Yields ((tokens ++ [token]).foldl Nesting.push blocks) more answers) :
    Yields blocks (text ++ more) ((tokens ++ [token]).map .ok ++ answers) := by
  induction tokens generalizing blocks text with
  | nil =>
    obtain ⟨lexeme, taken, rest, rfl, htoken, hr, hk, h⟩ := h.of_cons (List.cons_ne_nil _ _)
    obtain rfl := h.eq_nil hl
    have hall := Yields.token (hr.anywhere hk hd more) hk
      (by rw [Nesting.after_kind]; exact hm)
    rw [← htoken] at hall
    rwa [List.append_nil]
  | cons other tokens ih =>
    obtain ⟨lexeme, taken, rest, rfl, htoken, hr, hk, h⟩ := h.of_cons (by simp)
    have hmem : .ok token ∈ (tokens ++ [token]).map Except.ok ++ [last] := by simp
    have hdelimiter := h.exists_delimiter hmem hd
    have hall := Yields.token (hr.extend hdelimiter more) hk
      (by rw [Nesting.after_kind]; exact ih h hm)
    rw [← htoken] at hall
    rwa [List.append_assoc]

/-- No line ends with the last token, so nothing is added to a line ending behind it. -/
theorem Yields.getLast?_ne {text : List Char} {tokens : List Token} {token : Token}
    {last : Except Cause Token}
    (h : Yields blocks text ((tokens ++ [token]).map .ok ++ [last])) (hl : IsEnd last)
    (hd : token.kind ∈ Kind.selfDelimiting) : text.getLast? ≠ some '\n' := by
  induction tokens generalizing blocks text with
  | nil =>
    obtain ⟨lexeme, taken, rest, rfl, -, hr, hk, h⟩ := h.of_cons (List.cons_ne_nil _ _)
    obtain rfl := h.eq_nil hl
    rw [List.append_nil]
    exact (hr.closed hk hd).last
  | cons other tokens ih =>
    obtain ⟨lexeme, taken, rest, rfl, -, hr, hk, h⟩ := h.of_cons (by simp)
    have hmem : .ok token ∈ (tokens ++ [token]).map Except.ok ++ [last] := by simp
    obtain ⟨c, hc, -⟩ := h.exists_delimiter hmem hd
    have hrest : rest.getLast? ≠ none := by
      simpa using List.ne_nil_of_mem hc
    rw [List.getLast?_append, Option.or_of_isSome (Option.isSome_iff_ne_none.mpr hrest)]
    exact ih h

end Grammar

namespace Tokenizer

open Grammar

variable {σ : Type} [Source σ]

theorem after_succ (n : Nat) (t : Tokenizer σ) : t.after (n + 1) = t.nextToken.2.after n := by
  induction n with
  | zero => rfl
  | succ n ih => rw [after, ih, after]

theorem answers_succ (n : Nat) (t : Tokenizer σ) :
    t.answers (n + 1) = t.nextToken.1 :: t.nextToken.2.answers n := by
  induction n with
  | zero => rfl
  | succ n ih => rw [answers, ih, after_succ, answers, List.cons_append]

/-- The tokens before the last outcome are what so many calls answer. -/
theorem answers_of_outcomes {t : Tokenizer σ} {n : Nat} {tokens : List Token}
    {last : Except Failure Token} (h : t.outcomes n = tokens.map .ok ++ [last]) :
    t.answers tokens.length = tokens.map .ok := by
  induction tokens generalizing t n with
  | nil => rfl
  | cons token tokens ih =>
    rw [List.map_cons, List.cons_append] at h
    cases n with
    | zero => contradiction
    | succ n =>
      rw [outcomes] at h
      rw [List.length_cons, answers_succ, List.map_cons]
      generalize t.nextToken = r at h ⊢
      obtain ⟨answer, next⟩ := r
      cases answer with
      | error failure => simp at h
      | ok first =>
        by_cases hdone : first.kind = .done
        · simp [hdone] at h
        · simp only [hdone, if_false, List.cons.injEq] at h
          rw [h.1, ih h.2]

/-- The blocks that the tokens of a text leave open. -/
theorem blocks_of_outcomes {text : String} {n : Nat} {tokens : List Token}
    {last : Except Failure Token} (h : (ofString text).outcomes n = tokens.map .ok ++ [last]) :
    ((ofString text).after tokens.length).blocks = tokens.foldl Nesting.push [] := by
  have hdisciplined := disciplined_ofSource (s := BufferedSource.ofString text) rfl tokens.length
  have hreturned : returned (tokens.map .ok) = tokens := by
    simp [returned, List.filterMap_map, Function.comp_def, Except.toOption]
  have hblocks := hdisciplined.blocks
  rw [← ofString, answers_of_outcomes h, hreturned] at hblocks
  exact hblocks

/-- What a tokenizer over a text answers among the blocks that it starts with. -/
theorem yields_ofString (text : String) (blocks : Nesting) {n : Nat}
    (hn : text.toList.length < n) :
    Yields blocks (LineEnding.normalize text.toList)
      ((({ ofString text with blocks } : Tokenizer _).outcomes n).map unplaced) := by
  have halike := alike_ofNormalized text
  have hblocks : (BufferedSource.asCursor (List Char)).Alike { ofString text with blocks }
      { ofNormalized text with blocks } := { halike with blocks := rfl }
  have hlength := LineEnding.length_normalize_le text.toList
  rw [Simulation.outcomes_eq _ hblocks]
  have hready : Ready { ofNormalized text with blocks } := ⟨rfl, rfl⟩
  exact yields_outcomes hready (Nat.lt_of_le_of_lt hlength hn)

/-- A text that is read to its end, and ends with a token that says itself where it ends, can be
followed by any other: its tokens come first, and then what the other yields among the blocks that
it left open. -/
theorem outcomes_append (a b : String) (tokens : List Token) (token : Token)
    (last : Except Failure Token) (ha : outcomesOf a = (tokens ++ [token]).map .ok ++ [last])
    (hlast : LeavesUnread last []) (hd : token.kind ∈ Kind.selfDelimiting) :
    (outcomesOf (a ++ b)).map unplaced = (tokens ++ [token]).map .ok ++
      (({ ofString b with blocks := ((ofString a).after (tokens.length + 1)).blocks } :
        Tokenizer _).outcomes (b.length + 1)).map unplaced := by
  have hya : Yields [] (LineEnding.normalize a.toList) ((outcomesOf a).map unplaced) :=
    yields_ofString a [] (Nat.lt_succ_self _)
  have hyb := yields_ofString b ((tokens ++ [token]).foldl Nesting.push []) (Nat.lt_succ_self _)
  have hyab : Yields [] (LineEnding.normalize (a ++ b).toList)
      ((outcomesOf (a ++ b)).map unplaced) :=
    yields_ofString (a ++ b) [] (Nat.lt_succ_self _)
  have hblocks := blocks_of_outcomes ha
  have hend : IsEnd (unplaced last) := by
    cases hlast with
    | done => exact .inl rfl
    | unclosedBlock block => exact .inr ⟨block, rfl⟩
  have hunplaced : (outcomesOf a).map unplaced =
      (tokens ++ [token]).map .ok ++ [unplaced last] := by
    rw [ha, List.map_append, List.map_map]
    rfl
  have hlength : (tokens ++ [token]).length = tokens.length + 1 := List.length_append
  rw [hunplaced] at hya
  rw [hlength] at hblocks
  have hnormalize := LineEnding.normalize_append
    (fun hreturn => hya.getLast?_ne hend hd (LineEnding.getLast?_normalize hreturn)) b.toList
  rw [String.toList_append, hnormalize] at hyab
  rw [hblocks]
  exact hyab.unique (hya.append hend hd hyb)

/-- Behind a comma, inside of the block that is open there. -/
theorem outcomes_append_comma :
    outcomesOf "(1," = ([Token.mk .openParen "(", Token.mk .number "1"] ++
        [Token.mk .comma ","]).map .ok ++ [.error ⟨.unclosedBlock .parenthesis, ⟨1, 4⟩⟩] ∧
      (outcomesOf ("(1," ++ "2)")).map unplaced =
        ([Token.mk .openParen "(", Token.mk .number "1"] ++ [Token.mk .comma ","]).map .ok ++
          (({ ofString "2)" with blocks := ((ofString "(1,").after 3).blocks } :
            Tokenizer _).outcomes 3).map unplaced := by
  have ha : outcomesOf "(1," = ([Token.mk .openParen "(", Token.mk .number "1"] ++
      [Token.mk .comma ","]).map .ok ++ [.error ⟨.unclosedBlock .parenthesis, ⟨1, 4⟩⟩] := by
    decide +kernel
  exact ⟨ha, outcomes_append "(1," "2)" _ _ _ ha (.unclosedBlock _ _) (by decide)⟩

end Tokenizer
end Stylesheet
