import Stylesheet.Proofs.Lookahead
import Stylesheet.Proofs.Urls

/-!
# Lazy reading

How far a lexeme looks is how much of the input is pulled ahead of a token, since nothing else
pulls. Main statement: when a token is handed out, three code points at most have been pulled
behind it, and none for the token itself if it ends itself; only for the mark of a quoted URL all
of the whitespace up to the quote is pulled, and the quote.
-/
namespace Stylesheet

open CodePoint Grammar

theorem SpacedQuote.length_le {cs : List Char} {k : Nat} (h : SpacedQuote (cs.take k))
    (hk : k ≤ cs.length) : k ≤ (cs.takeWhile isWhitespace).length + 1 := by
  obtain ⟨space, quote, hcs, hspace, -⟩ := h
  have hlength : k = space.length + 1 := by
    simpa [Nat.min_eq_left hk] using congrArg List.length hcs
  have hsplit : cs = space ++ quote :: cs.drop k := by
    rw [List.append_cons, ← hcs, List.take_append_drop]
  rw [hsplit, List.takeWhile_append_of_pos hspace, List.length_append]
  omega

namespace Cursor

/-- Whitespace is a token as far as it goes. -/
theorem lexeme_of_isWhitespace {x : Char} (hx : isWhitespace x = true) (c : Cursor) :
    Scan.lexeme x c =
      (.token .whitespace, c.skip (c.ahead.takeWhile isWhitespace).length) := by
  unfold Scan.lexeme
  rw [Lead.of_eq_of_says (l := .whitespace) (by decide) hx]
  simp [acceptWhile_eq]

end Cursor

namespace Lookout

/-- A lookout between two tokens. Only the end of whitespace that comes next may be looked at
further away than three code points. -/
structure Poised (l : Lookout) : Prop where
  spanStart : l.cursor.spanStart = l.cursor.index
  index_le : l.cursor.index ≤ l.seen
  near : l.seen ≤ l.cursor.index + max 3 ((l.cursor.ahead.takeWhile isWhitespace).length + 1)

/-- A token was handed out, for which `n` code points were looked at. -/
structure Passes (l : Lookout) (token : Token) (n : Nat) (l' : Lookout) : Prop where
  text : l.cursor.ahead = token.text.toList ++ l'.cursor.ahead
  index : l'.cursor.index = l.cursor.index + token.text.toList.length
  spanStart : l'.cursor.spanStart = l'.cursor.index
  seen : l'.seen = max l.seen (l.cursor.index + n)
  le : token.text.toList.length ≤ n
  le_length : n ≤ l.cursor.ahead.length
  foresight : token.kind.Foresight l.cursor.ahead token.text.toList.length n
  space : token.kind = .whitespace ∧
      (l.cursor.ahead.takeWhile isWhitespace).length ≤ token.text.toList.length ∨
    (l.cursor.ahead.takeWhile isWhitespace).length = 0

variable {l l' : Lookout} {token : Token} {n : Nat}

/-- Taking the text of what was read since the token began. -/
theorem Poised.passes_takeText {kind : Kind} {m : Nat} (h : l.Poised) (hsees : l.Sees m n l')
    (hforesight : kind.Foresight l.cursor.ahead m n)
    (hspace : kind = .whitespace ∧ (l.cursor.ahead.takeWhile isWhitespace).length ≤ m ∨
      (l.cursor.ahead.takeWhile isWhitespace).length = 0) :
    l.Passes ⟨kind, (Source.takeText l').1⟩ n (Source.takeText l').2 := by
  have hm := Nat.le_trans hsees.le hsees.le_length
  have htext : (Source.takeText l').1.toList = l.cursor.ahead.take m := by
    change (String.ofList l'.cursor.span).toList = _
    rw [String.toList_ofList, hsees.cursor, Cursor.span_skip _ _ (Nat.le_of_eq h.spanStart),
      Cursor.span_eq_nil h.spanStart, List.nil_append]
  have hlength : (Source.takeText l').1.toList.length = m := by
    rw [htext, List.length_take, Nat.min_eq_left hm]
  have hahead : (Source.takeText l').2.cursor.ahead = l.cursor.ahead.drop m := by
    change l'.cursor.ahead = _
    rw [hsees.cursor, Cursor.ahead_skip]
  refine ⟨?_, ?_, rfl, hsees.seen, ?_, hsees.le_length, ?_, ?_⟩ <;> dsimp only
  · rw [htext, hahead, List.take_append_drop]
  · change l'.cursor.index = _
    rw [hlength, hsees.cursor, Cursor.index_skip hm]
  · rw [hlength]
    exact hsees.le
  · rwa [hlength]
  · rwa [hlength]

theorem Passes.drop_eq (h : l.Passes token n l') :
    l.cursor.ahead.drop token.text.toList.length = l'.cursor.ahead := by
  rw [h.text, List.drop_left]

theorem Passes.take_eq (h : l.Passes token n l') :
    l.cursor.ahead.take token.text.toList.length = token.text.toList := by
  rw [h.text, List.take_left]

/-- What was looked at before may be all of what is held behind a token. -/
theorem Passes.seen_le (h : l.Passes token n l') (hl : l.Poised) :
    l.seen ≤ l'.cursor.index + 3 := by
  have hnear := hl.near
  have hspace := h.space
  rw [h.index]
  omega

theorem Passes.poised (h : l.Passes token n l') (hl : l.Poised) : l'.Poised := by
  have hseen := h.seen
  have hle := h.le
  have hindex := h.index
  have hbefore := h.seen_le hl
  refine ⟨h.spanStart, by omega, ?_⟩
  cases h.foresight with
  | nothing _ hn => omega
  | near _ _ hn => omega
  | quotedUrl _ _ hquote =>
    rw [List.drop_take, h.drop_eq] at hquote
    have hlength := hquote.length_le ?_
    · omega
    · rw [← h.drop_eq, List.length_drop]
      exact Nat.sub_le_sub_right h.le_length _

theorem Passes.held_eq (h : l.Passes token n l') (hl : l.Poised) :
    l'.held = (l.cursor.ahead.take (max (l.seen - l.cursor.index) n)).drop
      token.text.toList.length := by
  have hle := hl.index_le
  have hlength : l'.seen - l'.cursor.index =
      max (l.seen - l.cursor.index) n - token.text.toList.length := by
    rw [h.seen, h.index]
    omega
  rw [held, List.drop_take, h.drop_eq, hlength]

/-- A token that ends itself is handed out without a look behind it. -/
theorem Passes.held_of_isSelfEnding (h : l.Passes token n l') (hl : l.Poised)
    (hk : token.kind.isSelfEnding = true) : l'.held = l.held.drop token.text.toList.length := by
  have hle := h.le
  have hn : n ≤ token.text.toList.length := by
    cases h.foresight with
    | nothing _ hn => exact hn
    | near hnot =>
      rw [hk] at hnot
      contradiction
    | quotedUrl hfunction =>
      rw [hfunction] at hk
      contradiction
  rw [h.held_eq hl, held, List.drop_take, List.drop_take]
  congr 1
  omega

theorem Passes.held_of_isUrlMark (h : l.Passes token n l') (hl : l.Poised)
    (hk : token.kind = .function) (hu : isUrlMark token.text.toList = true) :
    SpacedQuote l'.held := by
  have hlength : token.text.toList.length = 4 := by
    simpa using congrArg List.length (of_decide_eq_true hu)
  have hle := h.le
  have hnear := hl.near
  have hmax : max (l.seen - l.cursor.index) n = n := by
    obtain ⟨hspace, -⟩ | hspace := h.space
    · rw [hk] at hspace
      contradiction
    · omega
  rw [h.held_eq hl, hmax]
  cases h.foresight with
  | nothing hne => exact absurd hk hne
  | near _ hnot =>
    rw [h.take_eq, hu] at hnot
    exact absurd (hnot hk) (by decide)
  | quotedUrl _ _ hquote => exact hquote

theorem Passes.length_held_le (h : l.Passes token n l') (hl : l.Poised)
    (hu : ¬ (token.kind = .function ∧ isUrlMark token.text.toList = true)) :
    l'.held.length ≤ 3 := by
  have hbefore := h.seen_le hl
  have hseen := h.seen
  have hindex := h.index
  have hlength : l'.held.length ≤ l'.seen - l'.cursor.index := List.length_take_le _ _
  cases h.foresight with
  | nothing _ hn => omega
  | near _ _ hn => omega
  | quotedUrl hk hmark =>
    rw [h.take_eq] at hmark
    exact absurd ⟨hk, hmark⟩ hu

end Lookout

namespace Tokenizer

variable {t : Tokenizer Lookout} {token : Token}

theorem foresight_of_settle {blocks : Nesting} {lexeme : Lexeme} {kind : Kind} {cs : List Char}
    {m n : Nat} (hk : blocks.settle lexeme = .ok kind) (h : lexeme.Foresight cs m n) :
    kind.Foresight cs m n := by
  cases lexeme with
  | token kind' =>
    obtain rfl := Except.ok.inj hk
    exact h
  | closing block =>
    obtain rfl := Except.ok.inj hk
    refine .nothing ?_ h
    split
    · cases block <;> nofun
    · nofun
  | unterminatedComment => contradiction

/-- One call: how far its lexeme looks is how far it looks. -/
theorem exists_passes (h : t.source.Poised) (ha : t.nextToken.1 = .ok token) :
    ∃ n, t.source.Passes token n t.nextToken.2.source := by
  have hstep := t.nextToken_step
  generalize t.nextToken = r at hstep ha ⊢
  cases hstep with
  | failed | unclosedBlock | unterminatedComment => contradiction
  | @done s hf hp hb =>
    obtain ⟨hpeek, rfl⟩ := Prod.mk.inj hp
    obtain rfl := Except.ok.inj ha
    have hnil : t.source.cursor.ahead = [] := (Cursor.ahead_eq_nil_iff _).mpr hpeek
    have hnone : t.source.cursor.peek.toList.length = 0 := by rw [hpeek]; rfl
    refine ⟨0, h.passes_takeText (m := 0) ?_ (.nothing nofun (Nat.le_refl 0)) (.inr ?_)⟩
    · rw [hnone]
      exact ⟨(Cursor.skip_zero _).symm, rfl, Nat.le_refl 0, Nat.zero_le _⟩
    · rw [hnil]
      rfl
  | @token s s' x lexeme kind hf hp hl hk =>
    obtain ⟨hpeek, rfl⟩ := Prod.mk.inj hp
    obtain rfl := Except.ok.inj ha
    have hone : t.source.cursor.peek.toList.length = 1 := by rw [hpeek]; rfl
    rw [hone] at hl
    rw [Cursor.peek_eq_head?] at hpeek
    obtain ⟨behind, hahead⟩ := List.head?_eq_some_iff.mp hpeek
    have hindex : t.source.cursor.index ≤ (t.source.look 1).seen :=
      Nat.le_trans h.index_le (Nat.le_max_left _ _)
    obtain ⟨m, n, hsees, hrun, hforesight⟩ :=
      (Lookout.looks_lexeme hahead).goes (.lexeme x) (t.source.look 1) rfl hindex
    rw [hl] at hsees hrun hforesight
    have hm : 0 < m := by
      have hmoves := Cursor.moves_lexeme hahead
      rw [Cursor.Moves, hrun, Cursor.ahead_skip, List.length_drop] at hmoves
      omega
    have hle := hsees.le
    refine ⟨n, h.passes_takeText (m := m) ⟨hsees.cursor, ?_, hle, hsees.le_length⟩
      (foresight_of_settle hk hforesight) ?_⟩
    · have hseen : s'.seen = max (max t.source.seen (t.source.cursor.index + 1))
        (t.source.cursor.index + n) := hsees.seen
      omega
    · cases hx : isWhitespace x with
      | true =>
        rw [Cursor.lexeme_of_isWhitespace hx] at hrun
        obtain ⟨rfl, hskip⟩ := Prod.mk.inj hrun
        refine .inl ⟨(Except.ok.inj hk).symm, Nat.le_of_eq ?_⟩
        exact Cursor.eq_of_skip_eq (List.takeWhile_prefix _).length_le
          (Nat.le_trans hle hsees.le_length) hskip
      | false =>
        rw [hahead, List.takeWhile_cons_of_neg (Bool.eq_false_iff.mp hx)]
        exact .inr rfl

theorem poised_after (text : List Char) (n : Nat)
    (hf : ((ofSource (Lookout.ofText text)).after n).failure? = none) :
    ((ofSource (Lookout.ofText text)).after n).source.Poised := by
  induction n with
  | zero => exact ⟨rfl, Nat.le_refl 0, Nat.zero_le _⟩
  | succ n ih =>
    have hpoised := ih (failure_of_next hf)
    cases ha : ((ofSource (Lookout.ofText text)).after n).nextToken.1 with
    | error failure =>
      rw [after, (next_of_error ha).1] at hf
      contradiction
    | ok token =>
      obtain ⟨k, hpasses⟩ := exists_passes hpoised ha
      exact hpasses.poised hpoised

/-- The tokens so far, what was pulled behind them and what can still be pulled are the text. -/
theorem pulled_whole {text : String} {n : Nat} {token : Token}
    (h : ((ofString text).after n).nextToken.1 = .ok token) :
    (Token.concat (returned ((ofString text).answers (n + 1)))).toList ++
        (((ofString text).after (n + 1)).source.ahead ++
          CharStream.drain ((ofString text).after (n + 1)).source.input) =
      LineEnding.normalize text.toList := by
  have halike := alike_ofNormalized text
  have hafter := Simulation.alike_after _ halike (n + 1)
  have hshows : ((ofString text).after (n + 1)).source.Shows
      ((ofNormalized text).after (n + 1)).source := hafter.source
  have hf : ((ofNormalized text).after (n + 1)).failure? = none := by
    rw [← hafter.failure]
    exact failure_of_ok h
  have hstands : Stands _ ((ofNormalized text).answers (n + 1))
      ((ofNormalized text).after (n + 1)) := stands_after _ (n + 1) hf
  rw [Simulation.answers_eq _ halike, LineEnding.Normalizer.drain_eq_rest, hshows.ahead,
    ← hstands.before, Cursor.before_append_ahead, hstands.text]

theorem alike_lookout (text : String) :
    (BufferedSource.asLookout (List Char)).Alike (ofString text)
      (ofSource (.ofText (LineEnding.normalize text.toList))) := by
  have hwatches := BufferedSource.watches_ofStream text.toList
  rw [CharStream.drain_list] at hwatches
  exact (BufferedSource.asLookout (List Char)).alike_ofSource hwatches

/-- When a token is handed out, what was pulled and is in no token yet are three code points at
most, and for a token that ends itself none that had not been pulled before the call. Behind the
mark of a quoted URL it is the whitespace there and the quote that ends it. -/
theorem nextToken_pulls {text : String} {n : Nat} {token : Token}
    (h : ((ofString text).after n).nextToken.1 = .ok token) :
    (Token.concat (returned ((ofString text).answers (n + 1)))).toList ++
        (((ofString text).after (n + 1)).source.ahead ++
          CharStream.drain ((ofString text).after (n + 1)).source.input) =
      LineEnding.normalize text.toList ∧
    (if token.kind = .function ∧ isUrlMark token.text.toList = true then
      SpacedQuote ((ofString text).after (n + 1)).source.ahead
    else ((ofString text).after (n + 1)).source.ahead.length ≤ 3) ∧
    (token.kind.isSelfEnding = true → ((ofString text).after (n + 1)).source.ahead =
      ((ofString text).after n).source.ahead.drop token.text.toList.length) := by
  refine ⟨pulled_whole h, ?_⟩
  have halike := Simulation.alike_after _ (alike_lookout text) n
  obtain ⟨hanswer, hnext⟩ := Simulation.alike_nextToken _ halike
  have hwatches : ((ofString text).after n).source.Watches _ := halike.source
  have hwatches' : ((ofString text).after (n + 1)).source.Watches _ := hnext.source
  rw [h] at hanswer
  have hpoised := poised_after _ n (failure_of_next (failure_of_ok hanswer.symm))
  obtain ⟨k, hpasses⟩ := exists_passes hpoised hanswer.symm
  rw [hwatches.ahead_eq, hwatches'.ahead_eq]
  refine ⟨?_, hpasses.held_of_isSelfEnding hpoised⟩
  split
  case isTrue hu => exact hpasses.held_of_isUrlMark hpoised hu.1 hu.2
  case isFalse hu => exact hpasses.length_held_le hpoised hu

/-- The whitespace and the quote behind it are pulled, and the quote is all that is pulled of the
string. -/
theorem nextToken_pulls_quote :
    ((ofString "url( 'a')").after 0).nextToken.1 = .ok ⟨.function, "url("⟩ ∧
      SpacedQuote ((ofString "url( 'a')").after (0 + 1)).source.ahead := by
  have hfaces : (ofString "url( 'a')").Faces ("url(".toList ++ " 'a')".toList) :=
    faces_ofString "url( 'a')"
  have hmark : isUrlMark "url(".toList = true := by decide
  have hanswer : ((ofString "url( 'a')").after 0).nextToken.1 = .ok ⟨.function, "url("⟩ :=
    (hfaces.hands_quotedUrl hmark (by decide)).answer
  obtain ⟨-, hpulls, -⟩ := nextToken_pulls hanswer
  rw [if_pos ⟨rfl, hmark⟩] at hpulls
  exact ⟨hanswer, hpulls⟩

end Tokenizer
end Stylesheet
