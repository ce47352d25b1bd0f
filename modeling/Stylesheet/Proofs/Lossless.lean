import Stylesheet.Proofs.Answers
import Stylesheet.Proofs.Calls
import Stylesheet.Proofs.CursorScan
import Stylesheet.Proofs.Views

/-!
# Nothing is lost

The texts of the tokens of a run, written one after another, are the text that was read, except
that a comment without an end is in no token. This is seen on cursors, where each call takes at
least one code point and hands out exactly what it took, and then holds of every source that
behaves like a cursor.
-/
namespace Stylesheet

/-- An answer that a run ends with, and what it leaves unread. -/
inductive LeavesUnread : Except Failure Token → List Char → Prop
  | done : LeavesUnread (.ok ⟨.done, ""⟩) []
  | unclosedBlock (block : Block) (location : Location) :
      LeavesUnread (.error ⟨.unclosedBlock block, location⟩) []
  | unterminatedComment (location : Location) (rest : List Char) (h : ¬ ['*', '/'] <:+: rest) :
      LeavesUnread (.error ⟨.unterminatedComment, location⟩) ('/' :: '*' :: rest)

/-- The answers are a run up to its end, and its tokens spell the text but for what is unread. -/
def Spells (answers : List (Except Failure Token)) (text : List Char) : Prop :=
  ∃ tokens last unread, answers = tokens.map Except.ok ++ [last] ∧
    (∀ token ∈ tokens, token.kind ≠ .done) ∧ LeavesUnread last unread ∧
    (Token.concat tokens).toList ++ unread = text

theorem Spells.last {answer : Except Failure Token} {text : List Char}
    (h : LeavesUnread answer text) : Spells [answer] text :=
  ⟨[], answer, text, rfl, by simp, h, rfl⟩

theorem Spells.token {answers : List (Except Failure Token)} {text : List Char}
    (h : Spells answers text) {token : Token} (hk : token.kind ≠ .done) :
    Spells (.ok token :: answers) (token.text.toList ++ text) := by
  obtain ⟨tokens, last, unread, rfl, hkinds, hlast, rfl⟩ := h
  refine ⟨token :: tokens, last, unread, rfl, ?_, hlast, ?_⟩
  · intro other hmem
    obtain rfl | hmem := List.mem_cons.mp hmem
    · exact hk
    · exact hkinds other hmem
  · simp [Token.concat, String.toList_join]

namespace Cursor

open Scan

/-- A comment that does not end goes from its opening mark to the end of the text. -/
theorem unterminatedComment_ahead {c : Cursor} {x : Char}
    (hl : (Scan.lexeme x c).1 = .unterminatedComment) :
    ∃ tail, c.ahead = '/' :: '*' :: tail ∧ ¬ ['*', '/'] <:+: tail := by
  have hlead : Lead.of x = .solidus := by
    have hallowed := answers_lexeme x c
    rwa [hl] at hallowed
  unfold Scan.lexeme at hl
  rw [hlead] at hl
  simp only [bind_apply, acceptText_eq] at hl
  by_cases hopen : "/*".toList <+: c.ahead
  · obtain ⟨tail, htail⟩ := hopen
    refine ⟨tail, htail.symm, (closeAt_eq_none_iff tail).mp ?_⟩
    have hskip : (c.skip 2).ahead = tail := by simp [← htail]
    have hcomment := comment_eq (c.skip 2)
    rw [hskip] at hcomment
    cases hclose : closeAt tail with
    | none => rfl
    | some n =>
      rw [hclose] at hcomment
      have hin : "/*".toList <+: c.ahead := ⟨tail, htail⟩
      simp only [if_pos hin] at hl
      simp [hcomment] at hl
  · simp only [if_neg hopen] at hl
    simp [single] at hl

end Cursor

namespace Tokenizer

/-- The tokenizer has not failed, and stands between two tokens. -/
structure Ready (t : Tokenizer Cursor) : Prop where
  failure : t.failure? = none
  spanStart : t.source.spanStart = t.source.index

theorem ready_ofSource_ofText (text : List Char) :
    (ofSource (Cursor.ofText text)).Ready := ⟨rfl, rfl⟩

theorem Ready.span_eq_nil {t : Tokenizer Cursor} (h : t.Ready) : t.source.span = [] :=
  Cursor.span_eq_nil h.spanStart

theorem Ready.span_skip {t : Tokenizer Cursor} (h : t.Ready) (n : Nat) :
    (t.source.skip n).span = t.source.ahead.take n := by
  rw [Cursor.span_skip _ _ (Nat.le_of_eq h.spanStart), h.span_eq_nil, List.nil_append]

/-- What one call does to the text ahead: it comes to an end, or it takes the code points of its
token, of which there is at least one. -/
inductive Takes (t : Tokenizer Cursor) : Except Failure Token × Tokenizer Cursor → Prop
  | last {answer : Except Failure Token} {next : Tokenizer Cursor}
      (hl : LeavesUnread answer t.source.ahead)
      (hd : ∀ token, answer = .ok token → token.kind = .done) : Takes t (answer, next)
  | token {token : Token} {next : Tokenizer Cursor} (hk : token.kind ≠ .done)
      (ha : token.text.toList ++ next.source.ahead = t.source.ahead)
      (hlt : next.source.ahead.length < t.source.ahead.length) (hn : next.Ready) :
      Takes t (.ok token, next)

/-- A lexeme, once it is settled among the open blocks, is no end of a list of tokens. -/
theorem settle_proper {blocks : Nesting} {lexeme : Lexeme} {lead : Lead} {kind : Kind}
    (ha : lead.Allows lexeme) (hk : blocks.settle lexeme = .ok kind) :
    kind ≠ .done ∧ kind ≠ .error := by
  cases lexeme with
  | token k =>
    obtain rfl := Except.ok.inj hk
    exact ⟨ha.1.1, ha.1.2.1⟩
  | closing block =>
    obtain rfl := Except.ok.inj hk
    split
    · cases block <;> decide
    · decide
  | unterminatedComment => contradiction

theorem takes_nextToken {t : Tokenizer Cursor} (h : t.Ready) : t.Takes t.nextToken := by
  have hstep := t.nextToken_step
  generalize t.nextToken = r at hstep ⊢
  cases hstep with
  | failed hf => rw [h.failure] at hf; contradiction
  | @done s hf hp hb =>
    obtain ⟨hpeek, rfl⟩ := Prod.mk.inj hp
    have ha := (t.source.ahead_eq_nil_iff).mpr hpeek
    have htext : (Source.takeText t.source).1 = "" := congrArg String.ofList h.span_eq_nil
    rw [htext]
    refine .last (ha ▸ .done) fun token htoken => ?_
    rw [← Except.ok.inj htoken]
  | unclosedBlock hf hp hb =>
    obtain ⟨hpeek, rfl⟩ := Prod.mk.inj hp
    have ha := (t.source.ahead_eq_nil_iff).mpr hpeek
    refine .last (ha ▸ .unclosedBlock _ _) fun token htoken => ?_
    contradiction
  | unterminatedComment hf hp hl =>
    obtain ⟨hpeek, rfl⟩ := Prod.mk.inj hp
    obtain ⟨tail, ha, hin⟩ := Cursor.unterminatedComment_ahead (congrArg Prod.fst hl)
    refine .last (ha ▸ .unterminatedComment _ _ hin) fun token htoken => ?_
    contradiction
  | @token s s' x lexeme kind hf hp hl hk =>
    obtain ⟨hpeek, rfl⟩ := Prod.mk.inj hp
    have hhead : t.source.ahead.head? = some x := by
      rw [← Cursor.peek_eq_head?]
      exact hpeek
    obtain ⟨rest, hahead⟩ := List.head?_eq_some_iff.mp hhead
    have hmoves := Cursor.moves_lexeme hahead
    obtain ⟨n, hn⟩ := Cursor.exists_skip (.lexeme x) t.source
    have hallowed := Scan.answers_lexeme x t.source
    rw [hl] at hn hallowed
    rw [Cursor.Moves, hl] at hmoves
    obtain rfl : s' = t.source.skip n := hn
    refine .token (settle_proper hallowed hk).1 ?_ hmoves ⟨hf, rfl⟩
    change (String.ofList (t.source.skip n).span).toList ++ (t.source.skip n).ahead = _
    rw [String.toList_ofList, h.span_skip, Cursor.ahead_skip, List.take_append_drop]

/-- A cursor's run spells the text ahead, in more calls than there are code points. -/
theorem spells_outcomes {t : Tokenizer Cursor} (h : t.Ready) {n : Nat}
    (hn : t.source.ahead.length < n) : Spells (t.outcomes n) t.source.ahead := by
  induction n generalizing t with
  | zero => contradiction
  | succ n ih =>
    have htakes := takes_nextToken h
    rw [outcomes]
    generalize t.nextToken = r at htakes ⊢
    cases htakes with
    | @last answer next hl hd =>
      cases answer with
      | error failure => exact .last hl
      | ok token =>
        simp only [hd token rfl, if_true]
        exact .last hl
    | @token token next hk ha hlt hready =>
      have hrest := ih hready (by omega)
      simp only [hk, if_false, ← ha]
      exact hrest.token hk

/-- Tokenizing loses nothing and adds nothing: neither to the normalized text of a string, nor to
the code points of an array, which are read as they are. -/
theorem outcomes_lossless (text : String) (n : Nat) (h : text.toList.length < n) :
    Spells ((ofString text).outcomes n) (LineEnding.normalize text.toList) ∧
      Spells ((ofSource (IndexedSource.ofString text)).outcomes n) text.toList := by
  constructor
  · have hview := BufferedSource.shows_ofStream text.toList
    rw [CharStream.drain_list] at hview
    have halike := (BufferedSource.asCursor (List Char)).alike_ofSource hview
    have hlen := LineEnding.length_normalize_le text.toList
    rw [ofString, BufferedSource.ofString, Simulation.outcomes_eq _ halike]
    exact spells_outcomes (ready_ofSource_ofText _) (Nat.lt_of_le_of_lt hlen h)
  · have hview := IndexedSource.shows_ofString text
    have halike := IndexedSource.asCursor.alike_ofSource hview
    rw [Simulation.outcomes_eq _ halike]
    exact spells_outcomes (ready_ofSource_ofText _) h

theorem outcomes_lossless_unterminated :
    "a\r\n{}/* b".toList.length < 11 ∧
      Spells ((ofString "a\r\n{}/* b").outcomes 11)
        ['a', '\n', '{', '}', '/', '*', ' ', 'b'] ∧
      Spells ((ofSource (IndexedSource.ofString "a\r\n{}/* b")).outcomes 11)
        ['a', '\r', '\n', '{', '}', '/', '*', ' ', 'b'] :=
  ⟨by decide, outcomes_lossless "a\r\n{}/* b" 11 (by decide)⟩

end Tokenizer
end Stylesheet
