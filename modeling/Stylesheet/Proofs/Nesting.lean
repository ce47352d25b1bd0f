import Stylesheet.Proofs.Answers
import Stylesheet.Proofs.Balance
import Stylesheet.Proofs.Calls
import Stylesheet.Proofs.Leads
import Stylesheet.Source.Indexed

/-!
# Nesting

The open blocks are those that the returned tokens leave open, after any number of calls on any
input. A closing bracket is a token of its own kind exactly if it closes the innermost one, and the
end of the input is the end of the tokens exactly if no block is open. The input may be a stream
that goes on after it said it had ended.
-/
namespace Stylesheet

/-! ## Spans -/

/-- A source that tells a span without code points from one with a single code point. -/
class Source.Spans (σ : Type) [Source σ] where
  /-- Nothing was consumed since text was last taken. -/
  Fresh : σ → Prop
  fresh_takeText : ∀ s, Fresh (takeText s).2
  takeText_consume : ∀ s c, Fresh s → (peek s).1 = some c →
    (takeText (consume (peek s).2).2).1 = String.singleton c

instance {ι : Type} [CharStream ι] : Source.Spans (BufferedSource ι) where
  Fresh s := s.passed = []
  fresh_takeText _ := rfl
  takeText_consume s c hs hc := by
    change s.peek.1 = some c at hc
    change s.peek.2.consume.2.takeText.1 = String.singleton c
    have hpassed : s.peek.2.passed = [] := by
      rw [← hs, BufferedSource.peek]
      split <;> rfl
    have hhead := s.head_ahead_peek
    rw [hc] at hhead
    obtain ⟨rest, hahead⟩ := List.head?_eq_some_iff.mp hhead
    have hspan : s.peek.2.consume.2.passed = [c] := by
      simp only [BufferedSource.consume, BufferedSource.peek_of_ahead hahead, hahead, hpassed]
    rw [BufferedSource.takeText, hspan, List.reverse_singleton, String.singleton_eq_ofList]

instance : Source.Spans IndexedSource where
  Fresh s := s.spanStart = s.index
  fresh_takeText _ := rfl
  takeText_consume s c hs hc := by
    change s.peek = some c at hc
    change String.ofList (s.consume.2.chars.extract s.consume.2.spanStart
      s.consume.2.index).toList = String.singleton c
    have hconsume : s.consume =
        (some c, { s with index := s.index + 1, location := s.location.advance c }) := by
      simp only [IndexedSource.consume, hc]
    obtain ⟨hlt, hc⟩ := Array.getElem?_eq_some_iff.mp hc
    have hspan : (s.chars.extract s.spanStart (s.index + 1)).toList = [c] := by
      rw [Array.toList_extract, List.extract_eq_take_drop, hs, Nat.add_sub_cancel_left,
        List.drop_eq_getElem_cons hlt, List.take_one, List.head?_cons, ← hc]
      rfl
    rw [hconsume, String.singleton_eq_ofList, hspan]

namespace Tokenizer

open Nesting

variable {σ : Type} [Source σ]

/-! ## One call -/

/-- How the next answer minds the open blocks, given the code point that comes next. -/
structure Minds (opened : Nesting) (ahead : Option Char) (answer : Except Failure Token) :
    Prop where
  /-- A closing mark closes the innermost block or else is a token of nothing. -/
  closing : ∀ b : Block, ahead = some b.closingChar →
    answer = .ok ⟨if opened.head? = some b then .closing b else .delim,
      String.singleton b.closingChar⟩
  closed : ∀ token b, answer = .ok token → token.kind.closes? = some b →
    ahead = some b.closingChar ∧ opened.head? = some b ∧ token.kind = .closing b
  done : (∃ token, answer = .ok token ∧ token.kind = .done) ↔ ahead = none ∧ opened = []
  unclosed : ∀ b, (∃ location, answer = .error ⟨.unclosedBlock b, location⟩) ↔
    ahead = none ∧ opened.head? = some b

theorem lexeme_closingChar (b : Block) (s : σ) :
    Scan.lexeme b.closingChar s = (.closing b, (Source.consume s).2) := by
  unfold Scan.lexeme
  rw [Lead.of_closingChar]
  rfl

theorem closingChar_inj {a b : Block} (h : a.closingChar = b.closingChar) : a = b := by
  have hof := Block.ofClosing?_closingChar a
  rw [h, Block.ofClosing?_closingChar] at hof
  exact (Option.some.inj hof).symm

theorem minds_done (text : String) : Minds [] none (.ok ⟨.done, text⟩) := by
  constructor
  · intro b hb
    contradiction
  · intro token b htoken hcloses
    obtain rfl := Except.ok.inj htoken
    contradiction
  · simp
  · intro b
    simp

theorem minds_unclosed {opened : Nesting} {block : Block} (h : opened.head? = some block)
    (location : Location) : Minds opened none (.error ⟨.unclosedBlock block, location⟩) := by
  constructor
  · intro b hb
    contradiction
  · intro token b htoken
    contradiction
  · constructor
    · rintro ⟨token, htoken, hkind⟩
      contradiction
    · rintro ⟨-, hnil⟩
      rw [hnil] at h
      contradiction
  · intro b
    constructor
    · rintro ⟨location, ⟨⟩⟩
      exact ⟨rfl, h⟩
    · rintro ⟨-, hb⟩
      obtain rfl := Option.some.inj (h.symm.trans hb)
      exact ⟨location, rfl⟩

/-- Before the end of the input no answer is one of those that the end gives. -/
theorem minds_some {opened : Nesting} {c : Char} {answer : Except Failure Token}
    (hclosing : ∀ b : Block, b.closingChar = c →
      answer = .ok ⟨if opened.head? = some b then .closing b else .delim,
        String.singleton b.closingChar⟩)
    (hclosed : ∀ token b, answer = .ok token → token.kind.closes? = some b →
      b.closingChar = c ∧ opened.head? = some b ∧ token.kind = .closing b)
    (hdone : ∀ token, answer = .ok token → token.kind ≠ .done)
    (hunclosed : ∀ b location, answer ≠ .error ⟨.unclosedBlock b, location⟩) :
    Minds opened (some c) answer := by
  constructor
  · intro b hb
    exact hclosing b (Option.some.inj hb).symm
  · intro token b htoken hb
    obtain ⟨hc, hhead, hkind⟩ := hclosed token b htoken hb
    exact ⟨congrArg some hc.symm, hhead, hkind⟩
  · constructor
    · rintro ⟨token, htoken, hkind⟩
      exact absurd hkind (hdone token htoken)
    · intro hend
      exact absurd hend.1 (Option.some_ne_none c)
  · intro b
    constructor
    · rintro ⟨location, hanswer⟩
      exact absurd hanswer (hunclosed b location)
    · intro hend
      exact absurd hend.1 (Option.some_ne_none c)

theorem minds_unterminated {c : Char} (opened : Nesting) (hc : ∀ b : Block, b.closingChar ≠ c)
    (location : Location) : Minds opened (some c) (.error ⟨.unterminatedComment, location⟩) := by
  apply minds_some
  · intro b hb
    exact absurd hb (hc b)
  · intro token b htoken
    contradiction
  · intro token htoken
    contradiction
  · intro b other hother
    cases hother

/-- A token that neither ends the tokens nor closes a block, and does not begin with a mark that
would. -/
theorem minds_plain {c : Char} {token : Token} (opened : Nesting)
    (hc : ∀ b : Block, b.closingChar ≠ c) (hk : token.kind.Plain) :
    Minds opened (some c) (.ok token) := by
  obtain ⟨hdone, -, hcloses⟩ := hk
  apply minds_some
  · intro b hb
    exact absurd hb (hc b)
  · intro other b htoken hb
    obtain rfl := Except.ok.inj htoken
    rw [hcloses] at hb
    contradiction
  · intro other htoken
    obtain rfl := Except.ok.inj htoken
    exact hdone
  · intro b location hlocation
    contradiction

theorem minds_closing (opened : Nesting) (block : Block) :
    Minds opened (some block.closingChar)
      (.ok ⟨if opened.head? = some block then .closing block else .delim,
        String.singleton block.closingChar⟩) := by
  apply minds_some
  · intro b hb
    obtain rfl := closingChar_inj hb
    rfl
  · intro token b htoken hb
    obtain rfl := Except.ok.inj htoken
    dsimp only at hb ⊢
    split at hb
    · rename_i hhead
      rw [Kind.closes?_closing] at hb
      obtain rfl := Option.some.inj hb
      exact ⟨rfl, hhead, if_pos hhead⟩
    · contradiction
  · intro token htoken
    obtain rfl := Except.ok.inj htoken
    dsimp only
    split
    · cases block <;> decide
    · decide
  · intro b location hlocation
    contradiction

/-- A lexeme that is no closing mark begins with none. -/
theorem closingChar_ne {c : Char} {s s' : σ} {lexeme : Lexeme}
    (hl : Scan.lexeme c s = (lexeme, s')) (hc : ∀ b, lexeme ≠ .closing b) (b : Block) :
    b.closingChar ≠ c := by
  rintro rfl
  rw [lexeme_closingChar] at hl
  exact hc b (Prod.mk.inj hl).1.symm

theorem minds_nextToken [Source.Spans σ] {t : Tokenizer σ} (hf : t.failure? = none)
    (hs : Source.Spans.Fresh t.source) :
    Minds t.blocks (Source.peek t.source).1 t.nextToken.1 := by
  have hstep := t.nextToken_step
  generalize t.nextToken = r at hstep ⊢
  cases hstep with
  | failed hfailed => rw [hf] at hfailed; contradiction
  | done _ hp hb =>
    rw [hp, hb]
    exact minds_done _
  | unclosedBlock _ hp hb =>
    rw [hp]
    exact minds_unclosed hb _
  | unterminatedComment _ hp hl =>
    rw [hp]
    exact minds_unterminated _ (closingChar_ne hl (by simp)) _
  | @token s s' c lexeme kind _ hp hl hk =>
    have hallowed := Scan.answers_lexeme c s
    rw [hl] at hallowed
    cases lexeme with
    | token k =>
      obtain rfl := Except.ok.inj hk
      rw [hp]
      exact minds_plain _ (closingChar_ne hl (by simp)) hallowed.1
    | closing block =>
      obtain rfl : block.closingChar = c := Lead.says_of_eq hallowed
      obtain rfl := Except.ok.inj hk
      rw [lexeme_closingChar] at hl
      obtain ⟨-, rfl⟩ := Prod.mk.inj hl
      have htext := Source.Spans.takeText_consume t.source _ hs (congrArg Prod.fst hp)
      rw [hp] at htext ⊢
      rw [htext]
      exact minds_closing t.blocks block
    | unterminatedComment => contradiction

/-! ## Runs -/

/-- The tokens among the answers. -/
def returned (answers : List (Except Failure Token)) : List Token :=
  answers.filterMap Except.toOption

theorem returned_append_ok (answers : List (Except Failure Token)) (token : Token) :
    returned (answers ++ [.ok token]) = returned answers ++ [token] := by
  simp [returned, Except.toOption]

theorem returned_append_error (answers : List (Except Failure Token)) (failure : Failure) :
    returned (answers ++ [.error failure]) = returned answers := by
  simp [returned, Except.toOption]

/-- The discipline of the open blocks, after so many calls. -/
structure Disciplined (t : Tokenizer σ) (n : Nat) : Prop where
  blocks : (t.after n).blocks = replay (returned (t.answers n))
  depth : (t.after n).depth = (replay (returned (t.answers n))).length
  /-- Before the first failure, the next answer minds the blocks. -/
  minds : (∀ failure, .error failure ∉ t.answers n) →
    Minds (replay (returned (t.answers n))) (Source.peek (t.after n).source).1
      (t.after n).nextToken.1
  /-- A list of tokens that comes to its end is balanced. -/
  balanced : ∀ token, (t.after n).nextToken.1 = .ok token → token.kind = .done →
    Balanced ((returned (t.answers n)).map Token.kind)

section Kept

variable [Source.Spans σ] {t : Tokenizer σ}

theorem next_of_ok {token : Token} (h : t.nextToken.1 = .ok token) :
    t.failure? = none ∧ t.nextToken.2.failure? = none ∧
      t.nextToken.2.blocks = t.blocks.after token.kind ∧
      Source.Spans.Fresh t.nextToken.2.source := by
  have hstep := t.nextToken_step
  generalize t.nextToken = r at hstep h ⊢
  cases hstep with
  | failed hf => contradiction
  | unclosedBlock hf hp hb => contradiction
  | unterminatedComment hf hp hl => contradiction
  | @done s hf hp hb =>
    obtain rfl := Except.ok.inj h
    exact ⟨hf, hf, rfl, Source.Spans.fresh_takeText s⟩
  | @token s s' c lexeme kind hf hp hl hk =>
    obtain rfl := Except.ok.inj h
    exact ⟨hf, hf, rfl, Source.Spans.fresh_takeText s'⟩

omit [Source.Spans σ] in
theorem next_of_error {failure : Failure} (h : t.nextToken.1 = .error failure) :
    t.nextToken.2.failure? = some failure ∧ t.nextToken.2.blocks = t.blocks := by
  have hstep := t.nextToken_step
  generalize t.nextToken = r at hstep h ⊢
  cases hstep with
  | failed hf =>
    obtain rfl := Except.error.inj h
    exact ⟨hf, rfl⟩
  | unclosedBlock hf hp hb =>
    obtain rfl := Except.error.inj h
    exact ⟨rfl, rfl⟩
  | unterminatedComment hf hp hl =>
    obtain rfl := Except.error.inj h
    exact ⟨rfl, rfl⟩
  | done hf hp hb => contradiction
  | token hf hp hl hk => contradiction

/-- What the answers so far have to do with the tokenizer that gave them. -/
structure Kept (answers : List (Except Failure Token)) (t : Tokenizer σ) : Prop where
  blocks : t.blocks = replay (returned answers)
  leaves : Leaves ((returned answers).map Token.kind) t.blocks
  fresh : t.failure? = none → Source.Spans.Fresh t.source
  going : (∀ failure, .error failure ∉ answers) → t.failure? = none

theorem kept_ofSource {s : σ} (h : Source.Spans.Fresh s) : Kept [] (ofSource s) :=
  ⟨rfl, .nothing .nil, fun _ => h, fun _ => rfl⟩

theorem Kept.next {answers : List (Except Failure Token)} (h : Kept answers t) :
    Kept (answers ++ [t.nextToken.1]) t.nextToken.2 := by
  cases ha : t.nextToken.1 with
  | error failure =>
    obtain ⟨hfailure, hblocks⟩ := next_of_error ha
    refine ⟨?_, ?_, ?_, ?_⟩
    · rw [returned_append_error, hblocks, h.blocks]
    · rw [returned_append_error, hblocks]
      exact h.leaves
    · intro hnone
      rw [hfailure] at hnone
      contradiction
    · intro hmem
      exact absurd (List.mem_append_right answers (List.mem_singleton_self _)) (hmem failure)
  | ok token =>
    obtain ⟨hf, hnext, hblocks, hfresh⟩ := next_of_ok ha
    have hminds := minds_nextToken hf (h.fresh hf)
    refine ⟨?_, ?_, fun _ => hfresh, fun _ => hnext⟩
    · rw [returned_append_ok, hblocks, replay_append, ← h.blocks, after_kind]
    · rw [returned_append_ok, hblocks, List.map_append, List.map_singleton]
      refine h.leaves.after fun b hb => ?_
      obtain ⟨-, hhead, hkind⟩ := hminds.closed token b ha hb
      exact ⟨hkind, hhead⟩

theorem kept_after {s : σ} (h : Source.Spans.Fresh s) (n : Nat) :
    Kept ((ofSource s).answers n) ((ofSource s).after n) := by
  induction n with
  | zero => exact kept_ofSource h
  | succ n ih => exact ih.next

theorem disciplined_ofSource {s : σ} (h : Source.Spans.Fresh s) (n : Nat) :
    Disciplined (ofSource s) n := by
  have hkept := kept_after h n
  refine ⟨hkept.blocks, congrArg List.length hkept.blocks, ?_, ?_⟩
  · intro hgoing
    have hnone := hkept.going hgoing
    rw [← hkept.blocks]
    exact minds_nextToken hnone (hkept.fresh hnone)
  · intro token htoken hdone
    obtain ⟨hnone, -⟩ := next_of_ok htoken
    have hminds := minds_nextToken hnone (hkept.fresh hnone)
    obtain ⟨-, hnil⟩ := hminds.done.mp ⟨token, htoken, hdone⟩
    have hleaves := hkept.leaves
    rw [hnil] at hleaves
    exact hleaves.balanced

end Kept

/-- The open blocks keep their discipline on every input, at every point of a run. -/
theorem blocks_disciplined :
    (∀ (ι : Type) [CharStream ι] (input : ι) (n : Nat),
      Disciplined (ofSource (BufferedSource.ofStream input)) n) ∧
    ∀ (text : String) (n : Nat), Disciplined (ofSource (IndexedSource.ofString text)) n :=
  ⟨fun _ _ _ n => disciplined_ofSource rfl n, fun _ n => disciplined_ofSource rfl n⟩

end Tokenizer
end Stylesheet
