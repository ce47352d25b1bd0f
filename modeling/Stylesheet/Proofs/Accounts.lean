import Mathlib.Control.Monad.Basic
import Stylesheet.Proofs.Ends
import Stylesheet.Proofs.Runs
import Stylesheet.Proofs.Session

/-!
# Accounts

A buffered source accounts for every code point that was pulled: it has been handed out, or is
consumed, or is still ahead. Going back moves code points but loses none, and no end of the stream
is remembered, wherever in a token it is met. Main statement: the texts of the tokens are the
beginning of the normalized record of the stream, and all of it whenever the tokens come to an end,
be it the last one or not.
-/
namespace Stylesheet

namespace BufferedSource

/-! ## The record -/

section Record

variable {ι : Type}

/-- The source without the record of its stream. -/
def unrecorded (s : BufferedSource (Recorded ι)) : BufferedSource ι :=
  { s with input := s.input.unrecorded }

variable [CharStream ι]

theorem peek_unrecorded (s : BufferedSource (Recorded ι)) :
    s.unrecorded.peek = (s.peek.1, s.peek.2.unrecorded) := by
  obtain ⟨input, passed, ahead, offset, location⟩ := s
  cases ahead with
  | cons c rest => rfl
  | nil => simp only [peek, unrecorded, input.next_unrecorded]

theorem consume_unrecorded (s : BufferedSource (Recorded ι)) :
    s.unrecorded.consume = (s.consume.1, s.consume.2.unrecorded) := by
  rw [consume, consume, peek_unrecorded]
  generalize s.peek.2 = s
  obtain ⟨input, passed, ahead, offset, location⟩ := s
  cases ahead <;> rfl

/-- A source behaves alike with and without a record of its stream. -/
def unrecord : Simulation (BufferedSource (Recorded ι)) (BufferedSource ι) where
  Rel s t := t = s.unrecorded
  Later _ _ := True
  later_refl _ := trivial
  later_trans _ _ _ _ _ := trivial
  peek s t := by
    rintro rfl
    change Agree _ _ _ _ s.peek s.unrecorded.peek
    rw [peek_unrecorded]
    exact ⟨rfl, rfl, trivial⟩
  consume s t := by
    rintro rfl
    change Agree _ _ _ _ s.consume s.unrecorded.consume
    rw [consume_unrecorded]
    exact ⟨rfl, rfl, trivial⟩
  reset s t s' t' := by
    rintro rfl rfl _
    exact ⟨rfl, trivial⟩
  location s t := by
    rintro rfl
    rfl
  takeText s t := by
    rintro rfl
    exact ⟨rfl, rfl⟩

end Record

/-! ## What a source holds -/

section Holding

variable {ι : Type} {given : List Char} {s s' : BufferedSource (Recorded ι)}

/-- What was handed out, the span and what is held ahead, one after another, are what the
normalizer has given. -/
def Accounted (given : List Char) (s : BufferedSource (Recorded ι)) : Prop :=
  s.input.Gave (given ++ s.passed.reverse ++ s.ahead)

theorem accounted_ofStream (input : ι) : Accounted [] (ofStream (Recorded.ofStream input)) :=
  LineEnding.Normalizer.gave_ofStream input

theorem Accounted.isPrefix (h : s.Accounted given) :
    given <+: LineEnding.normalizeEach s.stream.answers := by
  refine List.IsPrefix.trans ?_ (LineEnding.Normalizer.Gave.isPrefix h)
  rw [List.append_assoc]
  exact List.prefix_append _ _

/-- Going back or forward moves code points from one side to the other. -/
theorem rewind_append_eq (target : Nat) (passed ahead : List Char) (offset : Nat) :
    (rewind target passed ahead offset).1.reverse ++ (rewind target passed ahead offset).2.1 =
      passed.reverse ++ ahead := by
  induction passed generalizing ahead offset with
  | nil => rfl
  | cons c passed ih =>
    rw [rewind]
    split
    · rw [ih]
      simp
    · rfl

theorem wind_append_eq (target : Nat) (passed ahead : List Char) (offset : Nat) :
    (wind target passed ahead offset).1.reverse ++ (wind target passed ahead offset).2.1 =
      passed.reverse ++ ahead := by
  induction ahead generalizing passed offset with
  | nil => rfl
  | cons c ahead ih =>
    rw [wind]
    split
    · rw [ih]
      simp
    · rfl

theorem Accounted.reset (h : s.Accounted given) (mark : Mark) :
    (s.reset mark).Accounted given := by
  have hwhole : (s.reset mark).passed.reverse ++ (s.reset mark).ahead =
      s.passed.reverse ++ s.ahead :=
    (wind_append_eq _ _ _ _).trans (rewind_append_eq _ _ _ _)
  rw [Accounted, List.append_assoc, hwhole, ← List.append_assoc]
  exact h

theorem Accounted.takeText (h : s.Accounted given) :
    s.takeText.2.Accounted (given ++ s.takeText.1.toList) := by
  rw [Accounted] at h ⊢
  simpa [BufferedSource.takeText] using h

/-- The source has moved on by these code points, and its span with it. -/
structure Onward (consumed : List Char) (s s' : BufferedSource (Recorded ι)) : Prop where
  passed : s'.passed = consumed.reverse ++ s.passed
  offset : s'.offset = s.offset + utf8Length consumed
  location : s'.location = s.location.advanceAll consumed
  accounted : ∀ given, s.Accounted given → s'.Accounted given

theorem onward_refl (s : BufferedSource (Recorded ι)) : Onward [] s s :=
  ⟨rfl, rfl, rfl, fun _ h => h⟩

theorem Onward.trans {consumed more : List Char} {s'' : BufferedSource (Recorded ι)}
    (h : Onward consumed s s') (h' : Onward more s' s'') : Onward (consumed ++ more) s s'' := by
  refine ⟨?_, ?_, ?_, fun given hg => h'.accounted given (h.accounted given hg)⟩
  · rw [h'.passed, h.passed, List.reverse_append, List.append_assoc]
  · rw [h'.offset, h.offset, utf8Length_append, Nat.add_assoc]
  · rw [h'.location, h.location, Location.advanceAll_append]

/-- Back where it was, with everything ahead that it had moved on by. -/
theorem Onward.reset {consumed : List Char} (h : Onward consumed s s') :
    Onward [] s (s'.reset s.position) := by
  have hoffset : s'.offset = s.position.offset + utf8Length consumed.reverse := by
    rw [utf8Length_reverse]
    exact h.offset
  have hback := reset_back h.passed hoffset
  refine ⟨?_, ?_, ?_, fun given hg => (h.accounted given hg).reset _⟩
  all_goals rw [hback]; rfl

/-- The text that is taken is the span it was, followed by what it has moved on by. -/
theorem Onward.text_takeText {consumed : List Char} (h : Onward consumed s s') :
    s'.takeText.1 = s.takeText.1 ++ String.ofList consumed := by
  rw [takeText, takeText, h.passed, List.reverse_append, List.reverse_reverse, String.ofList_append]

end Holding

section Reading

variable {ι : Type} [CharStream ι] {given : List Char} {s : BufferedSource (Recorded ι)}

theorem Accounted.peek (h : s.Accounted given) : s.peek.2.Accounted given := by
  obtain ⟨input, passed, ahead, offset, location⟩ := s
  cases ahead with
  | cons c rest => exact h
  | nil =>
    have hnext := LineEnding.Normalizer.Gave.next h
    rwa [List.append_nil] at hnext

/-- A source that has looked at the end holds nothing back. -/
theorem Accounted.eq_of_peek_eq_none (h : s.Accounted given) (hp : s.peek.1 = none) :
    given ++ s.peek.2.passed.reverse = LineEnding.normalizeEach s.peek.2.stream.answers := by
  have hhead := s.head_ahead_peek
  rw [hp, List.head?_eq_none_iff] at hhead
  have hgave : s.peek.2.input.Gave (given ++ s.peek.2.passed.reverse ++ s.peek.2.ahead) := h.peek
  rw [hhead, List.append_nil] at hgave
  refine hgave.eq_of_pending_eq_none ?_
  obtain ⟨input, passed, ahead, offset, location⟩ := s
  cases ahead with
  | cons c rest => contradiction
  | nil => exact LineEnding.Normalizer.pending_of_next_eq_none hp

theorem onward_peek (s : BufferedSource (Recorded ι)) : Onward [] s s.peek.2 := by
  have hsame : s.peek.2.passed = s.passed ∧ s.peek.2.offset = s.offset ∧
      s.peek.2.location = s.location := by
    rw [peek]
    split <;> exact ⟨rfl, rfl, rfl⟩
  exact ⟨hsame.1, hsame.2.1, hsame.2.2, fun _ => Accounted.peek⟩

theorem onward_consume (s : BufferedSource (Recorded ι)) :
    ∃ consumed, Onward consumed s s.consume.2 := by
  have hpeek := onward_peek s
  rw [consume]
  generalize s.peek.2 = s' at hpeek
  obtain ⟨input, passed, ahead, offset, location⟩ := s'
  cases ahead with
  | nil => exact ⟨[], hpeek⟩
  | cons c ahead =>
    have honward : Onward [c] ⟨input, passed, c :: ahead, offset, location⟩
        ⟨input, c :: passed, ahead, offset + c.utf8Size, location.advance c⟩ := by
      refine ⟨rfl, by simp [utf8Length], rfl, fun given hg => ?_⟩
      rw [Accounted] at hg ⊢
      simpa using hg
    exact ⟨_, hpeek.trans honward⟩

/-- Scans only ever move a source onward. -/
def onward : Simulation (BufferedSource (Recorded ι)) (BufferedSource (Recorded ι)) where
  -- One source beside itself: all that is of use here is which states come later.
  Rel s t := s = t
  Later p q := ∃ consumed, Onward consumed p.1 q.1
  later_refl p := ⟨[], onward_refl p.1⟩
  later_trans p q r := by
    rintro ⟨consumed, h⟩ ⟨more, h'⟩
    exact ⟨_, h.trans h'⟩
  peek s t := by
    rintro rfl
    exact ⟨rfl, rfl, [], onward_peek s⟩
  consume s t := by
    rintro rfl
    exact ⟨rfl, rfl, onward_consume s⟩
  reset s t s' t' := by
    rintro rfl rfl ⟨consumed, h⟩
    exact ⟨rfl, [], h.reset⟩
  location s t := by
    rintro rfl
    rfl
  takeText s t := by
    rintro rfl
    exact ⟨rfl, rfl⟩

theorem exists_onward {α : Type} {scan : Scan (BufferedSource (Recorded ι)) α}
    (h : Uniform scan scan) (s : BufferedSource (Recorded ι)) :
    ∃ consumed, Onward consumed s (scan s).2 :=
  (onward.agrees h (rfl : s = s)).later

theorem onward_of_peek {c? : Option Char} {s' : BufferedSource (Recorded ι)}
    (h : Source.peek s = (c?, s')) : Onward [] s s' := by
  have hpeek := onward_peek s
  rwa [show s.peek = (c?, s') from h] at hpeek

theorem exists_onward_lexeme {c? : Option Char} {c : Char} {lexeme : Lexeme}
    {s' s'' : BufferedSource (Recorded ι)} (hp : Source.peek s = (c?, s'))
    (hl : Scan.lexeme c s' = (lexeme, s'')) : ∃ consumed, Onward consumed s s'' := by
  obtain ⟨consumed, honward⟩ := exists_onward (.lexeme c) s'
  rw [hl] at honward
  exact ⟨_, (onward_of_peek hp).trans honward⟩

end Reading
end BufferedSource

/-! ## Calls of a source -/

/-- The source after one call after another. -/
def called {σ : Type} [Source σ] : List Call → σ → σ
  | [], s => s
  | call :: rest, s => called rest (call.scan s).2

/-- The text that was taken, if one was. -/
def Answer.taken : Answer → List Char
  | text t => t.toList
  | _ => []

/-- Most calls are uniform scans, and take nothing. -/
theorem Call.uniform_scan {σ τ : Type} [Source σ] [Source τ] (call : Call) :
    (Uniform (call.scan (σ := σ)) (call.scan (σ := τ)) ∧ ∀ s : σ, (call.scan s).1.taken = []) ∨
      call = .position ∨ call = .takeText ∨ ∃ mark, call = .reset mark := by
  cases call with
  | peek => exact .inl ⟨.bind .peek fun _ => .pure _, fun _ => rfl⟩
  | consume => exact .inl ⟨.bind .consume fun _ => .pure _, fun _ => rfl⟩
  | isEof => exact .inl ⟨.bind (.bind .peek fun _ => .pure _) fun _ => .pure _, fun _ => rfl⟩
  | accept p => exact .inl ⟨.bind (.accept p) fun _ => .pure _, fun _ => rfl⟩
  | acceptChar x => exact .inl ⟨.bind (.acceptChar x) fun _ => .pure _, fun _ => rfl⟩
  | acceptWhile p => exact .inl ⟨.bind (.acceptWhile p) fun _ => .pure _, fun _ => rfl⟩
  | skipUntil stop => exact .inl ⟨.bind (.skipUntil stop) fun _ => .pure _, fun _ => rfl⟩
  | position => exact .inr (.inl rfl)
  | takeText => exact .inr (.inr (.inl rfl))
  | reset mark => exact .inr (.inr (.inr ⟨mark, rfl⟩))

namespace BufferedSource

variable {ι : Type} [CharStream ι] {given : List Char} {s : BufferedSource (Recorded ι)}

theorem scan_unrecorded (call : Call) (s : BufferedSource (Recorded ι)) :
    call.scan s.unrecorded = ((call.scan s).1, (call.scan s).2.unrecorded) := by
  obtain ⟨hu, -⟩ | rfl | rfl | ⟨mark, rfl⟩ :=
    Call.uniform_scan (σ := BufferedSource (Recorded ι)) (τ := BufferedSource ι) call
  · obtain ⟨hanswer, hrel, -⟩ := unrecord.agrees hu (rfl : s.unrecorded = s.unrecorded)
    exact Prod.ext hanswer.symm hrel
  all_goals rfl

theorem called_unrecorded (calls : List Call) (s : BufferedSource (Recorded ι)) :
    called calls s.unrecorded = (called calls s).unrecorded := by
  induction calls generalizing s with
  | nil => rfl
  | cons call rest ih => rw [called, called, scan_unrecorded, ih]

theorem session_unrecorded (calls : List Call) (s : BufferedSource (Recorded ι)) :
    session calls s.unrecorded = session calls s := by
  induction calls generalizing s with
  | nil => rfl
  | cons call rest ih => rw [session, session, scan_unrecorded, ih]

theorem Accounted.call (h : s.Accounted given) (call : Call) :
    (call.scan s).2.Accounted (given ++ (call.scan s).1.taken) := by
  obtain ⟨hu, htaken⟩ | rfl | rfl | ⟨mark, rfl⟩ :=
    Call.uniform_scan (σ := BufferedSource (Recorded ι)) (τ := BufferedSource (Recorded ι)) call
  · obtain ⟨consumed, honward⟩ := exists_onward hu s
    rw [htaken, List.append_nil]
    exact honward.accounted given h
  · rw [← List.append_nil given] at h
    exact h
  · exact h.takeText
  · have hreset := h.reset mark
    rw [← List.append_nil given] at hreset
    exact hreset

/-- Whatever was called, the texts that were taken are accounted for. -/
theorem Accounted.called (h : s.Accounted given) (calls : List Call) :
    (called calls s).Accounted (given ++ (session calls s).flatMap Answer.taken) := by
  induction calls generalizing given s with
  | nil => simpa [Stylesheet.called, session] using h
  | cons call rest ih =>
    have hrest := ih (h.call call)
    rwa [List.append_assoc] at hrest

end BufferedSource

/-! ## Tokens -/

namespace Tokenizer

open BufferedSource Nesting

variable {ι : Type} [CharStream ι]

section Run

variable {t : Tokenizer (BufferedSource (Recorded ι))} {given : List Char}

/-- A call that returns a token moves on and takes the span. At the end it does not move, and
nothing is held back. -/
theorem exists_onward_of_ok {token : Token} (h : t.nextToken.1 = .ok token) :
    ∃ consumed s, Onward consumed t.source s ∧ token.text = s.takeText.1 ∧
      t.nextToken.2.source = s.takeText.2 ∧
      (token.kind = .done → consumed = [] ∧ t.source.peek = (none, s)) := by
  have hstep := t.nextToken_step
  generalize t.nextToken = r at hstep h ⊢
  cases hstep with
  | failed | unclosedBlock | unterminatedComment => contradiction
  | @done s hf hp =>
    obtain rfl := Except.ok.inj h
    exact ⟨[], s, onward_of_peek hp, rfl, rfl, fun _ => ⟨rfl, hp⟩⟩
  | @token s s' c lexeme kind hf hp hl hk =>
    obtain rfl := Except.ok.inj h
    obtain ⟨consumed, honward⟩ := exists_onward_lexeme hp hl
    have hallowed := Scan.answers_lexeme c s
    rw [hl] at hallowed
    exact ⟨consumed, s', honward, rfl, rfl,
      fun hdone => absurd hdone (settle_proper hallowed hk).1⟩

/-- A call that fails moves on, at most. -/
theorem exists_onward_of_error {failure : Failure} (h : t.nextToken.1 = .error failure) :
    ∃ consumed, Onward consumed t.source t.nextToken.2.source := by
  have hstep := t.nextToken_step
  generalize t.nextToken = r at hstep h ⊢
  cases hstep with
  | done | token => contradiction
  | failed => exact ⟨[], onward_refl _⟩
  | unclosedBlock hf hp => exact ⟨[], onward_of_peek hp⟩
  | unterminatedComment hf hp hl => exact exists_onward_lexeme hp hl

/-- One token more is accounted for. -/
theorem accounted_after (h : t.source.Accounted given) (n : Nat) :
    (t.after n).source.Accounted (given ++ (Token.concat (returned (t.answers n))).toList) := by
  induction n with
  | zero => simpa [answers, returned, Token.concat, after] using h
  | succ n ih =>
    rw [answers, after]
    cases ha : (t.after n).nextToken.1 with
    | error failure =>
      -- What a failing call has moved on by stays in the span.
      obtain ⟨consumed, honward⟩ := exists_onward_of_error ha
      rw [returned_append_error]
      exact honward.accounted _ ih
    | ok token =>
      obtain ⟨consumed, s, honward, htext, hsource, -⟩ := exists_onward_of_ok ha
      rw [returned_append_ok, toList_concat_append, ← List.append_assoc, htext, hsource]
      exact (honward.accounted _ ih).takeText

/-- A token at the end takes what is left of the span, and that is all there was. -/
theorem normalizeEach_of_done (h : t.source.Accounted given) {token : Token}
    (ha : t.nextToken.1 = .ok token) (hk : token.kind = .done) :
    token.text = t.source.takeText.1 ∧
      given ++ token.text.toList =
        LineEnding.normalizeEach t.nextToken.2.source.stream.answers := by
  obtain ⟨consumed, s, honward, htext, hsource, hdone⟩ := exists_onward_of_ok ha
  obtain ⟨rfl, hpeek⟩ := hdone hk
  have hwhole := h.eq_of_peek_eq_none (congrArg Prod.fst hpeek)
  rw [hpeek] at hwhole
  refine ⟨?_, ?_⟩
  · rw [htext, honward.text_takeText, String.ofList_nil, String.append_empty]
  · rw [htext, hsource, takeText, String.toList_ofList]
    exact hwhole

end Run

/-! ## Accounts -/

/-- A tokenizer over a source that was called before. -/
def overCalled (input : ι) (calls : List Call) : Tokenizer (BufferedSource ι) :=
  ofSource (called calls (.ofStream input))

/-- The texts that were taken by the calls, and the texts of the tokens so far. -/
def handed (input : ι) (calls : List Call) (n : Nat) : List Char :=
  (session calls (BufferedSource.ofStream input)).flatMap Answer.taken ++
    (Token.concat (returned ((overCalled input calls).answers n))).toList

/-- What was pulled from the stream so far, its ends included. -/
def pulled (input : ι) (calls : List Call) (n : Nat) : List (Option Char) :=
  ((overCalled (Recorded.ofStream input) calls).after n).source.stream.answers

/-- How the tokens account for a stream, after any calls of the source and of the tokenizer. -/
structure Accounts (input : ι) (calls : List Call) : Prop where
  /-- The record changes no answer, and nothing more is pulled for it. -/
  unrecorded : ∀ n, (overCalled (Recorded.ofStream input) calls).answers n =
      (overCalled input calls).answers n ∧
    ((overCalled (Recorded.ofStream input) calls).after n).source.stream.stream =
      ((overCalled input calls).after n).source.stream
  isPrefix : ∀ n, handed input calls n <+: LineEnding.normalizeEach (pulled input calls n)
  /-- At an end, be it the last one or not, nothing is missing. -/
  done : ∀ n token, ((overCalled input calls).after n).nextToken.1 = .ok token →
    token.kind = .done →
    handed input calls (n + 1) = LineEnding.normalizeEach (pulled input calls (n + 1))
  /-- The first text is the span that was there, and what the call has moved on by. -/
  first : ∀ token, (overCalled input calls).nextToken.1 = .ok token →
    ∃ consumed, token.text =
        (overCalled input calls).source.takeText.1 ++ String.ofList consumed ∧
      (overCalled input calls).nextToken.2.source.position =
        ⟨(overCalled input calls).source.offset + utf8Length consumed,
          (overCalled input calls).location.advanceAll consumed⟩

section Recording

variable (input : ι) (calls : List Call) (n : Nat)

theorem alike_overCalled :
    unrecord.Alike (overCalled (Recorded.ofStream input) calls) (overCalled input calls) :=
  unrecord.alike_ofSource (called_unrecorded calls (.ofStream (Recorded.ofStream input)))

theorem alike_after_overCalled :
    unrecord.Alike ((overCalled (Recorded.ofStream input) calls).after n)
      ((overCalled input calls).after n) :=
  Simulation.alike_after _ (alike_overCalled input calls) n

theorem accounted_handed :
    ((overCalled (Recorded.ofStream input) calls).after n).source.Accounted
      (handed input calls n) := by
  have hcalled := (accounted_ofStream input).called calls
  rw [List.nil_append, ← session_unrecorded] at hcalled
  have hafter := accounted_after (t := overCalled (Recorded.ofStream input) calls) hcalled n
  rwa [Simulation.answers_eq _ (alike_overCalled input calls)] at hafter

end Recording

theorem accounts (input : ι) (calls : List Call) : Accounts input calls where
  unrecorded n := by
    have halike := alike_after_overCalled input calls n
    refine ⟨Simulation.answers_eq _ (alike_overCalled input calls) n, ?_⟩
    rw [show _ = BufferedSource.unrecorded _ from halike.source]
    rfl
  isPrefix n := (accounted_handed input calls n).isPrefix
  done n token ha hk := by
    have halike := alike_after_overCalled input calls n
    have hanswer := (Simulation.alike_nextToken _ halike).1.trans ha
    have hwhole := (normalizeEach_of_done (accounted_handed input calls n) hanswer hk).2
    rw [handed, answers, ha, returned_append_ok, toList_concat_append, ← List.append_assoc]
    exact hwhole
  first token ha := by
    obtain ⟨hanswer, hnext⟩ := Simulation.alike_nextToken _ (alike_overCalled input calls)
    obtain ⟨consumed, s, honward, htext, hsource, -⟩ := exists_onward_of_ok (hanswer.trans ha)
    have hbefore : (overCalled input calls).source = _ := (alike_overCalled input calls).source
    have hafter : (overCalled input calls).nextToken.2.source = _ := hnext.source
    refine ⟨consumed, ?_, ?_⟩
    · rw [hbefore]
      exact htext.trans honward.text_takeText
    · rw [location, hafter, hsource, hbefore]
      exact congrArg₂ Mark.mk honward.offset honward.location

/-- Nothing is lost and nothing comes twice where a stream ends and goes on. If the source is
fresh, the tokens at the ends have no text. -/
theorem transient_ends_accounted {ι : Type} [CharStream ι] (input : ι) :
    (∀ calls : List Call, Accounts input calls) ∧
      ∀ n token, ((ofSource (BufferedSource.ofStream input)).after n).nextToken.1 = .ok token →
        token.kind = .done → token.text = "" := by
  refine ⟨accounts input, fun n token ha hk => ?_⟩
  have halike := alike_after_overCalled input [] n
  have hanswer := (Simulation.alike_nextToken _ halike).1.trans ha
  have hkept : Kept _ ((overCalled (Recorded.ofStream input) []).after n) := kept_after rfl n
  have hfresh : ((overCalled (Recorded.ofStream input) []).after n).source.passed = [] :=
    hkept.fresh (next_of_ok hanswer).1
  rw [(normalizeEach_of_done (accounted_handed input [] n) hanswer hk).1, takeText, hfresh]
  rfl

/-- A CR and an LF with an end between them are two line endings. -/
example :
    (ofSource (BufferedSource.ofStream
        [some ';', none, some '\r', none, some '\n'])).answers 4 =
      [.ok ⟨.semicolon, ";"⟩, .ok ⟨.done, ""⟩, .ok ⟨.whitespace, "\n\n"⟩, .ok ⟨.done, ""⟩] := by
  decide +kernel

end Tokenizer
end Stylesheet
