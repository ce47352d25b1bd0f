import Stylesheet.Proofs.Lossless
import Stylesheet.Proofs.Nesting
import Stylesheet.Proofs.Totality

/-!
# Runs

A call reads one lexeme of the grammar and settles its kind among the open blocks, so what a text
yields can be said without a tokenizer. Main statements: the outcomes of a run are what its text
yields among the blocks that are open, and that is one list of answers only.
-/
namespace Stylesheet

/-- An answer, wherever it was given. -/
def unplaced (answer : Except Failure Token) : Except Cause Token :=
  answer.mapError Failure.cause

namespace Grammar

/-- What is answered up to the end of a text, among these open blocks. -/
inductive Yields : Nesting → List Char → List (Except Cause Token) → Prop
  | done : Yields [] [] [.ok ⟨.done, ""⟩]
  | unclosedBlock (block : Block) (blocks : Nesting) :
      Yields (block :: blocks) [] [.error (.unclosedBlock block)]
  | failed {blocks : Nesting} {lexeme : Lexeme} {cause : Cause} {taken rest : List Char}
      (hr : Reading lexeme taken rest) (hk : blocks.settle lexeme = .error cause) :
      Yields blocks (taken ++ rest) [.error cause]
  | token {blocks : Nesting} {lexeme : Lexeme} {kind : Kind} {taken rest : List Char}
      {answers : List (Except Cause Token)} (hr : Reading lexeme taken rest)
      (hk : blocks.settle lexeme = .ok kind) (h : Yields (blocks.after kind) rest answers) :
      Yields blocks (taken ++ rest) (.ok ⟨kind, String.ofList taken⟩ :: answers)

variable {blocks : Nesting} {text : List Char} {answers : List (Except Cause Token)}

/-- At the end of a text nothing is read. -/
theorem Yields.nil_eq {ending : Except Cause Token} (h : Yields blocks [] answers)
    (hd : blocks = [] → ending = .ok ⟨.done, ""⟩)
    (hu : ∀ block, blocks.head? = some block → ending = .error (.unclosedBlock block)) :
    answers = [ending] := by
  generalize hnil : [] = text at h
  cases h with
  | done => rw [hd rfl]
  | unclosedBlock block => rw [hu block rfl]
  | failed hr | token hr =>
    obtain ⟨rfl, -⟩ := List.append_eq_nil_iff.mp hnil.symm
    exact absurd rfl hr.ne_nil

/-- What can be read at the front of a text decides what is answered first. -/
theorem Yields.read {lexeme : Lexeme} {taken rest : List Char}
    (h : Yields blocks (taken ++ rest) answers) (hr : Reading lexeme taken rest) :
    (∃ cause, blocks.settle lexeme = .error cause ∧ answers = [.error cause]) ∨
      ∃ kind more, blocks.settle lexeme = .ok kind ∧ Yields (blocks.after kind) rest more ∧
        answers = .ok ⟨kind, String.ofList taken⟩ :: more := by
  generalize htext : taken ++ rest = text at h
  cases h with
  | done | unclosedBlock =>
    obtain ⟨rfl, -⟩ := List.append_eq_nil_iff.mp htext
    exact absurd rfl hr.ne_nil
  | failed hr' hk =>
    obtain ⟨rfl, rfl, rfl⟩ := hr.unique hr' htext
    exact .inl ⟨_, hk, rfl⟩
  | token hr' hk h =>
    obtain ⟨rfl, rfl, rfl⟩ := hr.unique hr' htext
    exact .inr ⟨_, _, hk, h, rfl⟩

/-- A text yields one list of answers only. -/
theorem Yields.unique {answers' : List (Except Cause Token)} (h : Yields blocks text answers)
    (h' : Yields blocks text answers') : answers = answers' := by
  induction h generalizing answers' with
  | done => exact (h'.nil_eq (fun _ => rfl) nofun).symm
  | unclosedBlock block =>
    exact (h'.nil_eq nofun fun b hb => by rw [Option.some.inj hb]).symm
  | failed hr hk =>
    obtain ⟨cause, hk', rfl⟩ | ⟨kind, more, hk', -⟩ := h'.read hr
    · rw [Except.error.inj (hk.symm.trans hk')]
    · rw [hk] at hk'
      contradiction
  | token hr hk _ ih =>
    obtain ⟨cause, hk', -⟩ | ⟨kind, more, hk', hmore, rfl⟩ := h'.read hr
    · rw [hk] at hk'
      contradiction
    · obtain rfl := Except.ok.inj (hk.symm.trans hk')
      rw [ih hmore]

end Grammar

namespace Tokenizer

open Grammar

/-- The tokenizer behind a token of that kind and so many code points. -/
def past (t : Tokenizer Cursor) (kind : Kind) (n : Nat) : Tokenizer Cursor :=
  { t with source := (Source.takeText (t.source.skip n)).2, blocks := t.blocks.after kind }

/-- One call, said by the grammar. -/
inductive Reads (t : Tokenizer Cursor) : Except Failure Token × Tokenizer Cursor → Prop
  | done (ha : t.source.ahead = []) (hb : t.blocks = []) : Reads t (.ok ⟨.done, ""⟩, t)
  | unclosedBlock {block : Block} {next : Tokenizer Cursor} (ha : t.source.ahead = [])
      (hb : t.blocks.head? = some block) :
      Reads t (.error ⟨.unclosedBlock block, t.location⟩, next)
  | failed {lexeme : Lexeme} {cause : Cause} {taken rest : List Char}
      {next : Tokenizer Cursor} (ha : t.source.ahead = taken ++ rest)
      (hr : Reading lexeme taken rest) (hk : t.blocks.settle lexeme = .error cause) :
      Reads t (.error ⟨cause, t.location⟩, next)
  | token {lexeme : Lexeme} {kind : Kind} {taken rest : List Char}
      (ha : t.source.ahead = taken ++ rest) (hr : Reading lexeme taken rest)
      (hk : t.blocks.settle lexeme = .ok kind) :
      Reads t (.ok ⟨kind, String.ofList taken⟩, t.past kind taken.length)

variable {t : Tokenizer Cursor}

theorem Ready.past (h : t.Ready) (kind : Kind) (n : Nat) : (t.past kind n).Ready :=
  ⟨h.failure, rfl⟩

@[simp] theorem ahead_past (t : Tokenizer Cursor) (kind : Kind) (n : Nat) :
    (t.past kind n).source.ahead = t.source.ahead.drop n :=
  t.source.ahead_skip n

@[simp] theorem before_past (t : Tokenizer Cursor) (kind : Kind) (n : Nat) :
    (t.past kind n).source.before = t.source.before ++ t.source.ahead.take n :=
  t.source.before_skip n

theorem location_eq (t : Tokenizer Cursor) :
    t.location = Location.start.advanceAll t.source.before := rfl

/-- What comes next is read as the grammar says. -/
theorem exists_reading {s : Cursor} {x : Char} (hp : Source.peek t.source = (some x, s)) :
    ∃ lexeme taken rest, t.source.ahead = taken ++ rest ∧ Reading lexeme taken rest ∧
      Scan.lexeme x s = (lexeme, t.source.skip taken.length) := by
  obtain ⟨hpeek, rfl⟩ := Prod.mk.inj hp
  have hhead : t.source.ahead.head? = some x := by
    rw [← Cursor.peek_eq_head?]
    exact hpeek
  obtain ⟨behind, hahead⟩ := List.head?_eq_some_iff.mp hhead
  obtain ⟨lexeme, taken, rest, hsplit, hr⟩ := splits_lexeme x behind
  have hall := hahead.trans hsplit
  exact ⟨lexeme, taken, rest, hall, hr, takes_reading hr hsplit t.source hall⟩

theorem reads_nextToken (h : t.Ready) : t.Reads t.nextToken := by
  have hstep := t.nextToken_step
  generalize t.nextToken = r at hstep ⊢
  cases hstep with
  | failed hf => rw [h.failure] at hf; contradiction
  | @done s hf hp hb =>
    obtain ⟨hpeek, rfl⟩ := Prod.mk.inj hp
    have htext : (Source.takeText t.source).1 = "" := congrArg String.ofList h.span_eq_nil
    have hsource : (Source.takeText t.source).2 = t.source :=
      Cursor.ext rfl rfl h.spanStart.symm
    rw [htext, hsource]
    exact .done (t.source.ahead_eq_nil_iff.mpr hpeek) hb
  | unclosedBlock hf hp hb =>
    obtain ⟨hpeek, rfl⟩ := Prod.mk.inj hp
    exact .unclosedBlock (t.source.ahead_eq_nil_iff.mpr hpeek) hb
  | unterminatedComment hf hp hl =>
    obtain ⟨lexeme, taken, rest, ha, hr, hlexeme⟩ := exists_reading hp
    obtain ⟨rfl, -⟩ := Prod.mk.inj (hlexeme.symm.trans hl)
    exact .failed ha hr rfl
  | @token s s' x lexeme kind hf hp hl hk =>
    obtain ⟨lexeme', taken, rest, ha, hr, hlexeme⟩ := exists_reading hp
    obtain ⟨rfl, rfl⟩ := Prod.mk.inj (hlexeme.symm.trans hl)
    have hspan : (t.source.skip taken.length).span = taken := by
      rw [h.span_skip, ha, List.take_left]
    have htext : (Source.takeText (t.source.skip taken.length)).1 = String.ofList taken :=
      congrArg String.ofList hspan
    rw [htext]
    exact .token ha hr hk

theorem kind_ne_done {blocks : Nesting} {lexeme : Lexeme} {kind : Kind} {taken rest : List Char}
    (hr : Reading lexeme taken rest) (hk : blocks.settle lexeme = .ok kind) : kind ≠ .done := by
  cases taken with
  | nil => exact absurd rfl hr.ne_nil
  | cons x taken =>
    have hallowed := Scan.answers_lexeme x (Cursor.ofText (x :: taken ++ rest))
    rw [takes_reading hr rfl _ rfl] at hallowed
    exact (settle_proper hallowed hk).1

/-- What can be read next, if it settles, is the next token. -/
theorem nextToken_eq (h : t.Ready) {lexeme : Lexeme} {kind : Kind} {taken rest : List Char}
    (ha : t.source.ahead = taken ++ rest) (hr : Reading lexeme taken rest)
    (hk : t.blocks.settle lexeme = .ok kind) :
    t.nextToken = (.ok ⟨kind, String.ofList taken⟩, t.past kind taken.length) := by
  have hreads := reads_nextToken h
  generalize t.nextToken = r at hreads ⊢
  cases hreads with
  | done hnil | unclosedBlock hnil =>
    obtain ⟨rfl, -⟩ := List.append_eq_nil_iff.mp (ha.symm.trans hnil)
    exact absurd rfl hr.ne_nil
  | failed ha' hr' hk' =>
    obtain ⟨rfl, rfl, rfl⟩ := hr.unique hr' (ha.symm.trans ha')
    rw [hk] at hk'
    contradiction
  | token ha' hr' hk' =>
    obtain ⟨rfl, rfl, rfl⟩ := hr.unique hr' (ha.symm.trans ha')
    rw [Except.ok.inj (hk.symm.trans hk')]

/-- What is answered at the end of the input, where this block is the innermost open one. -/
def ending (location : Location) : Option Block → Except Failure Token
  | none => .ok ⟨.done, ""⟩
  | some block => .error ⟨.unclosedBlock block, location⟩

theorem nextToken_of_nil (h : t.Ready) (ha : t.source.ahead = []) :
    t.nextToken.1 = ending t.location t.blocks.head? := by
  have hreads := reads_nextToken h
  generalize t.nextToken = r at hreads ⊢
  cases hreads with
  | done _ hb => rw [hb]; rfl
  | unclosedBlock _ hb => rw [hb]; rfl
  | failed ha' hr | token ha' hr =>
    obtain ⟨rfl, -⟩ := List.append_eq_nil_iff.mp (ha'.symm.trans ha)
    exact absurd rfl hr.ne_nil

/-- The outcomes of a run are what its text yields. -/
theorem yields_outcomes (h : t.Ready) {n : Nat} (hn : t.source.ahead.length < n) :
    Yields t.blocks t.source.ahead ((t.outcomes n).map unplaced) := by
  induction n generalizing t with
  | zero => contradiction
  | succ n ih =>
    have hreads := reads_nextToken h
    rw [outcomes]
    generalize t.nextToken = r at hreads ⊢
    cases hreads with
    | done ha hb =>
      rw [ha, hb]
      exact .done
    | unclosedBlock ha hb =>
      obtain ⟨blocks, hblocks⟩ := List.head?_eq_some_iff.mp hb
      rw [ha, hblocks]
      exact .unclosedBlock _ blocks
    | failed ha hr hk =>
      rw [ha]
      exact .failed hr hk
    | @token lexeme kind taken rest ha hr hk =>
      have hne := kind_ne_done hr hk
      have hpos := List.length_pos_iff.mpr hr.ne_nil
      have hahead : (t.past kind taken.length).source.ahead = rest := by
        rw [ahead_past, ha, List.drop_left]
      have hlt : rest.length < n := by
        rw [ha, List.length_append] at hn
        omega
      have hrest := ih (h.past kind taken.length) (hahead ▸ hlt)
      rw [hahead] at hrest
      simp only [hne, if_false, ha]
      exact .token hr hk hrest

/-! ## What was read so far -/

theorem toList_concat_append (tokens : List Token) (token : Token) :
    (Token.concat (tokens ++ [token])).toList =
      (Token.concat tokens).toList ++ token.text.toList := by
  simp [Token.concat, String.toList_join]

/-- The tokenizer stands behind the tokens among the answers, and has not failed. -/
structure Stands (text : List Char) (answers : List (Except Failure Token))
    (t : Tokenizer Cursor) : Prop where
  ready : t.Ready
  text : t.source.text = text
  before : t.source.before = (Token.concat (returned answers)).toList

theorem failure_of_next {σ : Type} [Source σ] {t : Tokenizer σ}
    (h : t.nextToken.2.failure? = none) : t.failure? = none := by
  have hstep := t.nextToken_step
  generalize t.nextToken = r at hstep h
  cases hstep with
  | failed hf => exact h
  | done hf | unclosedBlock hf | token hf | unterminatedComment hf => exact hf

theorem failure_of_ok {σ : Type} [Source σ] {t : Tokenizer σ} {token : Token}
    (h : t.nextToken.1 = .ok token) : t.nextToken.2.failure? = none := by
  have hstep := t.nextToken_step
  generalize t.nextToken = r at hstep h
  cases hstep with
  | failed | unclosedBlock | unterminatedComment => contradiction
  | done hf | token hf => exact hf

theorem Stands.next {text : List Char} {answers : List (Except Failure Token)}
    (h : Stands text answers t) (hf : t.nextToken.2.failure? = none) :
    Stands text (answers ++ [t.nextToken.1]) t.nextToken.2 := by
  have hreads := reads_nextToken h.ready
  cases ha : t.nextToken.1 with
  | error failure =>
    rw [(next_of_error ha).1] at hf
    contradiction
  | ok token =>
    generalize t.nextToken = r at hreads ha hf ⊢
    cases hreads with
    | unclosedBlock | failed => contradiction
    | done =>
      obtain rfl := Except.ok.inj ha
      refine ⟨h.ready, h.text, ?_⟩
      rw [returned_append_ok, toList_concat_append, h.before]
      exact (List.append_nil _).symm
    | @token lexeme kind taken rest hahead =>
      obtain rfl := Except.ok.inj ha
      refine ⟨h.ready.past kind taken.length, h.text, ?_⟩
      rw [returned_append_ok, toList_concat_append, before_past, h.before, hahead,
        List.take_left, String.toList_ofList]

/-- Without a failure, the tokens so far are what was read so far. -/
theorem stands_after (text : List Char) (n : Nat)
    (hf : ((ofSource (Cursor.ofText text)).after n).failure? = none) :
    Stands text ((ofSource (Cursor.ofText text)).answers n)
      ((ofSource (Cursor.ofText text)).after n) := by
  induction n with
  | zero => exact ⟨ready_ofSource_ofText text, rfl, rfl⟩
  | succ n ih => exact (ih (failure_of_next hf)).next hf

/-- A tokenizer over the normalized text, with all of it at hand. -/
def ofNormalized (text : String) : Tokenizer Cursor :=
  ofSource (Cursor.ofText (LineEnding.normalize text.toList))

theorem alike_ofNormalized (text : String) :
    (BufferedSource.asCursor (List Char)).Alike (ofString text) (ofNormalized text) := by
  have hview := BufferedSource.shows_ofStream text.toList
  rw [CharStream.drain_list] at hview
  exact (BufferedSource.asCursor (List Char)).alike_ofSource hview

/-- A token that was returned last: what was read as it, and what comes next. -/
structure Returned (text : List Char) (answers : List (Except Failure Token)) (token : Token)
    (rest : List Char) : Prop where
  whole : (Token.concat (returned answers)).toList ++ rest = text
  reading : token.kind ≠ .done → ∃ (lexeme : Lexeme) (blocks : Nesting),
    Reading lexeme token.text.toList rest ∧ blocks.settle lexeme = .ok token.kind

theorem Stands.returned {text : List Char} {answers : List (Except Failure Token)} {token : Token}
    (h : Stands text answers t) (ha : t.nextToken.1 = .ok token) :
    Returned text (answers ++ [.ok token]) token t.nextToken.2.source.ahead := by
  have hnext := h.next (failure_of_ok ha)
  have hsplit := Cursor.before_append_ahead t.nextToken.2.source
  rw [hnext.before, hnext.text, ha] at hsplit
  refine ⟨hsplit, fun hk => ?_⟩
  have hreads := reads_nextToken h.ready
  generalize t.nextToken = r at hreads ha ⊢
  cases hreads with
  | unclosedBlock | failed => contradiction
  | done =>
    obtain rfl := Except.ok.inj ha
    exact absurd rfl hk
  | @token lexeme kind taken rest hahead hr hsettle =>
    obtain rfl := Except.ok.inj ha
    refine ⟨lexeme, _, ?_, hsettle⟩
    rwa [String.toList_ofList, ahead_past, hahead, List.drop_left]

/-- Every token that a run returns, the last one included, was read by the grammar. -/
theorem exists_returned {text : String} {n : Nat} {token : Token}
    (h : ((ofString text).after n).nextToken.1 = .ok token) :
    ∃ rest, Returned (LineEnding.normalize text.toList) ((ofString text).answers (n + 1)) token
      rest := by
  have halike := alike_ofNormalized text
  have hanswer := (Simulation.alike_nextToken _ (Simulation.alike_after _ halike n)).1
  rw [h] at hanswer
  have hf := failure_of_next (failure_of_ok hanswer.symm)
  have hstands : Stands _ ((ofNormalized text).answers n) ((ofNormalized text).after n) :=
    stands_after _ n hf
  rw [Simulation.answers_eq _ halike, answers, ← hanswer]
  exact ⟨_, hstands.returned hanswer.symm⟩

end Tokenizer
end Stylesheet
