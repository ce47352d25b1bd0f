import Stylesheet.Proofs.Runs

/-!
# Starts of tokens

A tokenizer over a stream, between two tokens, has some normalized text left to read. What can be
read at the front of that text by the grammar is the next token, and behind it is where the
tokenizer stands next. Main statements: a fresh tokenizer stands in front of the normalized text of
its stream, every token leaves it in front of what is left, and one reading decides one call.
-/
namespace Stylesheet.Tokenizer

open Grammar

variable {ι : Type} [CharStream ι]

/-- The tokenizer stands between two tokens, and this text is left. -/
structure Faces (t : Tokenizer (BufferedSource ι)) (text : List Char) : Prop where
  failure : t.failure? = none
  passed : t.source.passed = []
  ahead : t.source.ahead ++ t.source.input.rest = text
  /-- It stands where some text before has brought it. -/
  placed : ∃ before, t.source.offset = utf8Length before ∧
    t.source.location = Location.start.advanceAll before

/-- The next call hands out the token, and leaves these blocks open and this text to read. -/
structure Hands (t : Tokenizer (BufferedSource ι)) (token : Token) (blocks : Nesting)
    (rest : List Char) : Prop where
  answer : t.nextToken.1 = .ok token
  blocks : t.nextToken.2.blocks = blocks
  faces : t.nextToken.2.Faces rest

/-- The next call fails where the tokenizer stands. All of the input has been read then, and the
blocks are open that were. -/
structure Fails (t : Tokenizer (BufferedSource ι)) (cause : Cause) : Prop where
  answer : t.nextToken.1 = .error ⟨cause, t.location⟩
  blocks : t.nextToken.2.blocks = t.blocks
  atEnd : (Scan.atEnd t.nextToken.2.source).1 = true

theorem faces_ofStream (input : ι) :
    (ofSource (.ofStream input)).Faces (LineEnding.normalize (CharStream.drain input)) := by
  refine ⟨rfl, rfl, ?_, [], rfl, rfl⟩
  exact (BufferedSource.shows_ofStream input).ahead

theorem faces_ofString (text : String) :
    (ofString text).Faces (LineEnding.normalize text.toList) := by
  have hfaces := faces_ofStream text.toList
  rwa [CharStream.drain_list] at hfaces

variable [CharStream.Fused ι] {t : Tokenizer (BufferedSource ι)} {text taken rest : List Char}

/-- A cursor over all of the text stands in front of the same. -/
theorem Faces.exists_alike (h : t.Faces text) : ∃ u : Tokenizer Cursor,
    (BufferedSource.asCursor ι).Alike t u ∧ u.Ready ∧ u.source.ahead = text := by
  obtain ⟨before, hoffset, hlocation⟩ := h.placed
  have hle : before.length ≤ (before ++ text).length := by simp
  let c : Cursor := ⟨before ++ text, before.length, before.length, hle⟩
  have hbefore : c.before = before := List.take_left
  have hahead : c.ahead = text := List.drop_left
  have hspan : c.span = [] := by
    rw [Cursor.span, hbefore]
    exact List.drop_length
  have hshows : t.source.Shows c := by
    refine ⟨?_, ?_, ?_, ?_, Nat.le_refl _⟩
    · rw [h.passed, hspan]
      rfl
    · rw [hahead, h.ahead]
    · rw [hbefore, hoffset]
    · rw [hbefore, hlocation]
  exact ⟨{ t with source := c }, ⟨hshows, rfl, rfl, rfl⟩, ⟨h.failure, rfl⟩, hahead⟩

theorem faces_of_alike {u : Tokenizer Cursor} (h : (BufferedSource.asCursor ι).Alike t u)
    (hu : u.Ready) : t.Faces u.source.ahead := by
  have hshows : t.source.Shows u.source := h.source
  refine ⟨h.failure.trans hu.failure, ?_, hshows.ahead, _, hshows.offset, hshows.location⟩
  have hspan := hshows.span
  rwa [hu.span_eq_nil, List.reverse_eq_nil_iff] at hspan

/-- What can be read at the front, if it settles, is handed out. -/
theorem Faces.hands {lexeme : Lexeme} {kind : Kind} (h : t.Faces (taken ++ rest))
    (hr : Reading lexeme taken rest) (hk : t.blocks.settle lexeme = .ok kind) :
    t.Hands ⟨kind, String.ofList taken⟩ (t.blocks.after kind) rest := by
  obtain ⟨u, halike, hready, hahead⟩ := h.exists_alike
  have hblocks := halike.blocks
  obtain ⟨hanswer, hnext⟩ := Simulation.alike_nextToken _ halike
  have hu := nextToken_eq hready hahead hr (hblocks ▸ hk)
  rw [hu] at hanswer hnext
  refine ⟨hanswer, ?_, ?_⟩
  · rw [hnext.blocks, hblocks]
    rfl
  · have hfaces := faces_of_alike hnext (hready.past kind taken.length)
    rwa [ahead_past, hahead, List.drop_left] at hfaces

/-- And the tokenizer moves on by what was read, and by nothing else. -/
theorem Faces.position_nextToken {lexeme : Lexeme} {kind : Kind} (h : t.Faces (taken ++ rest))
    (hr : Reading lexeme taken rest) (hk : t.blocks.settle lexeme = .ok kind) :
    Source.position t.nextToken.2.source =
      ⟨t.source.offset + utf8Length taken, t.location.advanceAll taken⟩ := by
  obtain ⟨u, halike, hready, hahead⟩ := h.exists_alike
  have hshows : t.source.Shows u.source := halike.source
  obtain ⟨-, hnext⟩ := Simulation.alike_nextToken _ halike
  have hnext : t.nextToken.2.source.Shows u.nextToken.2.source := hnext.source
  rw [nextToken_eq hready hahead hr (halike.blocks ▸ hk)] at hnext
  have hbefore : (u.past kind taken.length).source.before = u.source.before ++ taken := by
    rw [before_past, hahead, List.take_left]
  have hlocation : t.location = Location.start.advanceAll u.source.before := hshows.location
  change (⟨_, _⟩ : Mark) = _
  rw [hnext.offset, hnext.location, hbefore, hshows.offset, hlocation, utf8Length_append,
    Location.advanceAll_append]

/-- What is handed out before the end was read at the front. -/
theorem Faces.exists_reading {token : Token} (h : t.Faces text)
    (ha : t.nextToken.1 = .ok token) (hk : token.kind ≠ .done) :
    ∃ lexeme rest, text = token.text.toList ++ rest ∧ Reading lexeme token.text.toList rest ∧
      t.blocks.settle lexeme = .ok token.kind := by
  obtain ⟨u, halike, hready, hahead⟩ := h.exists_alike
  have hanswer := (Simulation.alike_nextToken _ halike).1
  have hreads := reads_nextToken hready
  rw [ha] at hanswer
  generalize u.nextToken = r at hreads hanswer
  cases hreads with
  | unclosedBlock | failed => contradiction
  | done =>
    obtain rfl := Except.ok.inj hanswer
    exact absurd rfl hk
  | @token lexeme kind taken rest ha' hr hsettle =>
    obtain rfl := Except.ok.inj hanswer
    refine ⟨lexeme, rest, ?_, ?_, ?_⟩
    · rw [String.toList_ofList, ← ha', hahead]
    · rwa [String.toList_ofList]
    · rw [halike.blocks, hsettle]

/-- But for delimiters and closing brackets, the kind of a token is the one it was read with. -/
theorem eq_token_of_settle {blocks : Nesting} {lexeme : Lexeme} {kind : Kind}
    (h : blocks.settle lexeme = .ok kind) (hd : kind ≠ .delim) (hc : kind.closes? = none) :
    lexeme = .token kind := by
  cases lexeme with
  | token kind' =>
    obtain rfl : kind' = kind := Except.ok.inj h
    rfl
  | closing block =>
    obtain rfl := Except.ok.inj h
    by_cases hhead : blocks.head? = some block
    · rw [if_pos hhead, Kind.closes?_closing] at hc
      contradiction
    · exact absurd (if_neg hhead) hd
  | unterminatedComment => contradiction

theorem Faces.exists_reading_token {token : Token} (h : t.Faces text)
    (ha : t.nextToken.1 = .ok token)
    (hk : token.kind ≠ .done ∧ token.kind ≠ .delim ∧ token.kind.closes? = none) :
    ∃ rest, text = token.text.toList ++ rest ∧
      Reading (.token token.kind) token.text.toList rest := by
  obtain ⟨lexeme, rest, htext, hr, hsettle⟩ := h.exists_reading ha hk.1
  obtain rfl := eq_token_of_settle hsettle hk.2.1 hk.2.2
  exact ⟨rest, htext, hr⟩

/-- Every token of a run leaves the tokenizer in front of what is left of the text. -/
theorem faces_after (input : ι) (n : Nat)
    (hgoing : ∀ answer ∈ (ofSource (BufferedSource.ofStream input)).answers n,
      ∃ token, answer = .ok token ∧ token.kind ≠ .done) :
    ∃ rest, ((ofSource (BufferedSource.ofStream input)).after n).Faces rest ∧
      (Token.concat (returned ((ofSource (BufferedSource.ofStream input)).answers n))).toList ++
        rest = LineEnding.normalize (CharStream.drain input) := by
  induction n with
  | zero => exact ⟨_, faces_ofStream input, rfl⟩
  | succ n ih =>
    rw [answers, List.forall_mem_append, List.forall_mem_singleton] at hgoing
    obtain ⟨hbefore, token, htoken, hk⟩ := hgoing
    obtain ⟨text, hfaces, htext⟩ := ih hbefore
    obtain ⟨lexeme, rest, rfl, hr, hsettle⟩ := hfaces.exists_reading htoken hk
    refine ⟨rest, (hfaces.hands hr hsettle).faces, ?_⟩
    rw [answers, htoken, returned_append_ok, toList_concat_append, List.append_assoc, htext]

end Stylesheet.Tokenizer
