import Stylesheet.Proofs.Drivers
import Stylesheet.Proofs.Reached
import Stylesheet.Proofs.Spending

/-!
# Progress

Over a text that ends, every call for a token comes to an end, and if there is anything ahead, the
call gets on with it. What a source has ahead is known from the cursor that it shows, so all of this
is said once, of cursors. Main statement: a call between two tokens goes over at least one code
point unless there is none, with a number of operations that is linear in what is ahead, so the
calls up to the end are at most as many as the code points and one.
-/
namespace Stylesheet

/-! ## Rounds -/

namespace Scan

variable {σ α β : Type} [Source σ]

/-- If the round asks for another one, it has gone over a code point. -/
def GetsOn (upcoming : σ → List Char) (s : σ) (round : Scan σ (Round β α)) : Prop :=
  (round s).1.GoesOn →
    ∃ taken, taken ≠ [] ∧ upcoming s = taken ++ upcoming (round s).2

/-- Every loop of a tokenizer gets on from here, and so do those of a source. -/
structure LoopsGetOn (upcoming : σ → List Char) (s : σ) : Prop where
  comment : GetsOn upcoming s commentUnit
  quoted : ∀ quote, GetsOn upcoming s (quotedUnit quote)
  name : GetsOn upcoming s nameRun
  unquotedUrl : ∀ wellFormed, GetsOn upcoming s (urlUnit wellFormed)
  acceptWhile : ∀ p n, GetsOn upcoming s (acceptNext p n)
  skipUntil : ∀ stop, GetsOn upcoming s (skipNext stop)

theorem getsOn_cursor {round : Scan Cursor (Round β α)} (hu : Uniform round round)
    (ha : Advances Round.GoesOn round) (c : Cursor) : GetsOn Cursor.ahead c round := by
  intro hgoes
  obtain ⟨n, hn⟩ := Cursor.exists_skip hu c
  have hless : (round c).2.ahead.length < c.ahead.length := ha c hgoes
  rw [hn, Cursor.ahead_skip, List.length_drop] at hless
  refine ⟨c.ahead.take n, ?_, ?_⟩
  · intro hnil
    have hlength := congrArg List.length hnil
    rw [List.length_take, List.length_nil] at hlength
    omega
  · rw [hn, Cursor.ahead_skip, List.take_append_drop]

end Scan

/-! ## Cursors -/

namespace Tokenizer

open Scan

section Operations

theorem spends_kindAmong (blocks : Nesting) : Spends 21 130 48 (kindAmong blocks) := by
  refine .bind .peek (by decide) fun c? => ?_
  cases c? with
  | none => cases blocks <;> exact .pure _
  | some c => exact .bind (spends_lexeme c) (by decide) fun _ => .pure _

/-- A call takes a number of operations that is linear in what is ahead. -/
theorem length_operations_le (t : Tokenizer Cursor) :
    t.operations.length ≤ 69 * t.source.ahead.length + 131 := by
  obtain ⟨k, -, hk, hlog⟩ := spends_kindAmong t.blocks t.logged.source
  change k ≤ t.source.ahead.length at hk
  change _ ≤ 0 + 21 * k + 130 + 48 * t.source.ahead.length at hlog
  obtain ⟨failure, -, hsource | hsource⟩ | ⟨kind, -, hsource⟩ := t.logged.source_nextToken
  · rw [operations, hsource]
    exact Nat.zero_le _
  · rw [operations, hsource]
    change (kindAmong t.blocks t.logged.source).2.log.length ≤ _
    omega
  · rw [operations, hsource]
    change (kindAmong t.blocks t.logged.source).2.log.length + 1 ≤ _
    omega

end Operations

variable {t : Tokenizer Cursor}

/-- What a call comes to where there is something ahead. -/
theorem Ready.exists_taken (h : t.Ready) (hne : t.source.ahead ≠ []) :
    ∃ taken, taken ≠ [] ∧ t.source.ahead = taken ++ t.nextToken.2.source.ahead ∧
      (t.nextToken.1 = .error ⟨.unterminatedComment, t.location⟩ ∨
        ∃ kind, kind ≠ .done ∧ kind ≠ .error ∧
          t.nextToken.1 = .ok ⟨kind, String.ofList taken⟩) := by
  have hstep := t.nextToken_step
  generalize t.nextToken = r at hstep ⊢
  cases hstep with
  | failed hf =>
    rw [h.failure] at hf
    contradiction
  | done hf hp | unclosedBlock hf hp =>
    exact absurd (t.source.ahead_eq_nil_iff.mpr (Prod.mk.inj hp).1) hne
  | unterminatedComment hf hp hl =>
    obtain ⟨lexeme, taken, rest, ha, hr, hlexeme⟩ := exists_reading hp
    obtain ⟨-, rfl⟩ := Prod.mk.inj (hlexeme.symm.trans hl)
    refine ⟨taken, hr.ne_nil, ?_, .inl rfl⟩
    rw [Cursor.ahead_skip, ha, List.drop_left]
  | @token s s' x lexeme kind hf hp hl hk =>
    obtain ⟨lexeme', taken, rest, ha, hr, hlexeme⟩ := exists_reading hp
    obtain ⟨rfl, rfl⟩ := Prod.mk.inj (hlexeme.symm.trans hl)
    have hallowed := answers_lexeme x s
    rw [hl] at hallowed
    obtain ⟨hdone, herror⟩ := settle_proper hallowed hk
    have hspan : (t.source.skip taken.length).span = taken := by
      rw [h.span_skip, ha, List.take_left]
    refine ⟨taken, hr.ne_nil, ?_, .inr ⟨kind, hdone, herror, ?_⟩⟩
    · change _ = taken ++ (t.source.skip taken.length).ahead
      rw [Cursor.ahead_skip, ha, List.drop_left]
    · have htext : (Source.takeText (t.source.skip taken.length)).1 = String.ofList taken :=
        congrArg String.ofList hspan
      rw [htext]

theorem Ready.ahead_nextToken_of_nil (h : t.Ready) (hnil : t.source.ahead = []) :
    t.nextToken.2.source.ahead = [] := by
  have hpeek := t.source.ahead_eq_nil_iff.mp hnil
  have hstep := t.nextToken_step
  generalize t.nextToken = r at hstep ⊢
  cases hstep with
  | failed hf =>
    rw [h.failure] at hf
    contradiction
  | token hf hp | unterminatedComment hf hp =>
    have hsome := hpeek.symm.trans (Prod.mk.inj hp).1
    contradiction
  | done hf hp | unclosedBlock hf hp =>
    obtain ⟨-, rfl⟩ := Prod.mk.inj hp
    exact hnil

/-- Each call but the last goes over a code point. -/
theorem length_outcomes_le (h : t.Ready) (n : Nat) :
    (t.outcomes n).length ≤ t.source.ahead.length + 1 := by
  induction n generalizing t with
  | zero => exact Nat.zero_le _
  | succ n ih =>
    have htakes := takes_nextToken h
    rw [outcomes]
    generalize t.nextToken = r at htakes ⊢
    cases htakes with
    | @last answer next hl hd =>
      cases answer with
      | error failure => exact Nat.le_add_left 1 _
      | ok token =>
        simp only [hd token rfl, if_true]
        exact Nat.le_add_left 1 _
    | @token token next hk ha hlt hready =>
      have hrest := ih hready
      simp only [hk, if_false, List.length_cons]
      omega

/-- As many calls as there are code points, and one, come to the end. -/
theorem exists_last_outcome (h : t.Ready) {n : Nat} (hn : t.source.ahead.length < n) :
    ∃ answer, (t.outcomes n).getLast? = some answer ∧
      ∀ token, answer = .ok token → token.kind = .done := by
  obtain ⟨tokens, last, unread, houtcomes, -, hlast, -⟩ := spells_outcomes h hn
  refine ⟨last, ?_, ?_⟩
  · rw [houtcomes, List.getLast?_concat]
  · cases hlast with
    | done =>
      rintro token ⟨⟩
      rfl
    | unclosedBlock | unterminatedComment => nofun

/-! ## Sources that show a cursor -/

/-- What a call comes to that begins between two tokens, and the calls from there on. -/
structure Progress {σ : Type} [Source σ] (upcoming : σ → List Char) (t : Tokenizer σ) : Prop where
  operations : t.operations.length ≤ 69 * (upcoming t.source).length + 131
  peek : (Source.peek t.source).1 = (upcoming t.source).head?
  /-- Something is ahead, and some of it is gone over. -/
  goesOn : upcoming t.source ≠ [] →
    ∃ taken, taken ≠ [] ∧ upcoming t.source = taken ++ upcoming t.nextToken.2.source ∧
      (t.nextToken.1 = .error ⟨.unterminatedComment, t.location⟩ ∨
        ∃ kind, kind ≠ .done ∧ kind ≠ .error ∧
          t.nextToken.1 = .ok ⟨kind, String.ofList taken⟩)
  /-- Nothing is ahead, and the source stays where it is. -/
  ends : upcoming t.source = [] →
    upcoming t.nextToken.2.source = [] ∧
      Source.position t.nextToken.2.source = Source.position t.source ∧
      t.nextToken.1 = ending t.location t.blocks.head?
  outcomes : ∀ n, (t.outcomes n).length ≤ (upcoming t.source).length + 1
  last : ∀ n, (upcoming t.source).length < n →
    ∃ answer, (t.outcomes n).getLast? = some answer ∧
      ∀ token, answer = .ok token → token.kind = .done

end Tokenizer

/-- How a source is seen as a cursor, and what can be seen of the text from the source. -/
structure View (σ : Type) [Source σ] where
  upcoming : σ → List Char
  simulation : Simulation σ Cursor
  upcoming_eq : ∀ s c, simulation.Rel s c → upcoming s = c.ahead
  position_peek : ∀ s : σ, Source.position (Source.peek s).2 = Source.position s
  position_takeText : ∀ s : σ, Source.position (Source.takeText s).2 = Source.position s

namespace View

open Scan

variable {σ : Type} [Source σ]

/-- A call that sees the end leaves the source where it is. -/
theorem position_nextToken (V : View σ) {t : Tokenizer σ}
    (hp : (Source.peek t.source).1 = none) :
    Source.position t.nextToken.2.source = Source.position t.source := by
  have hstep := t.nextToken_step
  generalize t.nextToken = r at hstep ⊢
  cases hstep with
  | failed => rfl
  | token _ hp' | unterminatedComment _ hp' =>
    rw [hp'] at hp
    contradiction
  | done _ hp' =>
    obtain rfl := congrArg Prod.snd hp'
    exact (V.position_takeText _).trans (V.position_peek _)
  | unclosedBlock _ hp' =>
    obtain rfl := congrArg Prod.snd hp'
    exact V.position_peek _

variable (V : View σ)

theorem getsOn {α β : Type} {s : σ} {c : Cursor} (hrel : V.simulation.Rel s c)
    {round : Scan σ (Round β α)} {round' : Scan Cursor (Round β α)} (hu : Uniform round round')
    (hu' : Uniform round' round') (ha : Advances Round.GoesOn round') :
    GetsOn V.upcoming s round := by
  have hagree := V.simulation.agrees hu hrel
  rw [GetsOn, hagree.answer, V.upcoming_eq _ _ hrel, V.upcoming_eq _ _ hagree.rel]
  exact getsOn_cursor hu' ha c

theorem loopsGetOn {s : σ} {c : Cursor} (hrel : V.simulation.Rel s c) :
    LoopsGetOn V.upcoming s where
  comment := V.getsOn hrel .commentUnit .commentUnit .commentUnit
  quoted quote := V.getsOn hrel (.quotedUnit quote) (.quotedUnit quote) (.quotedUnit quote)
  name := V.getsOn hrel .nameRun .nameRun .nameRun
  unquotedUrl wellFormed :=
    V.getsOn hrel (.urlUnit wellFormed) (.urlUnit wellFormed) (.urlUnit wellFormed)
  acceptWhile p n := V.getsOn hrel (.acceptNext p n) (.acceptNext p n) (.acceptNext p n)
  skipUntil stop := V.getsOn hrel (.skipNext stop) (.skipNext stop) (.skipNext stop)

theorem progress {t : Tokenizer σ} {c : Cursor} (hrel : V.simulation.Rel t.source c)
    (hf : t.failure? = none) (hs : c.spanStart = c.index) : t.Progress V.upcoming := by
  have halike : V.simulation.Alike t { t with source := c } := ⟨hrel, rfl, rfl, rfl⟩
  have hready : Tokenizer.Ready { t with source := c } := ⟨hf, hs⟩
  obtain ⟨hanswer, hnext⟩ := V.simulation.alike_nextToken halike
  have hlocation : t.location = Source.location c := V.simulation.location _ _ hrel
  have hahead := V.upcoming_eq _ _ hrel
  have hahead' := V.upcoming_eq _ _ hnext.source
  have hpeek : (Source.peek t.source).1 = (V.upcoming t.source).head? := by
    rw [(V.simulation.peek _ _ hrel).answer, hahead, ← Cursor.peek_eq_head?]
    rfl
  refine ⟨?_, hpeek, ?_, ?_, ?_, ?_⟩
  · rw [Tokenizer.length_operations_eq halike, hahead]
    exact Tokenizer.length_operations_le _
  · intro hne
    rw [hahead] at hne ⊢
    rw [hahead', hanswer, hlocation]
    exact hready.exists_taken hne
  · intro hnil
    have hnone : (Source.peek t.source).1 = none := by rw [hpeek, hnil, List.head?_nil]
    rw [hahead] at hnil
    refine ⟨?_, V.position_nextToken hnone, ?_⟩
    · rw [hahead']
      exact hready.ahead_nextToken_of_nil hnil
    · rw [hanswer, hlocation]
      exact Tokenizer.nextToken_of_nil hready hnil
  · intro n
    rw [V.simulation.outcomes_eq halike, hahead]
    exact Tokenizer.length_outcomes_le hready n
  · intro n hn
    rw [hahead] at hn
    rw [V.simulation.outcomes_eq halike]
    exact Tokenizer.exists_last_outcome hready hn

end View

namespace BufferedSource

variable {ι : Type} [CharStream ι]

/-- A buffered source over a fused stream, as the cursor that it shows. -/
def view (ι : Type) [CharStream ι] [CharStream.Fused ι] : View (BufferedSource ι) where
  upcoming := upcoming
  simulation := asCursor ι
  upcoming_eq _ _ h := h.ahead
  position_peek s := s.strides_peek.position_eq
  position_takeText _ := rfl

end BufferedSource

namespace IndexedSource

/-- What can still be consumed. -/
def upcoming (s : IndexedSource) : List Char := s.chars.toList.drop s.index

def view : View IndexedSource where
  upcoming := upcoming
  simulation := asCursor
  upcoming_eq s c h := by rw [upcoming, h.text, h.index, Cursor.ahead]
  position_peek _ := rfl
  position_takeText _ := rfl

end IndexedSource

namespace Tokenizer

open Scan

/-- Every loop and every tokenizer gets on, over any source that was reached, be its text
normalized or taken as it is; the tokenizer has not failed, and no span was begun. For the tokens
of a text there are at most as many calls as it has code points, and one. -/
theorem nextToken_progresses :
    (∀ {ι : Type} [CharStream ι] [CharStream.Fused ι] {input : ι} {taken : List Char}
      {marks : List Mark} {t : Tokenizer (BufferedSource ι)},
      Reached (.ofStream input) taken marks t.source →
        LoopsGetOn BufferedSource.upcoming t.source ∧
          (t.failure? = none → t.source.passed = [] → t.Progress BufferedSource.upcoming)) ∧
    (∀ {text : String} {taken : List Char} {marks : List Mark} {t : Tokenizer IndexedSource},
      Reached (.ofString text) taken marks t.source →
        LoopsGetOn IndexedSource.upcoming t.source ∧
          (t.failure? = none → t.source.spanStart = t.source.index →
            t.Progress IndexedSource.upcoming)) ∧
    ∀ text : String,
      (outcomesOf text).length ≤ (LineEnding.normalize text.toList).length + 1 ∧
        ∃ answer, (outcomesOf text).getLast? = some answer ∧
          ∀ token, answer = .ok token → token.kind = .done := by
  refine ⟨?_, ?_, ?_⟩
  · intro ι _ _ input taken marks t h
    have hshows := (BufferedSource.lies_of_reached h).shows
    refine ⟨(BufferedSource.view ι).loopsGetOn hshows, ?_⟩
    intro hf hpassed
    apply (BufferedSource.view ι).progress hshows hf
    simp [BufferedSource.cursor, hpassed]
  · intro text taken marks t h
    obtain ⟨c, hc⟩ := IndexedSource.exists_lies_of_reached h
    refine ⟨IndexedSource.view.loopsGetOn hc.shows, ?_⟩
    intro hf hs
    apply IndexedSource.view.progress hc.shows hf
    rw [← hc.shows.spanStart, ← hc.shows.index, hs]
  · intro text
    have hupcoming : (BufferedSource.ofString text).upcoming =
        LineEnding.normalize text.toList := by
      rw [← CharStream.drain_list text.toList]
      rfl
    have hprogress : (ofString text).Progress BufferedSource.upcoming := by
      have hshows := BufferedSource.shows_ofStream text.toList
      exact (BufferedSource.view _).progress hshows rfl rfl
    have hlength := LineEnding.length_normalize_le text.toList
    have hcalls := hprogress.outcomes (text.length + 1)
    have hlast := hprogress.last (text.length + 1)
    change (outcomesOf text).length ≤ (BufferedSource.ofString text).upcoming.length + 1 at hcalls
    change (BufferedSource.ofString text).upcoming.length < text.length + 1 → _ at hlast
    rw [hupcoming] at hcalls hlast
    exact ⟨hcalls, hlast (Nat.lt_succ_of_le hlength)⟩

/-- A name with a backslash and a line ending behind it, and a comment that does not end. -/
theorem nextToken_progresses_backslash :
    (ofString "a\\\r\n/*").Progress BufferedSource.upcoming ∧
      (ofSource (IndexedSource.ofString "a\\\r\n/*")).Progress IndexedSource.upcoming := by
  obtain ⟨hbuffered, hindexed, -⟩ := nextToken_progresses
  have hreached : Reached (BufferedSource.ofStream "a\\\r\n/*".toList) [] []
      (ofString "a\\\r\n/*").source := .origin
  have hreached' : Reached (IndexedSource.ofString "a\\\r\n/*") [] []
      (ofSource (IndexedSource.ofString "a\\\r\n/*")).source := .origin
  exact ⟨(hbuffered hreached).2 rfl rfl, (hindexed hreached').2 rfl rfl⟩

end Tokenizer
end Stylesheet
