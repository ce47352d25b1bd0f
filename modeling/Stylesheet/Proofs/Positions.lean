import Mathlib.Control.Monad.Basic
import Mathlib.Data.List.Induction
import Stylesheet.Proofs.Runs
import Stylesheet.Proofs.Session

/-!
# Positions

The source carries its position from code point to code point and takes it back with every scan
that is undone. Between two tokens it is nevertheless what the tokens returned so far come to: the
lines and the last column of their texts, and their length in UTF-8. A failure is located there.
-/
namespace Stylesheet

/-- The location behind a text that begins a style sheet: its lines, and what is behind the last
LF of it, both counted from 1. -/
def Location.behind (text : List Char) : Location :=
  ⟨1 + text.count '\n', 1 + (text.reverse.takeWhile (· ≠ '\n')).length⟩

theorem Location.advanceAll_start (text : List Char) :
    Location.start.advanceAll text = .behind text := by
  induction text using List.reverseRecOn with
  | nil => rfl
  | append_singleton text c ih =>
    rw [advanceAll_append, ih, advanceAll_cons, advanceAll_nil, advance]
    by_cases hc : c = '\n'
    · subst hc
      simp [behind, Nat.add_assoc]
    · simp [behind, hc, Nat.add_assoc]

namespace Tokenizer

open Grammar

/-- A tokenizer stands, and a failure of its next call is located, behind the text read so far. -/
structure Placed (text read : List Char) (t : Tokenizer (BufferedSource (List Char))) : Prop where
  location : t.location = .behind read
  offset : (Source.position t.source).offset = utf8Length read
  line_lt : t.location.line < UInt32.size
  column_lt : t.location.column < UInt32.size
  failure : ∀ failure, t.nextToken.1 = .error failure → failure.location = .behind read
  unterminatedComment : ∀ location, t.nextToken.1 = .error ⟨.unterminatedComment, location⟩ →
    ∃ rest, text = read ++ '/' :: '*' :: rest
  unclosedBlock : ∀ block location, t.nextToken.1 = .error ⟨.unclosedBlock block, location⟩ →
    location = .behind text

/-- A failure is located where the tokenizer stands, and says what comes next there. -/
theorem failure_cases {t : Tokenizer Cursor} (h : t.Ready) {failure : Failure}
    (hf : t.nextToken.1 = .error failure) : failure.location = t.location ∧
      match failure.cause with
      | .unterminatedComment => ∃ rest, t.source.ahead = '/' :: '*' :: rest
      | .unclosedBlock _ => t.source.ahead = [] := by
  have hreads := reads_nextToken h
  generalize t.nextToken = r at hreads hf
  cases hreads with
  | done | token => contradiction
  | unclosedBlock ha =>
    obtain rfl := Except.error.inj hf
    exact ⟨rfl, ha⟩
  | failed ha hr hk =>
    obtain ⟨rfl, rfl⟩ := settle_eq_error hk
    obtain rfl := Except.error.inj hf
    cases hr with
    | unterminatedComment => exact ⟨rfl, _, by rw [ha, List.append_nil]⟩

/-- Nowhere in a short text is there a line or a column that 32 bits do not hold. -/
theorem location_lt {t : Tokenizer Cursor} (h : t.source.text.length < UInt32.size - 1) :
    t.location.line < UInt32.size ∧ t.location.column < UInt32.size := by
  have hle := Cursor.location_markAt_le t.source.text t.source.index
  have hsize : UInt32.size = 4294967296 := rfl
  rw [location_eq, Cursor.before]
  simp only [Cursor.markAt] at hle
  omega

/-- The position is accounted for by the tokens returned so far, at every point of a run that has
not failed. -/
theorem position_accounted (text : String) (n : Nat)
    (hlength : text.toList.length < UInt32.size - 1)
    (hgoing : ∀ failure, .error failure ∉ (ofString text).answers n) :
    Placed (LineEnding.normalize text.toList)
      (Token.concat (returned ((ofString text).answers n))).toList ((ofString text).after n) := by
  have halike := Simulation.alike_after _ (alike_ofNormalized text) n
  have hshows : ((ofString text).after n).source.Shows ((ofNormalized text).after n).source :=
    halike.source
  have hkept : Kept _ ((ofString text).after n) :=
    kept_after (s := BufferedSource.ofString text) rfl n
  have hf : ((ofNormalized text).after n).failure? = none :=
    halike.failure.symm.trans (hkept.going hgoing)
  have hstands : Stands _ ((ofNormalized text).answers n) ((ofNormalized text).after n) :=
    stands_after _ n hf
  have hanswer := (Simulation.alike_nextToken _ halike).1
  have hread : (Token.concat (returned ((ofString text).answers n))).toList =
      ((ofNormalized text).after n).source.before := by
    rw [Simulation.answers_eq _ (alike_ofNormalized text), hstands.before]
  have hsplit := Cursor.before_append_ahead ((ofNormalized text).after n).source
  have hlocation : ((ofNormalized text).after n).location =
      .behind ((ofNormalized text).after n).source.before := by
    rw [location_eq, Location.advanceAll_start]
  have hplace : ((ofString text).after n).location = ((ofNormalized text).after n).location :=
    Simulation.location _ _ _ halike.source
  have hbound := location_lt (t := (ofNormalized text).after n)
    (hstands.text ▸ Nat.lt_of_le_of_lt (LineEnding.length_normalize_le text.toList) hlength)
  rw [hstands.text] at hsplit
  rw [hread]
  refine ⟨hplace.trans hlocation, ?_, ?_, ?_, ?_, ?_, ?_⟩
  · rw [hshows.position_eq]
    rfl
  · exact hplace ▸ hbound.1
  · exact hplace ▸ hbound.2
  · intro failure hfailure
    rw [hanswer] at hfailure
    exact (failure_cases hstands.ready hfailure).1.trans hlocation
  · intro location hfailure
    rw [hanswer] at hfailure
    obtain ⟨-, rest, hahead⟩ := failure_cases hstands.ready hfailure
    exact ⟨rest, by rw [← hsplit, hahead]⟩
  · intro block location hfailure
    rw [hanswer] at hfailure
    obtain ⟨hloc, hahead⟩ := failure_cases hstands.ready hfailure
    have hnil : ((ofNormalized text).after n).source.ahead = [] := hahead
    rw [hnil, List.append_nil] at hsplit
    rw [← hsplit]
    exact hloc.trans hlocation

/-- In front of a comment that does not end, on the second line. -/
theorem position_accounted_unterminated :
    "1\r\n /*".toList.length < UInt32.size - 1 ∧
      (∀ failure, .error failure ∉ (ofString "1\r\n /*").answers 2) ∧
      Placed ['1', '\n', ' ', '/', '*']
        (Token.concat (returned ((ofString "1\r\n /*").answers 2))).toList
        ((ofString "1\r\n /*").after 2) := by
  have hlength : "1\r\n /*".toList.length < UInt32.size - 1 := by decide
  have hanswers : (ofString "1\r\n /*").answers 2 =
      [.ok ⟨.number, "1"⟩, .ok ⟨.whitespace, "\n "⟩] := by decide +kernel
  have hgoing : ∀ failure, .error failure ∉ (ofString "1\r\n /*").answers 2 := by
    rw [hanswers]
    simp
  exact ⟨hlength, hgoing, position_accounted "1\r\n /*" 2 hlength hgoing⟩

end Tokenizer
end Stylesheet
