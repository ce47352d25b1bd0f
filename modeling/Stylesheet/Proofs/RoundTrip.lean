import Mathlib.Control.Monad.Basic
import Stylesheet.Proofs.Drain
import Stylesheet.Proofs.Drivers

/-!
# Round trips

The tokens of a text are read from its normalized form, so they are the same for both, and a list
of tokens that comes to its end spells that form: written out and read again, it is the same list.
-/
namespace Stylesheet

theorem LineEnding.normalize_normalize (cs : List Char) :
    normalize (normalize cs) = normalize cs :=
  normalize_eq_self fun _ hc => ne_of_mem_normalize hc

/-- A text with its line endings normalized. -/
def normalized (text : String) : String := String.ofList (LineEnding.normalize text.toList)

namespace Tokenizer

/-- In more calls than there are code points left, the outcomes are the same, however many calls
there are. -/
theorem outcomes_eq_of_lt {t : Tokenizer Cursor} (h : t.Ready) {n m : Nat}
    (hn : t.source.ahead.length < n) (hm : t.source.ahead.length < m) :
    t.outcomes n = t.outcomes m := by
  induction n generalizing t m with
  | zero => contradiction
  | succ n ih =>
    cases m with
    | zero => contradiction
    | succ m =>
      have htakes := takes_nextToken h
      rw [outcomes_succ, outcomes_succ]
      generalize t.nextToken = r at htakes ⊢
      cases htakes with
      | @last answer next hl hd =>
        have hlast : isLast (item answer) = true := by
          cases answer with
          | error failure => rfl
          | ok token => simp [item, isLast, hd token rfl]
        rw [if_pos hlast, if_pos hlast]
      | @token token next hk ha hlt hready =>
        have hrest : next.outcomes n = next.outcomes m := ih hready (by omega) (by omega)
        rw [hrest]

theorem ofNormalized_normalized (text : String) :
    ofNormalized (normalized text) = ofNormalized text := by
  rw [ofNormalized, ofNormalized, normalized, String.toList_ofList,
    LineEnding.normalize_normalize]

/-- A text and its normalized form have the same outcomes, the locations of failures included. -/
theorem outcomesOf_normalized (text : String) : outcomesOf (normalized text) = outcomesOf text := by
  have hlength := LineEnding.length_normalize_le text.toList
  have hahead : (ofNormalized text).source.ahead = LineEnding.normalize text.toList := rfl
  have hnormalized : (normalized text).length = (LineEnding.normalize text.toList).length :=
    String.length_ofList
  rw [outcomesOf_eq, outcomesOf_eq, ofNormalized_normalized]
  apply outcomes_eq_of_lt (ready_ofSource_ofText _)
  · exact hnormalized ▸ Nat.lt_succ_self _
  · exact Nat.lt_succ_of_le hlength

theorem tokenize_normalized (text : String) : tokenize (normalized text) = tokenize text := by
  rw [tokenize, tokenize, outcomesOf_normalized]

/-- A list of tokens that comes to its end spells the normalized text. -/
theorem join_tokenize {text : String} {token : Token}
    (h : (tokenize text).getLast? = some token) (hk : token.kind = .done) :
    String.join ((tokenize text).map toString) = normalized text := by
  obtain ⟨tokens, last, unread, houtcomes, -, hlast, htext⟩ := spells_outcomesOf text
  rw [tokenize_of_outcomesOf houtcomes] at h ⊢
  rw [List.getLast?_concat] at h
  obtain rfl := Option.some.inj h
  cases hlast with
  | unclosedBlock | unterminatedComment => contradiction
  | done =>
    rw [List.append_nil] at htext
    have hjoin : String.join (tokens.map toString) = Token.concat tokens := rfl
    have hdone : String.join ([Token.ofOutcome (.ok ⟨.done, ""⟩)].map toString) = "" := rfl
    rw [List.map_append, String.join_append, hjoin, hdone, String.append_empty, normalized,
      ← htext, String.ofList_toList]

/-- The tokens of a text are those of its normalized form, messages of failures included. When
they come to their end, they are also the tokens of what they are written as. -/
theorem tokenize_round_trip (text : String) :
    tokenize (normalized text) = tokenize text ∧
      ∀ token, (tokenize text).getLast? = some token → token.kind = .done →
        tokenize (String.join ((tokenize text).map toString)) = tokenize text := by
  refine ⟨tokenize_normalized text, fun token hlast hk => ?_⟩
  rw [join_tokenize hlast hk, tokenize_normalized]

/-- A line ending between the tokens and one that is escaped in a string. -/
theorem tokenize_round_trip_line_endings :
    tokenize "a\r\n'b\\\r'" =
        [⟨.ident, "a"⟩, ⟨.whitespace, "\n"⟩, ⟨.string, "'b\\\n'"⟩, ⟨.done, ""⟩] ∧
      tokenize (String.join ((tokenize "a\r\n'b\\\r'").map toString)) =
        tokenize "a\r\n'b\\\r'" := by
  have htokens : tokenize "a\r\n'b\\\r'" =
      [⟨.ident, "a"⟩, ⟨.whitespace, "\n"⟩, ⟨.string, "'b\\\n'"⟩, ⟨.done, ""⟩] := by
    decide +kernel
  exact ⟨htokens, (tokenize_round_trip "a\r\n'b\\\r'").2 _ (by rw [htokens]; rfl) rfl⟩

end Tokenizer
end Stylesheet
