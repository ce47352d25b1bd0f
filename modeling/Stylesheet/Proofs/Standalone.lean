import Mathlib.Control.Monad.Basic
import Stylesheet.Proofs.Drain
import Stylesheet.Proofs.Runs
import Stylesheet.Proofs.Tameness

/-!
# Tokens on their own

A token is read again from its own text. What was behind it gives way to the end of the input,
which is tamer than anything else, and what was before it to the beginning, where no block is open.
-/
namespace Stylesheet.Tokenizer

open Grammar

/-- Where no block is open, a lexeme that closed none before has the same kind. -/
theorem settle_nil {blocks : Nesting} {lexeme : Lexeme} {kind : Kind}
    (h : blocks.settle lexeme = .ok kind) (hc : kind.closes? = none) :
    Nesting.settle [] lexeme = .ok kind := by
  cases lexeme with
  | token => exact h
  | closing block =>
    obtain rfl := Except.ok.inj h
    by_cases hhead : blocks.head? = some block
    · rw [if_pos hhead, Kind.closes?_closing] at hc
      contradiction
    · rw [if_neg hhead]
      rfl
  | unterminatedComment => contradiction

theorem head?_after_nil (kind : Kind) : (Nesting.after [] kind).head? = kind.opens? := by
  cases kind <;> rfl

/-- A tokenizer over the text of a reading returns its token, and then it comes to the end. -/
theorem answers_of_reading {text : String} {lexeme : Lexeme} {kind : Kind}
    (hn : LineEnding.normalize text.toList = text.toList) (hr : Reading lexeme text.toList [])
    (hk : Nesting.settle [] lexeme = .ok kind) :
    (ofNormalized text).answers 2 =
      [.ok ⟨kind, text⟩, ending (Location.start.advanceAll text.toList) kind.opens?] := by
  have hready : (ofNormalized text).Ready := ready_ofSource_ofText _
  have hahead : (ofNormalized text).source.ahead = text.toList ++ [] := by
    rw [List.append_nil]
    exact hn
  have hfirst := nextToken_eq hready hahead hr hk
  have hend := nextToken_of_nil (hready.past kind text.toList.length) (by simp [hahead])
  have hlocation : ((ofNormalized text).past kind text.toList.length).location =
      Location.start.advanceAll text.toList := by
    rw [location_eq, before_past, hahead, List.take_left]
    rfl
  have hblocks : ((ofNormalized text).past kind text.toList.length).blocks.head? = kind.opens? :=
    head?_after_nil kind
  rw [hlocation, hblocks] at hend
  have htwo : (ofNormalized text).answers 2 =
      [(ofNormalized text).nextToken.1, (ofNormalized text).nextToken.2.nextToken.1] := rfl
  simp only [htwo, hfirst, hend, String.ofList_toList]

/-- Every token of a run comes again as the first token of its own text, and then that text is at
its end. Left out are tokens that close a block, and the name of a quoted URL. -/
theorem token_alone (text : String) (n : Nat) (token : Token)
    (h : ((ofString text).after n).nextToken.1 = .ok token) (hdone : token.kind ≠ .done)
    (hcloses : token.kind.closes? = none)
    (hurl : ¬ (token.kind = .function ∧ isUrlMark token.text.toList = true)) :
    (ofString token.text).answers 2 =
      [.ok token, ending (Location.start.advanceAll token.text.toList) token.kind.opens?] := by
  obtain ⟨rest, hreturned⟩ := exists_returned h
  obtain ⟨lexeme, blocks, hr, hsettle⟩ := hreturned.reading hdone
  have halone : Reading lexeme token.text.toList [] := by
    refine hr.tame (.nil rest) fun hlexeme => ?_
    rw [hlexeme] at hsettle
    exact Bool.eq_false_iff.mpr fun hmark => hurl ⟨(Except.ok.inj hsettle).symm, hmark⟩
  have hnormal : LineEnding.normalize token.text.toList = token.text.toList := by
    apply LineEnding.normalize_eq_self
    intro c hc
    have hwhole := hreturned.whole
    rw [answers, h, returned_append_ok, toList_concat_append] at hwhole
    have hmem : c ∈ LineEnding.normalize text.toList := by
      rw [← hwhole]
      exact List.mem_append_left rest (List.mem_append_right _ hc)
    exact LineEnding.ne_of_mem_normalize hmem
  rw [Simulation.answers_eq _ (alike_ofNormalized token.text)]
  exact answers_of_reading hnormal halone (settle_nil hsettle hcloses)

/-- A string that its line ends inside of is bad without that line ending, too. -/
theorem token_alone_badString :
    ((ofString "\"a\r\nb").after 0).nextToken.1 = .ok ⟨.badString, "\"a"⟩ ∧
      (ofString "\"a").answers 2 = [.ok ⟨.badString, "\"a"⟩, .ok ⟨.done, ""⟩] :=
  ⟨by decide +kernel, token_alone "\"a\r\nb" 0 ⟨.badString, "\"a"⟩ (by decide +kernel)
    (by decide) (by decide) (by decide)⟩

end Stylesheet.Tokenizer
