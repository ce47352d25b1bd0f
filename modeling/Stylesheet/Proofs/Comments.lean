import Mathlib.Order.Bounds.Basic
import Stylesheet.Proofs.Starts

/-!
# Comments

A comment goes as far as the first closing mark behind its opening one, whatever stands between the
two. Main statement: where that closing mark begins decides where the token ends, and if there is
none, the tokenizer fails where the comment begins, having read all of the input.
-/
namespace Stylesheet

open Grammar

/-- Behind the opening mark of a comment, a closing mark begins at this index. -/
def EndsCommentAt (text : List Char) (i : Nat) : Prop := 2 ≤ i ∧ ['*', '/'] <+: text.drop i

variable {body rest : List Char}

/-- A closing mark inside of a comment would have ended it. -/
theorem Grammar.Comment.length_le (h : Comment body) {k : Nat}
    (hk : ['*', '/'] <+: (body ++ rest).drop k) : body.length ≤ k + 2 := by
  induction h generalizing k with
  | close => exact Nat.le_add_left _ _
  | @pass c taken hc _ ih =>
    cases k with
    | zero =>
      obtain ⟨rfl, hslash⟩ := List.cons_prefix_cons.mp hk
      cases taken with
      | nil => contradiction
      | cons d taken =>
        obtain ⟨rfl, -⟩ := List.cons_prefix_cons.mp hslash
        exact absurd rfl (hc rfl)
    | succ k =>
      rw [List.cons_append, List.drop_succ_cons] at hk
      have hle := ih hk
      rw [List.length_cons]
      omega

theorem endsCommentAt_cons_cons {x y : Char} {i : Nat} :
    EndsCommentAt (x :: y :: body) i ↔ ∃ k, i = k + 2 ∧ ['*', '/'] <+: body.drop k := by
  constructor
  · rintro ⟨hle, hbegins⟩
    obtain ⟨k, rfl⟩ := Nat.exists_eq_add_of_le' hle
    exact ⟨k, rfl, hbegins⟩
  · rintro ⟨k, rfl, hbegins⟩
    exact ⟨Nat.le_add_left 2 k, hbegins⟩

/-- A comment ends with the first closing mark there is. -/
theorem Grammar.Comment.isLeast (h : Comment body) (rest : List Char) :
    IsLeast {i | EndsCommentAt ('/' :: '*' :: (body ++ rest)) i} body.length := by
  obtain ⟨content, hcontent⟩ := h.exists_content
  constructor
  · refine endsCommentAt_cons_cons.mpr ⟨content.length, ?_, ?_⟩
    · rw [hcontent, List.length_append]
      rfl
    · rw [hcontent, List.append_assoc, List.drop_left]
      exact List.prefix_append _ rest
  · intro i hi
    obtain ⟨k, rfl, hbegins⟩ := endsCommentAt_cons_cons.mp hi
    exact h.length_le hbegins

/-- There is no way out of a comment if no closing mark begins anywhere behind its opening one. -/
theorem not_infix_of_not_endsCommentAt {x y : Char} (h : ∀ i, ¬ EndsCommentAt (x :: y :: body) i) :
    ¬ ['*', '/'] <:+: body := by
  rintro ⟨content, rest, rfl⟩
  refine h _ (endsCommentAt_cons_cons.mpr ⟨content.length, rfl, ?_⟩)
  rw [List.append_assoc, List.drop_left]
  exact List.prefix_append _ rest

theorem infix_of_endsCommentAt {x y : Char} {i : Nat} (h : EndsCommentAt (x :: y :: body) i) :
    ['*', '/'] <:+: body := by
  obtain ⟨k, -, hbegins⟩ := endsCommentAt_cons_cons.mp h
  exact hbegins.isInfix.trans (List.drop_suffix k body).isInfix

namespace Tokenizer

variable {ι : Type} [CharStream ι] [CharStream.Fused ι] {t : Tokenizer (BufferedSource ι)}
  {text : List Char}

theorem Faces.hands_comment (h : t.Faces ('/' :: '*' :: (body ++ rest))) (hc : Comment body) :
    t.Hands ⟨.comment, String.ofList ('/' :: '*' :: body)⟩ t.blocks rest :=
  h.hands (.comment hc rest) rfl

/-- A comment that nothing closes is read to the end of the input. -/
theorem Faces.fails_unterminatedComment (h : t.Faces ('/' :: '*' :: body))
    (hc : ¬ ['*', '/'] <:+: body) : t.Fails .unterminatedComment := by
  obtain ⟨u, halike, hready, hahead⟩ := h.exists_alike
  have hpeek : Source.peek u.source = (some '/', u.source) := by
    change (u.source.peek, u.source) = _
    rw [Cursor.peek_eq_head?, hahead]
    rfl
  have htext : '/' :: '*' :: body = '/' :: '*' :: body ++ [] := (List.append_nil _).symm
  have hlexeme := takes_reading (.unterminatedComment hc) htext u.source (hahead.trans htext)
  have hstep := (Step.unterminatedComment hready.failure hpeek hlexeme).nextToken_eq
  obtain ⟨hanswer, hnext⟩ := Simulation.alike_nextToken _ halike
  have hlocation : t.location = u.location :=
    (BufferedSource.asCursor ι).location _ _ halike.source
  rw [hstep] at hanswer hnext
  have hshows : t.nextToken.2.source.Shows
      (u.source.skip ('/' :: '*' :: body).length) := hnext.source
  refine ⟨?_, hnext.blocks.trans halike.blocks.symm, ?_⟩
  · rw [hanswer, hlocation]
  · have hend : (u.source.skip ('/' :: '*' :: body).length).ahead = [] := by
      rw [Cursor.ahead_skip, hahead, List.drop_length]
    change t.nextToken.2.source.peek.1.isNone = true
    rw [hshows.peek.1, (Cursor.ahead_eq_nil_iff _).mp hend]
    rfl

/-- A comment ends with the first closing mark behind its opening one, and the tokenizer stands in
front of what follows. Without one the comment is unterminated. -/
theorem nextToken_comment (h : t.Faces text) (ho : ['/', '*'] <+: text) :
    ((∃ i, EndsCommentAt text i) → ∃ i, IsLeast {i | EndsCommentAt text i} i ∧
      t.Hands ⟨.comment, String.ofList (text.take (i + 2))⟩ t.blocks (text.drop (i + 2))) ∧
    ((∀ i, ¬ EndsCommentAt text i) → t.Fails .unterminatedComment) := by
  obtain ⟨body, rfl⟩ : ∃ body, text = '/' :: '*' :: body := by
    obtain ⟨body, rfl⟩ := ho
    exact ⟨body, rfl⟩
  constructor
  · rintro ⟨i, hi⟩
    obtain ⟨taken, rest, rfl, hc⟩ := splits_comment (infix_of_endsCommentAt hi)
    refine ⟨taken.length, hc.isLeast rest, ?_⟩
    have htake : ('/' :: '*' :: (taken ++ rest)).take (taken.length + 2) = '/' :: '*' :: taken := by
      rw [List.take_succ_cons, List.take_succ_cons, List.take_left]
    have hdrop : ('/' :: '*' :: (taken ++ rest)).drop (taken.length + 2) = rest := by
      rw [List.drop_succ_cons, List.drop_succ_cons, List.drop_left]
    rw [htake, hdrop]
    exact h.hands_comment hc
  · intro hnone
    exact h.fails_unterminatedComment (not_infix_of_not_endsCommentAt hnone)

/-- The asterisk of the opening mark is none of a closing one. -/
theorem nextToken_comment_asterisks :
    (ofString "/*/**/x").Hands ⟨.comment, "/*/**/"⟩ [] ['x'] ∧
      (ofString "/*/").Fails .unterminatedComment := by
  have hclosed : (ofString "/*/**/x").Faces "/*/**/x".toList := faces_ofString _
  have hopen : (ofString "/*/").Faces "/*/".toList := faces_ofString _
  have hfirst : IsLeast {i | EndsCommentAt "/*/**/x".toList i} 4 := by
    refine ⟨⟨by decide, by decide⟩, fun i hi => ?_⟩
    obtain ⟨hle, hbegins⟩ := hi
    by_contra hlt
    obtain rfl | rfl : i = 2 ∨ i = 3 := by omega
    · revert hbegins
      decide
    · revert hbegins
      decide
  constructor
  · obtain ⟨i, hi, hhands⟩ := (nextToken_comment hclosed (by decide)).1 ⟨4, hfirst.1⟩
    obtain rfl := hi.unique hfirst
    exact hhands
  · refine (nextToken_comment hopen (by decide)).2 fun i hi => ?_
    have hin : ['*', '/'] <:+: ['/'] := infix_of_endsCommentAt hi
    exact absurd hin (by decide)

end Tokenizer
end Stylesheet
