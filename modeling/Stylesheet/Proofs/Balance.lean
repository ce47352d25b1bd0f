import Stylesheet.Tokenizer

/-!
# Balance

The open blocks are what is left of the tokens returned so far when every block that was closed is
taken out. Main statement: if nothing is left, the tokens are balanced.
-/
namespace Stylesheet

/-- What a returned token does to the open blocks. -/
def Nesting.push (blocks : Nesting) (token : Token) : Nesting :=
  match token.kind with
  | .function | .openParen => .parenthesis :: blocks
  | .openBracket => .squareBracket :: blocks
  | .openBrace => .curlyBracket :: blocks
  | .closeParen | .closeBracket | .closeBrace => blocks.tail
  | _ => blocks

/-- The blocks that the returned tokens leave open. -/
def Nesting.replay (tokens : List Token) : Nesting := tokens.foldl Nesting.push []

theorem Nesting.after_kind (blocks : Nesting) (token : Token) :
    blocks.after token.kind = blocks.push token := by
  rw [Nesting.after, Nesting.push]
  cases token.kind <;> rfl

theorem Nesting.replay_append (tokens : List Token) (token : Token) :
    Nesting.replay (tokens ++ [token]) = (Nesting.replay tokens).push token := by
  simp [Nesting.replay]

/-- Every block is closed by the mark that belongs to it, and blocks do not overlap. -/
inductive Balanced : List Kind → Prop
  | nil : Balanced []
  | other {kind : Kind} (ho : kind.opens? = none) (hc : kind.closes? = none) : Balanced [kind]
  | block {kind : Kind} {b : Block} {inner : List Kind} (ho : kind.opens? = some b)
      (hi : Balanced inner) : Balanced (kind :: inner ++ [.closing b])
  | append {kinds more : List Kind} (hk : Balanced kinds) (hm : Balanced more) :
      Balanced (kinds ++ more)

/-- The kinds leave these blocks open: between the marks that opened them all is balanced. -/
inductive Leaves : List Kind → Nesting → Prop
  | nothing {kinds : List Kind} (h : Balanced kinds) : Leaves kinds []
  | block {kinds inner : List Kind} {blocks : Nesting} {kind : Kind} {b : Block}
      (h : Leaves kinds blocks) (ho : kind.opens? = some b) (hi : Balanced inner) :
      Leaves (kinds ++ kind :: inner) (b :: blocks)

namespace Leaves

variable {kinds : List Kind} {blocks : Nesting}

theorem balanced (h : Leaves kinds []) : Balanced kinds := by
  cases h with
  | nothing h => exact h

theorem append (h : Leaves kinds blocks) {more : List Kind} (hm : Balanced more) :
    Leaves (kinds ++ more) blocks := by
  cases h with
  | nothing h => exact .nothing (.append h hm)
  | @block kinds inner blocks kind b h ho hi =>
    rw [List.append_assoc, List.cons_append]
    exact .block h ho (.append hi hm)

theorem close {b : Block} (h : Leaves kinds (b :: blocks)) :
    Leaves (kinds ++ [.closing b]) blocks := by
  cases h with
  | @block kinds inner _ kind _ h ho hi =>
    have hblock : Balanced (kind :: inner ++ [.closing b]) := .block ho hi
    rw [List.append_assoc]
    exact h.append hblock

/-- One more token keeps the account, if a block is closed only when it is the innermost one. -/
theorem after (h : Leaves kinds blocks) {kind : Kind}
    (hc : ∀ b, kind.closes? = some b → kind = .closing b ∧ blocks.head? = some b) :
    Leaves (kinds ++ [kind]) (blocks.after kind) := by
  rw [Nesting.after]
  cases hopens : kind.opens? with
  | some b => exact .block h hopens .nil
  | none =>
    cases hcloses : kind.closes? with
    | none => exact h.append (.other hopens hcloses)
    | some b =>
      obtain ⟨rfl, hhead⟩ := hc b hcloses
      obtain ⟨rest, rfl⟩ := List.head?_eq_some_iff.mp hhead
      exact h.close

end Leaves
end Stylesheet
