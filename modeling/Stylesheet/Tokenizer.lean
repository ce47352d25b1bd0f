import Stylesheet.Lexeme
import Stylesheet.Source.Buffered
import Stylesheet.Token

/-!
# The tokenizer

A tokenizer reads tokens from a source one at a time and keeps the stack of blocks that are open.
A failure is for good: it is the answer to every later call. The end of the input is not, since
the source may go on after it; only the list of tokens that `next` hands out ends there.
-/
namespace Stylesheet

/-- The open blocks, the innermost first. -/
abbrev Nesting := List Block

namespace Nesting

/-- The open blocks after a token of this kind. -/
def after (blocks : Nesting) (kind : Kind) : Nesting :=
  match kind.opens?, kind.closes? with
  | some block, _ => block :: blocks
  | none, some _ => blocks.tail
  | none, none => blocks

/-- The kind of a lexeme among the open blocks. -/
def settle (blocks : Nesting) : Lexeme → Except Cause Kind
  | .token kind => .ok kind
  | .closing block => .ok (if blocks.head? = some block then .closing block else .delim)
  | .unterminatedComment => .error .unterminatedComment

/-! What a token does to the open blocks, one kind after the other. -/

/-- A bracket that opens a block adds it. -/
@[simp] theorem after_opening (blocks : Nesting) (b : Block) :
    blocks.after (.opening b) = b :: blocks := by
  cases b <;> rfl

/-- A function opens the block of its parenthesis. -/
@[simp] theorem after_function (blocks : Nesting) :
    blocks.after .function = .parenthesis :: blocks := rfl

/-- A bracket that may close a block takes it away if it is the innermost one, and is a token of
nothing otherwise. -/
theorem after_settle_closing (blocks : Nesting) (b : Block) :
    (blocks.settle (.closing b)).map blocks.after =
      .ok (if blocks.head? = some b then blocks.tail else blocks) := by
  rw [settle, Except.map]
  split
  · cases b <;> rfl
  · rfl

/-- Any other token leaves them as they are. -/
theorem after_of_none (blocks : Nesting) {kind : Kind} (ho : kind.opens? = none)
    (hc : kind.closes? = none) : blocks.after kind = blocks := by
  rw [after, ho, hc]

end Nesting

/-- A tokenizer over a source. -/
structure Tokenizer (σ : Type) where
  source : σ
  blocks : Nesting
  /-- The failure that reading stopped with. -/
  failure? : Option Failure
  /-- The tokens of `next` have come to their end. -/
  finished : Bool
  deriving Repr

namespace Tokenizer

variable {σ : Type}

def ofSource (source : σ) : Tokenizer σ :=
  { source, blocks := [], failure? := none, finished := false }

def ofString (text : String) : Tokenizer (BufferedSource (List Char)) :=
  ofSource (.ofString text)

/-- How many blocks are open. -/
def depth (t : Tokenizer σ) : Nat := t.blocks.length

variable [Source σ]

/-- Where the next token begins. -/
def location (t : Tokenizer σ) : Location := Source.location t.source

/-- Hands out the text of the span as a token. -/
def emit (kind : Kind) (t : Tokenizer σ) : Token × Tokenizer σ :=
  let (text, source) := Source.takeText t.source
  (⟨kind, text⟩, { t with source, blocks := t.blocks.after kind })

/-- The kind of the next token, its text still in the source. At the end of the input it is
`done`, unless a block is still open. -/
def readKind (t : Tokenizer σ) : Except Cause Kind × Tokenizer σ :=
  match Source.peek t.source with
  | (none, source) =>
    let kind := match t.blocks with
      | [] => .ok .done
      | block :: _ => .error (.unclosedBlock block)
    (kind, { t with source })
  | (some c, source) =>
    let (lexeme, source) := Scan.lexeme c source
    (t.blocks.settle lexeme, { t with source })

/-- The next token. A failure is located where that token would have begun. -/
def nextToken (t : Tokenizer σ) : Except Failure Token × Tokenizer σ :=
  match t.failure? with
  | some failure => (.error failure, t)
  | none =>
    match t.readKind with
    | (.ok kind, next) =>
      let (token, next) := next.emit kind
      (.ok token, next)
    | (.error cause, next) =>
      let failure : Failure := ⟨cause, t.location⟩
      (.error failure, { next with failure? := some failure })

/-- The next token before the end, or the failure, which is the last answer of all. -/
def next (t : Tokenizer σ) : Option (Except Failure Token) × Tokenizer σ :=
  if t.finished then (none, t)
  else
    match t.nextToken with
    | (.error failure, t) => (some (.error failure), { t with finished := true })
    | (.ok token, t) =>
      if token.kind = .done then (none, { t with finished := true })
      else (some (.ok token), t)

/-- What `nextToken` answers, up to the first `done` or failure, in so many calls at most. -/
def outcomes : Nat → Tokenizer σ → List (Except Failure Token)
  | 0, _ => []
  | n + 1, t =>
    match t.nextToken with
    | (.error failure, _) => [.error failure]
    | (.ok token, t) =>
      if token.kind = .done then [.ok token] else .ok token :: t.outcomes n

end Tokenizer

/-- What a tokenizer over a text answers, up to the end. Each call before the last takes a code
point at least, so there are no more calls than this. -/
def outcomesOf (text : String) : List (Except Failure Token) :=
  (Tokenizer.ofString text).outcomes (text.length + 1)

/-- All tokens of a text. The last one is `done`, or the error that reading stopped with. -/
def tokenize (text : String) : List Token := (outcomesOf text).map Token.ofOutcome

end Stylesheet
