import Stylesheet.Block
import Stylesheet.Location

/-!
# Failures

The two ways in which the end of a style sheet can come too soon. Malformed strings and URLs are
tokens, not failures.
-/
namespace Stylesheet

/-- What the end of the input left open. -/
inductive Cause where
  | unterminatedComment
  /-- The innermost block that was still open. -/
  | unclosedBlock (block : Block)
  deriving DecidableEq, Repr, Inhabited

def Cause.message : Cause → String
  | unterminatedComment => "unterminated comment"
  | unclosedBlock block => "unclosed block, expected `" ++ block.closingChar.toString ++ "`"

instance : ToString Cause := ⟨Cause.message⟩

/-- Why reading stopped, and where the token that could not be read began. -/
structure Failure where
  cause : Cause
  location : Location
  deriving DecidableEq, Repr, Inhabited

def Failure.message (f : Failure) : String :=
  "unexpected EOF at " ++ toString f.location ++ ": " ++ f.cause.message

instance : ToString Failure := ⟨Failure.message⟩

end Stylesheet
