import Stylesheet.Failure
import Stylesheet.Token.Kind

/-!
# Tokens

A token is a kind and the text it was read from. Escapes are not resolved and quotes and marks
are kept, so writing the tokens of a style sheet one after another gives it back.
-/
namespace Stylesheet

structure Token where
  kind : Kind
  text : String
  deriving DecidableEq, Repr, Inhabited

namespace Token

instance : ToString Token := ⟨text⟩

/-- The token that stands for a failure at the end of a list of tokens. -/
def ofFailure (f : Failure) : Token := ⟨.error, f.message⟩

/-- What was read, or the token that stands for the failure to read it. -/
def ofOutcome : Except Failure Token → Token
  | .ok token => token
  | .error failure => ofFailure failure

/-- The text that the tokens were read from. -/
def concat (tokens : List Token) : String := String.join (tokens.map text)

end Token
end Stylesheet
