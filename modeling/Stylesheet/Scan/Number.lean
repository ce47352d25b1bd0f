import Stylesheet.Scan.Name
import Stylesheet.Token.Kind

/-!
# Numbers

A number has an optional sign, digits with an optional fraction, and an optional exponent. A
percent sign or an identifier that follows it is part of the token.
-/
namespace Stylesheet.Scan

open CodePoint

variable {σ : Type} [Source σ]

/-- The beginning of a number: a digit, or a point and a digit, a sign before it at most. -/
def numberStart : Scan σ Bool := do
  let _ ← accept isSign
  if ← accept isDigit then return true
  else if ← acceptChar '.' then accept isDigit
  else return false

/-- A point and at least one digit. -/
def fraction : Scan σ Bool := do
  if ← acceptChar '.' then return 0 < (← acceptWhile isDigit) else return false

/-- The mark of an exponent, a sign or none, and at least one digit. -/
def exponent : Scan σ Bool := do
  if ← accept isExponentMark then
    let _ ← accept isSign
    return 0 < (← acceptWhile isDigit)
  else return false

/-- The longest number that stands here. -/
def number : Scan σ Unit := do
  let _ ← accept isSign
  let _ ← acceptWhile isDigit
  let _ ← attempt fraction
  let _ ← attempt exponent

/-- A number and what it measures, where `numberStart` applies. -/
def numeric : Scan σ Kind := do
  number
  if ← acceptChar '%' then return .percentage
  else if ← attempt identifier then return .dimension
  else return .number

end Stylesheet.Scan
