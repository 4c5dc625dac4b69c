/-
What can be wrong with the tokens of a unit. Reading stops at the first fault.
-/
import LivePatch.Token.Scan

namespace LivePatch

/-- What would have had to come next. -/
inductive Expectation where
  | token (t : Token)
  | expression
  | bindingName
  | functionName
  | parameterName
  | className
  | attributeName
  /-- A definition has to follow a doc comment. -/
  | documented
  /-- An item of a class body. -/
  | classItem
  deriving DecidableEq, Repr

namespace Expectation

def text : Expectation → String
  | token t => t.describe
  | expression => "expression"
  | bindingName => "binding name"
  | functionName => "function name"
  | parameterName => "parameter name"
  | className => "class name"
  | attributeName => "attribute name"
  | documented => "`fn` or `class` after doc comment"
  | classItem => "`let`, `fn` or `class` in class body"

end Expectation

/-- A fault in a source text. -/
inductive SyntaxError where
  | scan (e : ScanError)
  | unexpected (expected : Expectation) (found : PlacedToken)
  | endOfInput (expected : Expectation)
  /-- Only names and attributes can be assigned to. -/
  | assignTarget (span : Span)
  /-- A parameter without a default comes after one that has a default. -/
  | defaultOrder (name : Name) (span : Span)
  deriving DecidableEq, Repr

namespace SyntaxError

/-- The place of a fault; the end of input has none. -/
def span? : SyntaxError → Option Span
  | scan e => some e.span
  | unexpected _ found => some found.span
  | endOfInput _ => none
  | assignTarget s => some s
  | defaultOrder _ s => some s

def message : SyntaxError → String
  | scan e => e.message
  | unexpected expected found =>
    "expected " ++ expected.text ++ ", found " ++ found.token.describe ++ " at " ++ found.span.render
  | endOfInput expected => "expected " ++ expected.text ++ ", found end of input"
  | assignTarget s => "invalid assignment target at " ++ s.render
  | defaultOrder x s =>
    "parameter `" ++ x ++ "` without default follows a defaulted parameter at " ++ s.render

end SyntaxError

end LivePatch
