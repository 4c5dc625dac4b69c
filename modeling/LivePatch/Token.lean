/-
Tokens: the words and signs a source text consists of.
-/
import LivePatch.Name
import LivePatch.Span

namespace LivePatch

/-- Words with a meaning of their own, which are no identifiers. -/
inductive Keyword where
  | bind | function | classDef | leave | raise | branch | otherwise
  | and | or | not | true | false | none
  deriving DecidableEq, Repr

namespace Keyword

def all : List Keyword :=
  [bind, function, classDef, leave, raise, branch, otherwise, and, or, not, true, false, none]

def spelling : Keyword → String
  | bind => "let"
  | function => "fn"
  | classDef => "class"
  | leave => "return"
  | raise => "raise"
  | branch => "if"
  | otherwise => "else"
  | and => "and"
  | or => "or"
  | not => "not"
  | true => "true"
  | false => "false"
  | none => "none"

def ofSpelling? (s : String) : Option Keyword := all.find? (·.spelling == s)

end Keyword

/-- Signs: brackets, separators and operators. -/
inductive Sign where
  | leftParen | rightParen | leftBrace | rightBrace | comma | dot | semicolon
  | equalEqual | equal | notEqual | lessEqual | less | greaterEqual | greater
  | plus | minus | star | slash | percent
  deriving DecidableEq, Repr

namespace Sign

/-- All signs, each before its own beginnings, so that the first that fits is the longest. -/
def all : List Sign :=
  [leftParen, rightParen, leftBrace, rightBrace, comma, dot, semicolon, equalEqual, equal, notEqual,
   lessEqual, less, greaterEqual, greater, plus, minus, star, slash, percent]

def chars : Sign → List Char
  | leftParen => ['(']
  | rightParen => [')']
  | leftBrace => ['\x7b']
  | rightBrace => ['\x7d']
  | comma => [',']
  | dot => ['.']
  | semicolon => [';']
  | equalEqual => ['=', '=']
  | equal => ['=']
  | notEqual => ['!', '=']
  | lessEqual => ['<', '=']
  | less => ['<']
  | greaterEqual => ['>', '=']
  | greater => ['>']
  | plus => ['+']
  | minus => ['-']
  | star => ['*']
  | slash => ['/']
  | percent => ['%']

/-- The longest sign at the front of some characters. -/
def atFront? (cs : List Char) : Option Sign := all.find? (·.chars.isPrefixOf cs)

end Sign

inductive Token where
  /-- A comment that documents the definition after it. -/
  | doc (text : String)
  | keyword (k : Keyword)
  | sign (s : Sign)
  | int (value : Int64)
  /-- A string literal, with its escapes resolved. -/
  | str (text : String)
  | ident (name : Name)
  deriving DecidableEq, Repr

namespace Token

/-- The token as it is named in messages. -/
def describe : Token → String
  | doc _ => "doc comment"
  | int n => "integer `" ++ toString n.toInt ++ "`"
  | str _ => "string literal"
  | ident x => "identifier `" ++ x ++ "`"
  | keyword k => "`" ++ k.spelling ++ "`"
  | sign s => "`" ++ String.ofList s.chars ++ "`"

end Token

/-- A token with its place. -/
structure PlacedToken where
  token : Token
  span : Span
  deriving DecidableEq, Repr

end LivePatch
