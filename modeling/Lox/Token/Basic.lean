import Lox.Source.Span

/-!
# Tokens

The words of the language: symbols, keywords, names, literals, the end of the text, and stretches
of text that are no word (`Kind.invalid`).  Symbols and keywords are spelled in one way only
(`Keyword.ofText?_text`).
-/

namespace Lox

/-! ## Symbols -/

inductive Symbol
  | leftParen | rightParen | leftBrace | rightBrace | leftBracket | rightBracket
  | plus | minus | star | slash | percent | dot | comma | semicolon | question | colon
  | bang | bangEqual | equal | equalEqual | less | lessEqual | greater | greaterEqual | diamond
deriving DecidableEq, Repr

/-- The spelling of a symbol. -/
def Symbol.text : Symbol → String
  | leftParen => "("
  | rightParen => ")"
  | leftBrace => "\x7b"
  | rightBrace => "\x7d"
  | leftBracket => "["
  | rightBracket => "]"
  | plus => "+"
  | minus => "-"
  | star => "*"
  | slash => "/"
  | percent => "%"
  | dot => "."
  | comma => ","
  | semicolon => ";"
  | question => "?"
  | colon => ":"
  | bang => "!"
  | bangEqual => "!="
  | equal => "="
  | equalEqual => "=="
  | less => "<"
  | lessEqual => "<="
  | greater => ">"
  | greaterEqual => ">="
  | diamond => "<>"

/-! ## Keywords -/

inductive Keyword
  | and | break | klass | continue | else | false | fun | for | if | nil | or | print | return
  | super | this | trait | true | var | while
deriving DecidableEq, Repr

namespace Keyword

/-- The spelling of a keyword. -/
def text : Keyword → String
  | and => "and"
  | «break» => "break"
  | klass => "class"
  | «continue» => "continue"
  | «else» => "else"
  | false => "false"
  | «fun» => "fun"
  | «for» => "for"
  | «if» => "if"
  | nil => "nil"
  | or => "or"
  | print => "print"
  | «return» => "return"
  | super => "super"
  | this => "this"
  | trait => "trait"
  | true => "true"
  | var => "var"
  | «while» => "while"

/-- All keywords, in alphabetical order. -/
def all : List Keyword :=
  [and, «break», klass, «continue», «else», false, «fun», «for», «if», nil, or, print, «return»,
    super, this, trait, true, var, «while»]

/-- The keyword spelled `text`, if there is one. -/
def ofText? (text : String) : Option Keyword :=
  all.find? fun k => k.text == text

end Keyword

/-! ## Tokens -/

/-- Why a stretch of text is no token. -/
inductive LexError
  | unexpectedCharacter (c : Char)
  | unterminatedString
  | unterminatedComment
deriving DecidableEq, Repr

def LexError.message : LexError → String
  | unexpectedCharacter c => "Unexpected character '" ++ toString c ++ "'."
  | unterminatedString => "Unterminated string."
  | unterminatedComment => "Unterminated block comment."

namespace Token

inductive Kind
  | symbol (s : Symbol)
  | keyword (k : Keyword)
  | identifier (name : String)
  /-- The text between the quotes. -/
  | string (text : String)
  | number (value : Float)
  | invalid (error : LexError)
  | endOfFile
deriving DecidableEq, Repr

namespace Kind

def isSymbol (s : Symbol) : Kind → Bool
  | symbol s' => s' == s
  | _ => false

def isKeyword (k : Keyword) : Kind → Bool
  | keyword k' => k' == k
  | _ => false

def isEndOfFile : Kind → Bool
  | endOfFile => true
  | _ => false

end Kind

end Token

/-- A token and the text it was read from. -/
structure Token where
  kind : Token.Kind
  span : Span
deriving Repr

/-! ## Lemmas -/

theorem Keyword.ofText?_text (k : Keyword) : Keyword.ofText? k.text = some k := by
  cases k <;> decide

end Lox
