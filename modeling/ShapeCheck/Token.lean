/-!
# Tokens

The words of type, signature and expression snippets. A token keeps its literal as bytes, because
scanning works on bytes: columns count bytes and an unknown byte becomes a token of its own.
-/

namespace ShapeCheck

/-- Punctuation. -/
inductive Symbol where
  | spread | strictEqual | strictNotEqual
  | arrow | equal | notEqual | lessEqual | greaterEqual
  | logicalAnd | logicalOr | coalesce | optionalChain
  | assign | plus | minus | bang | asterisk | slash | percent
  | less | greater | dot | pipe | ampersand
  | comma | semicolon | colon
  | leftParen | rightParen | leftBrace | rightBrace | leftBracket | rightBracket | question
  deriving DecidableEq, Repr

/-- Reserved words. -/
inductive Keyword where
  | true | false | null | undefined | typeof | new | this | readonly | extends | as
  deriving DecidableEq, Repr

/-- What kind of word a token is. -/
inductive TokenKind where
  | illegal
  | endOfInput
  | identifier
  | number
  | bigint
  | string
  | symbol (s : Symbol)
  | keyword (k : Keyword)
  deriving DecidableEq, Repr

instance : Inhabited TokenKind := ⟨.endOfInput⟩

/-- A word with the line and the byte column where it starts, both from one. -/
structure Token where
  kind : TokenKind
  /-- The text of the word; for strings the decoded text, for numbers without separators. -/
  literal : List UInt8
  line : Nat
  column : Nat
  deriving Inhabited

namespace Symbol

/-- The spelling of a symbol. -/
def text : Symbol → String
  | .spread => "..." | .strictEqual => "===" | .strictNotEqual => "!=="
  | .arrow => "=>" | .equal => "==" | .notEqual => "!=" | .lessEqual => "<=" | .greaterEqual => ">="
  | .logicalAnd => "&&" | .logicalOr => "||" | .coalesce => "??" | .optionalChain => "?."
  | .assign => "=" | .plus => "+" | .minus => "-" | .bang => "!" | .asterisk => "*" | .slash => "/"
  | .percent => "%" | .less => "<" | .greater => ">" | .dot => "." | .pipe => "|"
  | .ampersand => "&" | .comma => "," | .semicolon => ";" | .colon => ":" | .leftParen => "("
  | .rightParen => ")" | .leftBrace => "\x7b" | .rightBrace => "\x7d" | .leftBracket => "["
  | .rightBracket => "]" | .question => "?"

/-- All symbols, longest spelling first, so that the first match is the longest. -/
def all : List Symbol :=
  [.spread, .strictEqual, .strictNotEqual,
   .arrow, .equal, .notEqual, .lessEqual, .greaterEqual,
   .logicalAnd, .logicalOr, .coalesce, .optionalChain,
   .assign, .plus, .minus, .bang, .asterisk, .slash, .percent,
   .less, .greater, .dot, .pipe, .ampersand,
   .comma, .semicolon, .colon,
   .leftParen, .rightParen, .leftBrace, .rightBrace, .leftBracket, .rightBracket, .question]

end Symbol

namespace Keyword

/-- The spelling of a reserved word. -/
def text : Keyword → String
  | .true => "true" | .false => "false" | .null => "null" | .undefined => "undefined"
  | .typeof => "typeof" | .new => "new" | .this => "this" | .readonly => "readonly"
  | .extends => "extends" | .as => "as"

/-- The name of a reserved word in messages. -/
def name : Keyword → String
  | .true => "TRUE" | .false => "FALSE" | .null => "NULL" | .undefined => "UNDEFINED"
  | .typeof => "TYPEOF" | .new => "NEW" | .this => "THIS" | .readonly => "READONLY"
  | .extends => "EXTENDS" | .as => "AS"

/-- All reserved words. -/
def all : List Keyword :=
  [.true, .false, .null, .undefined, .typeof, .new, .this, .readonly, .extends, .as]

end Keyword

/-- The name of a token kind in messages. -/
def TokenKind.name : TokenKind → String
  | .illegal => "ILLEGAL"
  | .endOfInput => "EOF"
  | .identifier => "IDENT"
  | .number => "NUMBER"
  | .bigint => "BIGINT"
  | .string => "STRING"
  | .symbol s => s.text
  | .keyword k => k.name

/-- The UTF-8 bytes of a text. -/
def utf8Bytes (s : String) : List UInt8 := s.toUTF8.toList

/-- The text of UTF-8 bytes; bytes that are no UTF-8 read as no text. -/
def ofUtf8Bytes (bytes : List UInt8) : String :=
  (String.fromUTF8? ⟨bytes.toArray⟩).getD ""

/-- The literal of a token as text. -/
def Token.text (t : Token) : String := ofUtf8Bytes t.literal

end ShapeCheck
