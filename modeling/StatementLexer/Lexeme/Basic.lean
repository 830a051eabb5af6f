import StatementLexer.Token.Kind

namespace StatementLexer

inductive Quote where
  | double
  | back
  deriving DecidableEq, Repr

def Quote.byte : Quote → UInt8
  | .double => Byte.doubleQuote
  | .back => Byte.backquote

/-- The constructs that the end of a source can cut short. -/
inductive Construct where
  | string
  | rawString
  | blockComment
  deriving DecidableEq, Repr

def Construct.name : Construct → String
  | .string => "string literal"
  | .rawString => "raw string literal"
  | .blockComment => "block comment"

def Quote.construct : Quote → Construct
  | .double => .string
  | .back => .rawString

/-- The units a source is cut into. A comment holds the bytes between its marks, a string the
bytes between its delimiters; the open forms run to the end of the source without a closing
mark. A symbol is an operator, a punctuation mark or a keyword. -/
inductive Lexeme where
  | lineBreak
  | blank (b : UInt8)
  | lineComment (text : Bytes)
  | blockComment (text : Bytes)
  | openComment (text : Bytes)
  | quoted (q : Quote) (text : Bytes)
  | openQuoted (q : Quote) (text : Bytes)
  | number (digits : Bytes)
  | symbol (k : Kind)
  | name (text : Bytes)
  deriving DecidableEq, Repr

def Lexeme.bytes : Lexeme → Bytes
  | .lineBreak => [Byte.lineFeed]
  | .blank b => [b]
  | .lineComment text => Byte.slash :: Byte.slash :: text
  | .blockComment text => Byte.slash :: Byte.asterisk :: (text ++ [Byte.asterisk, Byte.slash])
  | .openComment text => Byte.slash :: Byte.asterisk :: text
  | .quoted q text => q.byte :: (text ++ [q.byte])
  | .openQuoted q text => q.byte :: text
  | .number digits => digits
  | .symbol k => k.spelling?.getD []
  | .name text => text

end StatementLexer
