namespace StatementLexer

/-- Sources, literals and words are plain byte strings. -/
abbrev Bytes := List UInt8

namespace Byte

def lineFeed : UInt8 := 0x0A
def space : UInt8 := 0x20
def doubleQuote : UInt8 := 0x22
def asterisk : UInt8 := 0x2A
def slash : UInt8 := 0x2F
def semicolon : UInt8 := 0x3B
def underscore : UInt8 := 0x5F
def backquote : UInt8 := 0x60

def isDigit (b : UInt8) : Bool :=
  0x30 ≤ b && b ≤ 0x39

def isAlpha (b : UInt8) : Bool :=
  (0x41 ≤ b && b ≤ 0x5A) || (0x61 ≤ b && b ≤ 0x7A)

def isUnderscore (b : UInt8) : Bool :=
  b == underscore

def isIdentContinue (b : UInt8) : Bool :=
  isAlpha b || isDigit b || isUnderscore b

/-- Blanks inside a line: space, tab, carriage return, vertical tab and form feed. A line feed
separates lines and is not among them. -/
def isWhitespace (b : UInt8) : Bool :=
  b == space || b == 0x09 || b == 0x0D || b == 0x0B || b == 0x0C

@[simp] theorem isWhitespace_lineFeed : isWhitespace lineFeed = false := rfl

@[simp] theorem isIdentContinue_lineFeed : isIdentContinue lineFeed = false := rfl

end Byte

def Bytes.ofString (s : String) : Bytes :=
  s.toUTF8.data.toList

end StatementLexer
