import StatementLexer.Byte

namespace StatementLexer

/-- The classes of tokens. Their order is the order of this list. -/
inductive Kind where
  | plus
  | minus
  | mul
  | divide
  | mod
  | assign
  | shortAssign
  | eq
  | not
  | notEq
  | lt
  | gt
  | ltEq
  | gtEq
  | semicolon
  | endOfLine
  | openParen
  | closeParen
  | openBrace
  | closeBrace
  | openBracket
  | closeBracket
  | comma
  | colon
  | period
  | bitwiseAnd
  | bitwiseOr
  | bitwiseXor
  | leftShift
  | rightShift
  | and
  | or
  | breakWord
  | caseWord
  | constWord
  | continueWord
  | defaultWord
  | elseWord
  | forWord
  | funcWord
  | gotoWord
  | ifWord
  | importWord
  | mapWord
  | packageWord
  | rangeWord
  | returnWord
  | structWord
  | switchWord
  | typeWord
  | varWord
  | runeLit
  | stringLit
  | intLit
  | floatLit
  | identifier
  deriving DecidableEq, Repr

namespace Kind

def all : List Kind :=
  [.plus, .minus, .mul, .divide, .mod, .assign, .shortAssign, .eq, .not, .notEq, .lt, .gt, .ltEq,
    .gtEq, .semicolon, .endOfLine, .openParen, .closeParen, .openBrace, .closeBrace, .openBracket,
    .closeBracket, .comma, .colon, .period, .bitwiseAnd, .bitwiseOr, .bitwiseXor, .leftShift,
    .rightShift, .and, .or, .breakWord, .caseWord, .constWord, .continueWord, .defaultWord,
    .elseWord, .forWord, .funcWord, .gotoWord, .ifWord, .importWord, .mapWord, .packageWord,
    .rangeWord, .returnWord, .structWord, .switchWord, .typeWord, .varWord, .runeLit, .stringLit,
    .intLit, .floatLit, .identifier]

theorem mem_all (k : Kind) : k ∈ all := by
  cases k <;> decide

/-- The name under which a kind is displayed. -/
def name : Kind → String
  | .plus => "Plus"
  | .minus => "Minus"
  | .mul => "Mul"
  | .divide => "Divide"
  | .mod => "Mod"
  | .assign => "Assign"
  | .shortAssign => "ShortAssign"
  | .eq => "Eq"
  | .not => "Not"
  | .notEq => "NotEq"
  | .lt => "Lt"
  | .gt => "Gt"
  | .ltEq => "LtEq"
  | .gtEq => "GtEq"
  | .semicolon => "SemiColon"
  | .endOfLine => "EndOfLine"
  | .openParen => "OpenParen"
  | .closeParen => "CloseParen"
  | .openBrace => "OpenBrace"
  | .closeBrace => "CloseBrace"
  | .openBracket => "OpenBracket"
  | .closeBracket => "CloseBracket"
  | .comma => "Comma"
  | .colon => "Colon"
  | .period => "Period"
  | .bitwiseAnd => "BitwiseAnd"
  | .bitwiseOr => "BitwiseOr"
  | .bitwiseXor => "BitwiseXor"
  | .leftShift => "LeftShift"
  | .rightShift => "RightShift"
  | .and => "And"
  | .or => "Or"
  | .breakWord => "Break"
  | .caseWord => "Case"
  | .constWord => "Const"
  | .continueWord => "Continue"
  | .defaultWord => "Default"
  | .elseWord => "Else"
  | .forWord => "For"
  | .funcWord => "Func"
  | .gotoWord => "Goto"
  | .ifWord => "If"
  | .importWord => "Import"
  | .mapWord => "Map"
  | .packageWord => "Package"
  | .rangeWord => "Range"
  | .returnWord => "Return"
  | .structWord => "Struct"
  | .switchWord => "Switch"
  | .typeWord => "Type"
  | .varWord => "Var"
  | .runeLit => "RuneLit"
  | .stringLit => "StringLit"
  | .intLit => "IntLit"
  | .floatLit => "FloatLit"
  | .identifier => "Identifier"

/-- The fixed text of an operator, a punctuation mark or a keyword. -/
def lexeme? : Kind → Option String
  | .plus => some "+"
  | .minus => some "-"
  | .mul => some "*"
  | .divide => some "/"
  | .mod => some "%"
  | .assign => some "="
  | .shortAssign => some ":="
  | .eq => some "=="
  | .not => some "!"
  | .notEq => some "!="
  | .lt => some "<"
  | .gt => some ">"
  | .ltEq => some "<="
  | .gtEq => some ">="
  | .semicolon => some ";"
  | .openParen => some "("
  | .closeParen => some ")"
  | .openBrace => some "\x7b"
  | .closeBrace => some "\x7d"
  | .openBracket => some "["
  | .closeBracket => some "]"
  | .comma => some ","
  | .colon => some ":"
  | .period => some "."
  | .bitwiseAnd => some "&"
  | .bitwiseOr => some "|"
  | .bitwiseXor => some "^"
  | .leftShift => some "<<"
  | .rightShift => some ">>"
  | .and => some "&&"
  | .or => some "||"
  | .breakWord => some "break"
  | .caseWord => some "case"
  | .constWord => some "const"
  | .continueWord => some "continue"
  | .defaultWord => some "default"
  | .elseWord => some "else"
  | .forWord => some "for"
  | .funcWord => some "func"
  | .gotoWord => some "goto"
  | .ifWord => some "if"
  | .importWord => some "import"
  | .mapWord => some "map"
  | .packageWord => some "package"
  | .rangeWord => some "range"
  | .returnWord => some "return"
  | .structWord => some "struct"
  | .switchWord => some "switch"
  | .typeWord => some "type"
  | .varWord => some "var"
  | .endOfLine | .runeLit | .stringLit | .intLit | .floatLit | .identifier => none

/-- The bytes of the fixed text. -/
def spelling? (k : Kind) : Option Bytes :=
  k.lexeme?.map Bytes.ofString

/-- A line break after a token of this kind ends the statement. -/
def endsStatement : Kind → Bool
  | .identifier | .intLit | .runeLit | .floatLit | .stringLit | .breakWord | .continueWord
  | .returnWord | .closeBrace | .closeBracket | .closeParen => true
  | _ => false

def isKeyword : Kind → Bool
  | .breakWord | .caseWord | .constWord | .continueWord | .defaultWord | .elseWord | .forWord
  | .funcWord | .gotoWord | .ifWord | .importWord | .mapWord | .packageWord | .rangeWord
  | .returnWord | .structWord | .switchWord | .typeWord | .varWord => true
  | _ => false

def hasLiteral : Kind → Bool
  | .runeLit | .stringLit | .intLit | .floatLit | .identifier => true
  | _ => false

/-- The fixed text where there is one, and the name otherwise. -/
def display (k : Kind) : String :=
  k.lexeme?.getD k.name

instance : Ord Kind where
  compare j k := compare j.ctorIdx k.ctorIdx

def ofName? (s : String) : Option Kind :=
  all.find? fun k => k.name == s

def sort (ks : List Kind) : List Kind :=
  ks.mergeSort fun j k => j.ctorIdx ≤ k.ctorIdx

def operators : List Kind :=
  [.period, .comma, .shortAssign, .colon, .plus, .minus, .mul, .mod, .semicolon, .divide,
    .openParen, .closeParen, .openBracket, .closeBracket, .openBrace, .closeBrace, .leftShift,
    .ltEq, .lt, .rightShift, .gtEq, .gt, .eq, .assign, .notEq, .not, .and, .or, .bitwiseAnd,
    .bitwiseOr, .bitwiseXor]

def keywords : List Kind :=
  [.breakWord, .caseWord, .constWord, .continueWord, .defaultWord, .elseWord, .forWord, .funcWord,
    .gotoWord, .ifWord, .importWord, .mapWord, .packageWord, .rangeWord, .returnWord, .structWord,
    .switchWord, .typeWord, .varWord]

theorem mem_keywords_iff (k : Kind) : k ∈ keywords ↔ k.isKeyword = true := by
  cases k <;> decide

end Kind

end StatementLexer
