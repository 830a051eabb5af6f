import StatementLexer.Token.Kind

namespace StatementLexer

namespace Kind

def startsOperator (b : UInt8) : Bool :=
  operators.any fun k => k.spelling?.bind List.head? == some b

/-- The byte `c` makes a longer operator of an operator. -/
def pairs (k : Kind) (c : UInt8) : Bool :=
  operators.any fun j => j.spelling? == k.spelling?.map (· ++ [c])

end Kind

/-- A byte with which nothing but an operator, a keyword or a name begins. -/
def Byte.startsWord (b : UInt8) : Bool :=
  b != lineFeed && !isWhitespace b && b != slash && b != doubleQuote && b != backquote &&
    b != semicolon && !isDigit b

/-- A byte with which nothing but a keyword or a name begins. -/
def Byte.startsName (b : UInt8) : Bool :=
  b != lineFeed && !isWhitespace b && !isDigit b && b != doubleQuote && b != backquote &&
    !Kind.startsOperator b

def Byte.isBlank (b : UInt8) : Bool :=
  isWhitespace b || b == lineFeed

/-- A byte that may open a comment or a string. -/
def Byte.opens (b : UInt8) : Bool :=
  b == slash || b == doubleQuote || b == backquote

namespace Kind

/-- What holds of the texts of all kinds, found by going through the tables. -/
structure Tables : Prop where
  injective : ∀ j ∈ all, ∀ k ∈ all, j.spelling?.isSome = true → j.spelling? = k.spelling? → j = k
  spelled : ∀ k ∈ all, k.spelling?.isSome = true → k ∈ operators ∨ k ∈ keywords
  operator_length : ∀ k ∈ operators,
    k.spelling?.any (fun w => w.length == 1 || w.length == 2) = true
  operator_head : ∀ k ∈ operators,
    operators.any (fun j => j.spelling? == k.spelling?.map (·.take 1)) = true
  operator_word : ∀ k ∈ operators, k ≠ .divide → k ≠ .semicolon →
    (k.spelling?.bind List.head?).any Byte.startsWord = true
  operator_bytes : ∀ k ∈ operators, ∀ c ∈ k.spelling?.getD [], Byte.isBlank c = false
  operator_opens : ∀ k ∈ operators, k ≠ .divide → ∀ c ∈ k.spelling?.getD [], Byte.opens c = false
  single : ∀ b ∈ [Byte.slash, Byte.semicolon], startsOperator b = true ∧ ∀ j ∈ operators,
    j.spelling?.bind List.head? = some b → j.spelling? = some [b]
  keyword_head : ∀ k ∈ keywords, (k.spelling?.bind List.head?).any Byte.startsName = true
  keyword_bytes : ∀ k ∈ keywords, ∀ c ∈ k.spelling?.getD [], Byte.isIdentContinue c = true
  keyword_nested : ∀ j ∈ keywords, ∀ k ∈ keywords,
    (j.spelling?.getD []).isPrefixOf (k.spelling?.getD []) = true → j = k
  name_letters : ∀ k ∈ all, k.name.toList.all Char.isAlpha = true
  named : ∀ k ∈ all, ofName? k.name = some k

theorem tables : Tables where
  injective := by decide +kernel
  spelled := by decide +kernel
  operator_length := by decide +kernel
  operator_head := by decide +kernel
  operator_word := by decide +kernel
  operator_bytes := by decide +kernel
  operator_opens := by decide +kernel
  single := by decide +kernel
  keyword_head := by decide +kernel
  keyword_bytes := by decide +kernel
  keyword_nested := by decide +kernel
  name_letters := by decide +kernel
  named := by decide +kernel

end Kind

end StatementLexer
