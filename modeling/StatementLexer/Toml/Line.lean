namespace StatementLexer.Toml

/-- Reads something off the front of a text and returns it with the rest. -/
abbrev Reader (α : Type) := List Char → Option (α × List Char)

/-- Characters that may stand in a line: no control characters but the tab. -/
def isText (c : Char) : Bool :=
  c == '\t' || (0x20 ≤ c.toNat && c.toNat != 0x7F)

def isBlank (c : Char) : Bool :=
  c == ' ' || c == '\t'

def skipBlanks (cs : List Char) : List Char :=
  cs.dropWhile isBlank

/-- The text after a line break, which is a line feed with or without a carriage return. -/
def newline? : List Char → Option (List Char)
  | '\n' :: cs => some cs
  | '\r' :: '\n' :: cs => some cs
  | _ => none

/-- The text after the end of a line; the last line may end without a break. -/
def endOfLine? : List Char → Option (List Char)
  | [] => some []
  | cs => newline? cs

def skipComment : List Char → List Char
  | '#' :: cs => cs.dropWhile isText
  | cs => cs

/-- The next line, when only blanks and a comment are left of this one. -/
def finishLine? (cs : List Char) : Option (List Char) :=
  endOfLine? (skipComment (skipBlanks cs))

/-- Skips blanks, line breaks and comments, of which each ends with its line. -/
def skipGaps (inComment : Bool) : List Char → List Char
  | [] => []
  | c :: cs =>
      if (newline? (c :: cs)).isSome then skipGaps false cs
      else if inComment then if isText c then skipGaps true cs else c :: cs
      else if isBlank c then skipGaps false cs
      else if c = '#' then skipGaps true cs
      else c :: cs

end StatementLexer.Toml
