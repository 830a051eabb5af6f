import StatementLexer.Toml.Quoted

namespace StatementLexer.Toml

/-- A number of exactly `n` digits between two bounds. -/
def field (n low high : Nat) : Reader Nat := fun cs =>
  let ds := cs.take n
  let value := ofDigits 10 ds
  if ds.length = n ∧ ds.all Char.isDigit ∧ low ≤ value ∧ value ≤ high then
    some (value, cs.drop n)
  else none

def expect (c : Char) : List Char → Option (List Char)
  | d :: cs => if d = c then some cs else none
  | [] => none

def isLeapYear (year : Nat) : Bool :=
  year % 4 == 0 && (year % 100 != 0 || year % 400 == 0)

def daysOfMonth (year month : Nat) : Nat :=
  if month = 2 then if isLeapYear year then 29 else 28
  else if month = 4 ∨ month = 6 ∨ month = 9 ∨ month = 11 then 30
  else 31

def skipDate? (cs : List Char) : Option (List Char) := do
  let (year, cs) ← field 4 0 9999 cs
  let cs ← expect '-' cs
  let (month, cs) ← field 2 1 12 cs
  let cs ← expect '-' cs
  let (_, cs) ← field 2 1 (daysOfMonth year month) cs
  return cs

def skipFraction : List Char → List Char
  | '.' :: cs =>
      match cs.takeWhile Char.isDigit with
      | [] => '.' :: cs
      | _ :: _ => cs.dropWhile Char.isDigit
  | cs => cs

def skipTime? (cs : List Char) : Option (List Char) := do
  let (_, cs) ← field 2 0 23 cs
  let cs ← expect ':' cs
  let (_, cs) ← field 2 0 59 cs
  let cs ← expect ':' cs
  let (_, cs) ← field 2 0 60 cs
  return skipFraction cs

def skipOffset? : List Char → Option (List Char)
  | [] => none
  | c :: cs =>
      if c = 'Z' ∨ c = 'z' then some cs
      else if c = '+' ∨ c = '-' then do
        let (_, cs) ← field 2 0 23 cs
        let cs ← expect ':' cs
        let (_, cs) ← field 2 0 59 cs
        return cs
      else none

/-- The text after the time that follows a date, if there is one. -/
def skipTimeOfDate : List Char → List Char
  | [] => []
  | c :: cs =>
      if c = 'T' ∨ c = 't' ∨ c = ' ' then
        match skipTime? cs with
        | some rest => (skipOffset? rest).getD rest
        | none => c :: cs
      else c :: cs

/-- The text after a date, a time, or both. -/
def skipDateTime? (cs : List Char) : Option (List Char) :=
  (skipDate? cs).map skipTimeOfDate <|> skipTime? cs

end StatementLexer.Toml
