import StatementLexer.Toml.Quoted

namespace StatementLexer.Toml

/-- The digits that follow a digit; a single underscore may stand between two of them. -/
def moreDigits (isDigit : Char → Bool) : Reader (List Char)
  | [] => some ([], [])
  | c :: cs =>
      if isDigit c then (moreDigits isDigit cs).map fun r => (c :: r.1, r.2)
      else if c = '_' then
        match cs with
        | [] => none
        | d :: rest =>
            if isDigit d then (moreDigits isDigit rest).map fun r => (d :: r.1, r.2) else none
      else some ([], c :: cs)

def digits (isDigit : Char → Bool) : Reader (List Char)
  | [] => none
  | c :: cs =>
      if isDigit c then (moreDigits isDigit cs).map fun r => (c :: r.1, r.2) else none

def decimalDigits : Reader (List Char) :=
  digits Char.isDigit

def sign : List Char → Bool × List Char
  | '+' :: cs => (false, cs)
  | '-' :: cs => (true, cs)
  | cs => (false, cs)

/-- Decimal digits without a superfluous zero in front. -/
def wholeDigits : Reader (List Char)
  | '0' :: cs => some (['0'], cs)
  | cs => decimalDigits cs

/-- Integers have 64 bits with the sign. -/
def inRange (n : Int) : Bool :=
  -0x8000000000000000 ≤ n && n < 0x8000000000000000

def radixInteger (base : Nat) (isDigit : Char → Bool) (cs : List Char) :
    Option (Int × List Char) :=
  (digits isDigit cs).map fun r => ((ofDigits base r.1 : Int), r.2)

def decimalInteger (cs : List Char) : Option (Int × List Char) :=
  let s := sign cs
  (wholeDigits s.2).map fun r =>
    (if s.1 then -(ofDigits 10 r.1 : Int) else (ofDigits 10 r.1 : Int), r.2)

/-- An integer in base ten, or without a sign in base sixteen, eight or two. -/
def integer : Reader Int := fun cs =>
  let r := match cs with
    | '0' :: 'x' :: rest => radixInteger 16 isHexDigit rest
    | '0' :: 'o' :: rest => radixInteger 8 (fun c => '0' ≤ c && c ≤ '7') rest
    | '0' :: 'b' :: rest => radixInteger 2 (fun c => c == '0' || c == '1') rest
    | _ => decimalInteger cs
  r.filter fun r => inRange r.1

/-- The decimal `m * 10 ^ e` is at least halfway from the largest finite number of 53 bits to
`2 ^ 1024`. -/
def overflows (m : Nat) (e : Int) : Bool :=
  let magnitude := (Nat.toDigits 10 m).length + e
  let bound := Nat.pow 2 1024 - Nat.pow 2 970
  if m = 0 ∨ magnitude < 300 then false
  else if 320 < magnitude then true
  else if 0 ≤ e then bound ≤ m * Nat.pow 10 e.toNat
  else bound * Nat.pow 10 (-e).toNat ≤ m

def exponent : Reader Int
  | c :: cs =>
      if c = 'e' ∨ c = 'E' then
        let s := sign cs
        (decimalDigits s.2).map fun r =>
          (if s.1 then -(ofDigits 10 r.1 : Int) else (ofDigits 10 r.1 : Int), r.2)
      else none
  | [] => none

def fraction : Reader (List Char)
  | '.' :: cs => decimalDigits cs
  | _ => none

/-- The text after a number with a fraction, an exponent or both. A positive number must not be
too large; a negative one counts as minus infinity then. -/
def skipDecimal? (cs : List Char) : Option (List Char) :=
  let s := sign cs
  match wholeDigits s.2 with
  | none => none
  | some (whole, rest) =>
      let tail := match fraction rest with
        | some (part, rest') =>
            match exponent rest' with
            | some (e, rest'') => some (part, e, rest'')
            | none => some (part, 0, rest')
        | none => (exponent rest).map fun r => ([], r.1, r.2)
      match tail with
      | none => none
      | some (part, e, rest') =>
          if !s.1 && overflows (ofDigits 10 (whole ++ part)) (e - part.length) then none
          else some rest'

/-- The text after the name of an infinity or of no number. -/
def skipSpecial? (cs : List Char) : Option (List Char) :=
  match (sign cs).2 with
  | 'i' :: 'n' :: 'f' :: rest => some rest
  | 'n' :: 'a' :: 'n' :: rest => some rest
  | _ => none

def skipFloat? (cs : List Char) : Option (List Char) :=
  skipDecimal? cs <|> skipSpecial? cs

end StatementLexer.Toml
