import StatementLexer.Toml.Line

namespace StatementLexer.Toml

/-- The value of digits in a base up to sixteen. -/
def digitValue (c : Char) : Nat :=
  if c.isDigit then c.toNat - '0'.toNat
  else if 'a' ≤ c then c.toNat - 'a'.toNat + 10
  else c.toNat - 'A'.toNat + 10

def isHexDigit (c : Char) : Bool :=
  c.isDigit || ('a' ≤ c && c ≤ 'f') || ('A' ≤ c && c ≤ 'F')

def ofDigits (base : Nat) (ds : List Char) : Nat :=
  ds.foldl (fun n d => n * base + digitValue d) 0

/-- A character given by exactly `n` hexadecimal digits. -/
def scalar? (n : Nat) : Reader Char := fun cs =>
  let ds := cs.take n
  if ds.length = n ∧ ds.all isHexDigit then
    let code := ofDigits 16 ds
    if code.isValidChar then some (Char.ofNat code, cs.drop n) else none
  else none

def escape? : Reader Char
  | 'b' :: cs => some ('\x08', cs)
  | 't' :: cs => some ('\t', cs)
  | 'n' :: cs => some ('\n', cs)
  | 'f' :: cs => some ('\x0c', cs)
  | 'r' :: cs => some ('\r', cs)
  | '"' :: cs => some ('"', cs)
  | '\\' :: cs => some ('\\', cs)
  | 'u' :: cs => scalar? 4 cs
  | 'U' :: cs => scalar? 8 cs
  | _ => none

theorem scalar?_length {n : Nat} {cs rest : List Char} {c : Char}
    (h : scalar? n cs = some (c, rest)) : rest.length ≤ cs.length := by
  unfold scalar? at h
  dsimp only at h
  split at h
  · split at h
    · cases h
      rw [List.length_drop]
      exact Nat.sub_le _ _
    · cases h
  · cases h

theorem escape?_length {cs rest : List Char} {c : Char} (h : escape? cs = some (c, rest)) :
    rest.length < cs.length := by
  unfold escape? at h
  split at h
  case h_8 => exact Nat.lt_succ_of_le (scalar?_length h)
  case h_9 => exact Nat.lt_succ_of_le (scalar?_length h)
  case h_10 => cases h
  all_goals
    cases h
    exact Nat.lt_succ_self _

/-- The content of a string in double quotes on one line, after its opening quote. -/
def basic : Reader (List Char)
  | [] => none
  | c :: cs =>
      if c = '"' then some ([], cs)
      else if c = '\\' then
        match _h : escape? cs with
        | some (e, rest) => (basic rest).map fun r => (e :: r.1, r.2)
        | none => none
      else if isText c then (basic cs).map fun r => (c :: r.1, r.2)
      else none
termination_by cs => cs.length
decreasing_by
  · exact Nat.lt_succ_of_lt (escape?_length _h)
  · exact Nat.lt_succ_self _

/-- The content of a string in single quotes on one line, after its opening quote. -/
def literal : Reader (List Char)
  | [] => none
  | c :: cs =>
      if c = '\'' then some ([], cs)
      else if isText c then (literal cs).map fun r => (c :: r.1, r.2)
      else none

/-- The text after three closing quotes. Up to two quotes right before them belong to the
string. -/
def close? (quote : Char) (cs : List Char) : Option (List Char) :=
  let n := (cs.takeWhile (· == quote)).length
  if 3 ≤ n then some (cs.drop (min n 5)) else none

/-- The text after a string in three double quotes, whose opening quotes are read. A backslash
at the end of a line skips all blanks and line breaks up to the next character. -/
def multilineBasic (skipping : Bool) : List Char → Option (List Char)
  | [] => none
  | c :: cs =>
      match close? '"' (c :: cs) with
      | some rest => some rest
      | none =>
          if (newline? (c :: cs)).isSome then multilineBasic skipping cs
          else if skipping && isBlank c then multilineBasic true cs
          else if c = '\\' then
            if (newline? (skipBlanks cs)).isSome then multilineBasic true cs
            else if (escape? cs).isSome then
              match cs with
              | [] => none
              | _ :: rest => multilineBasic false rest
            else none
          else if isText c then multilineBasic false cs
          else none

/-- The text after a string in three single quotes, whose opening quotes are read. -/
def multilineLiteral : List Char → Option (List Char)
  | [] => none
  | c :: cs =>
      match close? '\'' (c :: cs) with
      | some rest => some rest
      | none =>
          if (newline? (c :: cs)).isSome || isText c then multilineLiteral cs else none

def skipString? : List Char → Option (List Char)
  | '"' :: '"' :: '"' :: cs => multilineBasic false cs
  | '"' :: cs => (basic cs).map Prod.snd
  | '\'' :: '\'' :: '\'' :: cs => multilineLiteral cs
  | '\'' :: cs => (literal cs).map Prod.snd
  | _ => none

end StatementLexer.Toml
