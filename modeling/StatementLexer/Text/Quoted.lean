import StatementLexer.Text.Printable

namespace StatementLexer.Text

/-- A character by its number in hexadecimal. -/
def escapeNumber (c : Char) : List Char :=
  ['\\', 'u', '\x7b'] ++ Nat.toDigits 16 c.toNat ++ ['\x7d']

def escape (c : Char) : List Char :=
  if c = '\x00' then ['\\', '0']
  else if c = '\t' then ['\\', 't']
  else if c = '\r' then ['\\', 'r']
  else if c = '\n' then ['\\', 'n']
  else if c = '"' then ['\\', '"']
  else if c = '\\' then ['\\', '\\']
  else if isPrintable c then [c]
  else escapeNumber c

def quoted (cs : List Char) : List Char :=
  '"' :: (cs.flatMap escape ++ ['"'])

end StatementLexer.Text
