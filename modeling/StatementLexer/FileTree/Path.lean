import StatementLexer.Error

namespace StatementLexer.FileTree

/-- A relative path: the parts of its text between the slashes. A part is empty where two
slashes meet and where a slash ends the text. -/
structure Path where
  parts : List String
  deriving DecidableEq, Repr

namespace Path

def ofString (text : String) : Path := ⟨text.splitOn "/"⟩

def text (p : Path) : String := "/".intercalate p.parts

/-- The steps of a path. A single dot stays and two dots go up. -/
def steps (p : Path) : List String :=
  p.parts.filter (· != "")

/-- A slash at the end of a path asks for a directory. -/
def endsInSlash (p : Path) : Bool :=
  p.parts.getLast? == some ""

/-- Parts that lead nowhere. -/
def isIdle (part : String) : Bool :=
  part == "" || part == "."

def parent (p : Path) : Path :=
  ⟨((p.parts.reverse.dropWhile isIdle).tail.dropWhile isIdle).reverse⟩

def maxSize : Nat := 4095

def maxNameSize : Nat := 255

/-- Refuses paths that no directory can be asked for. -/
def check (p : Path) : Except IoError Unit :=
  if p.text.contains '\x00' then .error .nulInPath
  else if maxSize < p.text.utf8ByteSize then .error .nameTooLong
  else .ok ()

end Path

end StatementLexer.FileTree
