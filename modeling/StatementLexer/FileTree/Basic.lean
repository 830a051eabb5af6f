import StatementLexer.Byte

namespace StatementLexer

/-- The contents of a directory: its files with their data and its directories with their
contents. -/
inductive FileTree where
  | empty
  | file (name : String) (data : Bytes) (others : FileTree)
  | directory (name : String) (inside : FileTree) (others : FileTree)
  deriving DecidableEq, Repr

namespace FileTree

instance : Inhabited FileTree := ⟨empty⟩

inductive Node where
  | file (data : Bytes)
  | directory (inside : FileTree)
  deriving DecidableEq, Repr

def child? : FileTree → String → Option Node
  | .empty, _ => none
  | .file name data others, n => if name = n then some (.file data) else others.child? n
  | .directory name inside others, n =>
      if name = n then some (.directory inside) else others.child? n

/-- Puts a node in front of the others under a name that none of them has. -/
def cons (name : String) : Node → FileTree → FileTree
  | .file data, others => .file name data others
  | .directory inside, others => .directory name inside others

def putChild : FileTree → String → Node → FileTree
  | .empty, n, node => cons n node .empty
  | .file name data others, n, node =>
      if name = n then cons n node others else .file name data (others.putChild n node)
  | .directory name inside others, n, node =>
      if name = n then cons n node others
      else .directory name inside (others.putChild n node)

/-- A place in a tree: the names that lead to it from the top. -/
abbrev Place := List String

/-- What is at a place. The top is a directory. -/
def node? : FileTree → Place → Option Node
  | t, [] => some (.directory t)
  | t, name :: names =>
      match t.child? name, names with
      | some (.directory inside), names => inside.node? names
      | some (.file data), [] => some (.file data)
      | _, _ => none

/-- Puts a node at a place whose directory is there. -/
def put : FileTree → Place → Node → FileTree
  | t, [], _ => t
  | t, [name], node => t.putChild name node
  | t, name :: names, node =>
      match t.child? name with
      | some (.directory inside) => t.putChild name (.directory (inside.put names node))
      | _ => t

/-- The text of every place, with a slash after directories. -/
def paths : FileTree → List String
  | .empty => []
  | .file name _ others => name :: others.paths
  | .directory name inside others =>
      (name ++ "/") :: (inside.paths.map fun p => name ++ "/" ++ p) ++ others.paths

def list (t : FileTree) : List String :=
  t.paths.mergeSort fun p q => !(q < p)

end FileTree

end StatementLexer
