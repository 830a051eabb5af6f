import StatementLexer.Byte

namespace StatementLexer

/-- The continuations below a node of a trie: a byte, whether a word ends right after it, the
continuations below it, and the continuations with another byte in its place. -/
inductive Trie.Branches where
  | nil
  | cons (byte : UInt8) (terminal : Bool) (below : Branches) (others : Branches)
  deriving DecidableEq, Repr

/-- A set of words arranged by their common beginnings. -/
structure Trie where
  terminal : Bool
  branches : Trie.Branches
  deriving DecidableEq, Repr

namespace Trie.Branches

def chain (b : UInt8) : Bytes → Branches
  | [] => .cons b true .nil .nil
  | c :: w => .cons b false (chain c w) .nil

/-- Adds the word `b :: w`. -/
def insert : Branches → UInt8 → Bytes → Branches
  | .nil, b, w => chain b w
  | .cons byte terminal below others, b, w =>
      if byte = b then
        match w with
        | [] => .cons byte true below others
        | c :: v => .cons byte terminal (below.insert c v) others
      else .cons byte terminal below (others.insert b w)

def child? : Branches → UInt8 → Option Trie
  | .nil, _ => none
  | .cons byte terminal below others, b =>
      if byte = b then some ⟨terminal, below⟩ else others.child? b

def isEmpty : Branches → Bool
  | .nil => true
  | .cons .. => false

/-- Every word, without the common beginning that leads here. -/
def words : Branches → List Bytes
  | .nil => []
  | .cons byte terminal below others =>
      (if terminal then [[byte]] else []) ++ below.words.map (byte :: ·) ++ others.words

def size : Branches → Nat
  | .nil => 0
  | .cons _ terminal below others => terminal.toNat + below.size + others.size

/-- Some word is a proper beginning of another. -/
def hasNestedWords : Branches → Bool
  | .nil => false
  | .cons _ terminal below others =>
      (terminal && !below.isEmpty) || below.hasNestedWords || others.hasNestedWords

end Trie.Branches

namespace Trie

def empty : Trie := ⟨false, .nil⟩

instance : Inhabited Trie := ⟨empty⟩

def insert (t : Trie) : Bytes → Trie
  | [] => ⟨true, t.branches⟩
  | b :: w => ⟨t.terminal, t.branches.insert b w⟩

def ofWords (ws : List Bytes) : Trie :=
  ws.foldl insert empty

/-- The node reached by reading a byte string from the root. -/
def walk : Trie → Bytes → Option Trie
  | t, [] => some t
  | t, b :: w => (t.branches.child? b).bind fun s => s.walk w

/-- What a trie knows of a candidate: whether it is a word, and whether a longer word starts
with it. -/
structure Match where
  isWord : Bool
  hasLonger : Bool
  deriving DecidableEq, Repr

namespace Match

def absent : Match := ⟨false, false⟩

/-- A word, or still able to grow into one. -/
def viable (m : Match) : Bool :=
  m.isWord || m.hasLonger

/-- A word that no longer word extends. -/
def final (m : Match) : Bool :=
  m.isWord && !m.hasLonger

end Match

def lookup (t : Trie) (w : Bytes) : Match :=
  match t.walk w with
  | some s => ⟨s.terminal, !s.branches.isEmpty⟩
  | none => .absent

def contains (t : Trie) (w : Bytes) : Bool :=
  (t.lookup w).isWord

def isEmpty (t : Trie) : Bool :=
  !t.terminal && t.branches.isEmpty

def size (t : Trie) : Nat :=
  t.terminal.toNat + t.branches.size

/-- Some word is a proper beginning of another. -/
def hasNestedWords (t : Trie) : Bool :=
  (t.terminal && !t.branches.isEmpty) || t.branches.hasNestedWords

/-- Every word, each once. -/
def words (t : Trie) : List Bytes :=
  (if t.terminal then [[]] else []) ++ t.branches.words

@[simp] theorem walk_nil (t : Trie) : t.walk [] = some t := rfl

theorem walk_append (t : Trie) (u v : Bytes) :
    t.walk (u ++ v) = (t.walk u).bind fun s => s.walk v := by
  induction u generalizing t with
  | nil => rfl
  | cons b u ih =>
      simp only [List.cons_append, walk]
      cases t.branches.child? b with
      | none => rfl
      | some s => exact ih s

end Trie

end StatementLexer
