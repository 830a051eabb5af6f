import StatementLexer.Token.Kind
import StatementLexer.Trie

namespace StatementLexer

/-- A set of fixed texts: the trie that decides how far to read, and the table from a text to
its kind. -/
structure Vocabulary where
  trie : Trie
  table : List (Bytes × Kind)
  deriving DecidableEq, Repr

namespace Vocabulary

def empty : Vocabulary := ⟨.empty, []⟩

instance : Inhabited Vocabulary := ⟨empty⟩

/-- Adds the text of `k`; a kind without one changes nothing. -/
def insert (v : Vocabulary) (k : Kind) : Vocabulary :=
  match k.spelling? with
  | some w => ⟨v.trie.insert w, (w, k) :: v.table.filter fun e => e.1 != w⟩
  | none => v

def ofKinds (ks : List Kind) : Vocabulary :=
  ks.foldl insert empty

def operators : Vocabulary := ofKinds Kind.operators

def keywords : Vocabulary := ofKinds Kind.keywords

def lookup (v : Vocabulary) (w : Bytes) : Trie.Match :=
  v.trie.lookup w

def kindOf? (v : Vocabulary) (w : Bytes) : Option Kind :=
  v.table.lookup w

def size (v : Vocabulary) : Nat :=
  v.table.length

def isEmpty (v : Vocabulary) : Bool :=
  v.table.isEmpty

theorem mem_table_insert {v : Vocabulary} {k : Kind} {e : Bytes × Kind}
    (h : e ∈ (v.insert k).table) : e ∈ v.table ∨ k.spelling? = some e.1 ∧ e.2 = k := by
  unfold insert at h
  split at h
  · next w hw =>
      rcases List.mem_cons.mp h with rfl | h
      · exact .inr ⟨hw, rfl⟩
      · exact .inl (List.mem_filter.mp h).1
  · exact .inl h

theorem spelling?_of_mem_foldl (ks : List Kind) {v : Vocabulary}
    (hv : ∀ e ∈ v.table, e.2.spelling? = some e.1) :
    ∀ e ∈ (ks.foldl insert v).table, e.2.spelling? = some e.1 := by
  induction ks generalizing v with
  | nil => exact hv
  | cons k ks ih =>
      apply ih
      intro e he
      rcases mem_table_insert he with he | ⟨hw, rfl⟩
      · exact hv e he
      · exact hw

/-- Every row of the table pairs a kind with its own text. -/
theorem spelling?_of_mem_table {ks : List Kind} {e : Bytes × Kind}
    (h : e ∈ (ofKinds ks).table) : e.2.spelling? = some e.1 :=
  spelling?_of_mem_foldl ks (fun _ he => absurd he List.not_mem_nil) e h

theorem spelling?_of_kindOf? {ks : List Kind} {w : Bytes} {k : Kind}
    (h : (ofKinds ks).kindOf? w = some k) : k.spelling? = some w := by
  have hmem : (w, k) ∈ (ofKinds ks).table := by
    obtain ⟨before, after, heq, -⟩ := List.lookup_eq_some_iff.mp h
    rw [heq]
    exact List.mem_append_right _ List.mem_cons_self
  exact spelling?_of_mem_table hmem

end Vocabulary

end StatementLexer
