import StatementLexer.Lexeme.Basic
import StatementLexer.Token.Vocabulary

namespace StatementLexer.Lexeme

def operatorPair? (b : UInt8) : Bytes → Option (Kind × Bytes)
  | [] => none
  | c :: rest =>
      if (Vocabulary.operators.lookup [b, c]).isWord then
        (Vocabulary.operators.kindOf? [b, c]).map fun k => (k, rest)
      else none

/-- The longest operator at the head of `b :: rest`, with the input after it. No operator has
more than two bytes. -/
def operator? (b : UInt8) (rest : Bytes) : Option (Kind × Bytes) :=
  let single := Vocabulary.operators.lookup [b]
  if single.viable then
    (if single.hasLonger then operatorPair? b rest else none) <|>
      (Vocabulary.operators.kindOf? [b]).map fun k => (k, rest)
  else none

/-- What an attempt to read a keyword comes to: a keyword, or the beginning of a name. -/
inductive Attempt where
  | keyword (k : Kind)
  | seed (text : Bytes)
  deriving DecidableEq, Repr

/-- Reads on while the bytes read so far begin a keyword, and stops at the first whole one. A
keyword that a name byte follows is the beginning of a name. -/
def keyword (read : Bytes) : Bytes → Attempt × Bytes
  | [] => (.seed read, [])
  | b :: rest =>
      let word := read ++ [b]
      let found := Vocabulary.keywords.lookup word
      if found.isWord then
        if rest.head?.any Byte.isIdentContinue then (.seed word, rest)
        else match Vocabulary.keywords.kindOf? word with
          | some k => (.keyword k, rest)
          | none => (.seed word, rest)
      else if found.hasLonger then keyword word rest
      else (.seed read, b :: rest)

/-- Completes a name: an empty beginning takes the next byte whatever it is, and every name byte
that follows belongs to it. -/
def extend : Bytes → Bytes → Bytes × Bytes
  | [], b :: rest =>
      (b :: rest.takeWhile Byte.isIdentContinue, rest.dropWhile Byte.isIdentContinue)
  | seed, rest =>
      (seed ++ rest.takeWhile Byte.isIdentContinue, rest.dropWhile Byte.isIdentContinue)

def word (b : UInt8) (rest : Bytes) : Lexeme × Bytes :=
  match operator? b rest with
  | some (k, rest') => (.symbol k, rest')
  | none =>
      match keyword [] (b :: rest) with
      | (.keyword k, rest') => (.symbol k, rest')
      | (.seed seed, rest') =>
          let r := extend seed rest'
          (.name r.1, r.2)

theorem bytes_symbol_of_kindOf? {ks : List Kind} {w : Bytes} {k : Kind}
    (h : (Vocabulary.ofKinds ks).kindOf? w = some k) : (symbol k).bytes = w := by
  rw [bytes, Vocabulary.spelling?_of_kindOf? h]
  rfl

theorem operator?_bytes {b : UInt8} {rest rest' : Bytes} {k : Kind}
    (h : operator? b rest = some (k, rest')) :
    (symbol k).bytes ≠ [] ∧ (symbol k).bytes ++ rest' = b :: rest := by
  unfold operator? at h
  dsimp only at h
  split at h
  · rw [Option.orElse_eq_orElse, Option.orElse_eq_or, Option.or_eq_some_iff] at h
    rcases h with h | ⟨-, h⟩
    · split at h
      · cases rest with
        | nil => cases h
        | cons c rest =>
            simp only [operatorPair?] at h
            split at h
            · obtain ⟨j, hj, heq⟩ := Option.map_eq_some_iff.mp h
              cases heq
              rw [bytes_symbol_of_kindOf? hj]
              exact ⟨List.cons_ne_nil _ _, rfl⟩
            · cases h
      · cases h
    · obtain ⟨j, hj, heq⟩ := Option.map_eq_some_iff.mp h
      cases heq
      rw [bytes_symbol_of_kindOf? hj]
      exact ⟨List.cons_ne_nil _ _, rfl⟩
  · cases h

/-- An attempt takes nothing but the bytes of its outcome off the input. -/
theorem keyword_bytes (read input : Bytes) :
    (∀ k rest, keyword read input = (.keyword k, rest) →
      (symbol k).bytes ≠ [] ∧ (symbol k).bytes ++ rest = read ++ input) ∧
      ∀ seed rest, keyword read input = (.seed seed, rest) → seed ++ rest = read ++ input := by
  induction input generalizing read with
  | nil => simp [keyword]
  | cons b input ih =>
      rw [keyword]
      split
      · split
        · simp
        · split
          · next k hk =>
              refine ⟨fun j rest h => ?_, fun seed rest h => by cases h⟩
              cases h
              rw [bytes_symbol_of_kindOf? hk]
              simp
          · simp
      · split
        · simpa using ih (read ++ [b])
        · simp

theorem extend_append (seed rest : Bytes) :
    (extend seed rest).1 ++ (extend seed rest).2 = seed ++ rest := by
  unfold extend
  split
  · rw [List.cons_append, List.takeWhile_append_dropWhile]
    rfl
  · rw [List.append_assoc, List.takeWhile_append_dropWhile]

theorem extend_ne_nil (seed rest : Bytes) (h : seed ++ rest ≠ []) : (extend seed rest).1 ≠ [] := by
  cases seed with
  | nil =>
      cases rest with
      | nil => exact absurd rfl h
      | cons b rest => exact List.cons_ne_nil _ _
  | cons a seed => exact List.cons_ne_nil _ _

theorem word_bytes (b : UInt8) (rest : Bytes) :
    (word b rest).1.bytes ≠ [] ∧ (word b rest).1.bytes ++ (word b rest).2 = b :: rest := by
  unfold word
  split
  · next k rest' h => exact operator?_bytes h
  · split
    · next k rest' h => exact (keyword_bytes [] (b :: rest)).1 k rest' h
    · next seed rest' h =>
        have heq : seed ++ rest' = b :: rest := (keyword_bytes [] (b :: rest)).2 seed rest' h
        refine ⟨extend_ne_nil seed rest' ?_, (extend_append seed rest').trans heq⟩
        rw [heq]
        exact List.cons_ne_nil _ _

end StatementLexer.Lexeme
