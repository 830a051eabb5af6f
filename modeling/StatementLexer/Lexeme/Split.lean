import StatementLexer.Lexeme.Word

namespace StatementLexer.Lexeme

/-- The bytes before the first closing mark of a block comment, and the bytes after it. -/
def closeComment? : Bytes → Option (Bytes × Bytes)
  | [] => none
  | b :: rest =>
      if b = Byte.asterisk ∧ rest.head? = some Byte.slash then some ([], rest.tail)
      else (closeComment? rest).map fun r => (b :: r.1, r.2)

/-- The unit that a slash opens, when `rest` follows the slash. -/
def slash : Bytes → Lexeme × Bytes
  | [] => (.symbol .divide, [])
  | c :: rest =>
      if c = Byte.slash then
        (.lineComment (rest.takeWhile (· != Byte.lineFeed)), rest.dropWhile (· != Byte.lineFeed))
      else if c = Byte.asterisk then
        match closeComment? rest with
        | some (text, rest') => (.blockComment text, rest')
        | none => (.openComment rest, [])
      else (.symbol .divide, c :: rest)

/-- The string that the delimiter `q` opens, when `rest` follows the delimiter. No byte escapes
the delimiter. -/
def string (q : Quote) (rest : Bytes) : Lexeme × Bytes :=
  match rest.dropWhile (· != q.byte) with
  | [] => (.openQuoted q rest, [])
  | _ :: rest' => (.quoted q (rest.takeWhile (· != q.byte)), rest')

/-- The first unit of `b :: rest`, with the input after it. -/
def first (b : UInt8) (rest : Bytes) : Lexeme × Bytes :=
  if b = Byte.lineFeed then (.lineBreak, rest)
  else if Byte.isWhitespace b then (.blank b, rest)
  else if b = Byte.slash then slash rest
  else if b = Byte.doubleQuote then string .double rest
  else if b = Byte.backquote then string .back rest
  else if b = Byte.semicolon then (.symbol .semicolon, rest)
  else if Byte.isDigit b then
    (.number (b :: rest.takeWhile Byte.isDigit), rest.dropWhile Byte.isDigit)
  else word b rest

theorem closeComment?_bytes {input text rest : Bytes}
    (h : closeComment? input = some (text, rest)) :
    text ++ [Byte.asterisk, Byte.slash] ++ rest = input := by
  induction input generalizing text with
  | nil => cases h
  | cons b input ih =>
      rw [closeComment?] at h
      split at h
      · next hb =>
          obtain ⟨rfl, hslash⟩ := hb
          cases h
          cases input with
          | nil => cases hslash
          | cons c input =>
              cases hslash
              rfl
      · obtain ⟨r, hr, heq⟩ := Option.map_eq_some_iff.mp h
        cases heq
        exact congrArg (b :: ·) (ih hr)

theorem slash_bytes (rest : Bytes) :
    (slash rest).1.bytes ≠ [] ∧ (slash rest).1.bytes ++ (slash rest).2 = Byte.slash :: rest := by
  cases rest with
  | nil => exact ⟨List.cons_ne_nil _ _, rfl⟩
  | cons c rest =>
      rw [slash]
      split
      · next hc =>
          subst hc
          refine ⟨List.cons_ne_nil _ _, ?_⟩
          simp only [bytes, List.cons_append, List.takeWhile_append_dropWhile]
      · split
        · next hc =>
            subst hc
            split
            · next h =>
                refine ⟨List.cons_ne_nil _ _, ?_⟩
                simp only [bytes, List.cons_append]
                rw [closeComment?_bytes h]
            · exact ⟨List.cons_ne_nil _ _, List.append_nil _⟩
        · exact ⟨List.cons_ne_nil _ _, rfl⟩

theorem dropWhile_ne_cons {q c : UInt8} {input rest : Bytes}
    (h : input.dropWhile (· != q) = c :: rest) : c = q := by
  have hhead := List.head?_dropWhile_not (· != q) input
  rw [h] at hhead
  simpa using hhead

theorem string_bytes (q : Quote) (rest : Bytes) :
    (string q rest).1.bytes ≠ [] ∧
      (string q rest).1.bytes ++ (string q rest).2 = q.byte :: rest := by
  unfold string
  split
  · exact ⟨List.cons_ne_nil _ _, List.append_nil _⟩
  · next c rest' h =>
      refine ⟨List.cons_ne_nil _ _, ?_⟩
      have happ := @List.takeWhile_append_dropWhile _ (· != q.byte) rest
      rw [h, dropWhile_ne_cons h] at happ
      rw [bytes, List.cons_append, List.append_assoc]
      exact congrArg (q.byte :: ·) happ

theorem first_bytes (b : UInt8) (rest : Bytes) :
    (first b rest).1.bytes ≠ [] ∧ (first b rest).1.bytes ++ (first b rest).2 = b :: rest := by
  unfold first
  split
  · next h => exact ⟨List.cons_ne_nil _ _, h ▸ rfl⟩
  split
  · exact ⟨List.cons_ne_nil _ _, rfl⟩
  split
  · next h => exact h ▸ slash_bytes rest
  split
  · next h => exact h ▸ string_bytes .double rest
  split
  · next h => exact h ▸ string_bytes .back rest
  split
  · next h => exact ⟨List.cons_ne_nil _ _, h ▸ rfl⟩
  split
  · refine ⟨List.cons_ne_nil _ _, ?_⟩
    rw [bytes, List.cons_append, List.takeWhile_append_dropWhile]
  · exact word_bytes b rest

theorem first_length (b : UInt8) (rest : Bytes) :
    (first b rest).2.length < (b :: rest).length := by
  obtain ⟨hne, heq⟩ := first_bytes b rest
  have hpos := List.length_pos_iff.mpr hne
  rw [← heq, List.length_append]
  omega

def split : Bytes → List Lexeme
  | [] => []
  | b :: rest => (first b rest).1 :: split (first b rest).2
termination_by source => source.length
decreasing_by exact first_length b rest

@[simp] theorem split_nil : split [] = [] := by
  rw [split]

theorem split_cons (b : UInt8) (rest : Bytes) :
    split (b :: rest) = (first b rest).1 :: split (first b rest).2 := by
  rw [split]

/-- The units of a source, one after the other, are the source. -/
theorem flatMap_bytes_split (source : Bytes) : (split source).flatMap bytes = source := by
  fun_induction split source with
  | case1 => rfl
  | case2 b rest ih =>
      rw [List.flatMap_cons, ih]
      exact (first_bytes b rest).2

end StatementLexer.Lexeme
