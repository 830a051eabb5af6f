import StatementLexer.Proofs.TrieSummary
import StatementLexer.Proofs.Word

namespace StatementLexer.Vocabulary

theorem mem_table_of_kindOf? {v : Vocabulary} {c : Bytes} {k : Kind} (h : v.kindOf? c = some k) :
    (c, k) ∈ v.table := by
  obtain ⟨before, after, heq, -⟩ := List.lookup_eq_some_iff.mp h
  rw [heq]
  exact List.mem_append_right _ List.mem_cons_self

theorem mem_table_ofKinds_iff {ks : List Kind} {e : Bytes × Kind} :
    e ∈ (ofKinds ks).table ↔ e.2 ∈ ks ∧ e.2.spelling? = some e.1 := by
  constructor
  · intro h
    refine ⟨?_, spelling?_of_mem_table h⟩
    rcases mem_of_mem_foldl ks h with hmem | hmem
    · exact absurd hmem List.not_mem_nil
    · exact hmem
  · intro h
    exact mem_table_of_kindOf? (kindOf?_ofKinds_eq_some_iff.mpr h)

theorem nodup_texts_insert {v : Vocabulary} (h : (v.table.map Prod.fst).Nodup) (k : Kind) :
    ((v.insert k).table.map Prod.fst).Nodup := by
  unfold insert
  split
  · next w hw =>
      rw [List.map_cons, List.nodup_cons]
      refine ⟨?_, h.sublist (List.filter_sublist.map _)⟩
      intro hmem
      obtain ⟨e, he, heq⟩ := List.mem_map.mp hmem
      simpa [heq] using (List.mem_filter.mp he).2
  · exact h

theorem nodup_texts_foldl (ks : List Kind) {v : Vocabulary} (h : (v.table.map Prod.fst).Nodup) :
    ((ks.foldl insert v).table.map Prod.fst).Nodup := by
  induction ks generalizing v with
  | nil => exact h
  | cons k ks ih => exact ih (nodup_texts_insert h k)

theorem nodup_texts (ks : List Kind) : ((ofKinds ks).table.map Prod.fst).Nodup :=
  nodup_texts_foldl ks List.nodup_nil

theorem nodup_kinds (ks : List Kind) : ((ofKinds ks).table.map Prod.snd).Nodup := by
  have hspelling : ((ofKinds ks).table.map Prod.snd).map Kind.spelling? =
      ((ofKinds ks).table.map Prod.fst).map some := by
    rw [List.map_map, List.map_map]
    apply List.map_congr_left
    intro e he
    exact spelling?_of_mem_table he
  apply List.Nodup.of_map Kind.spelling?
  rw [hspelling]
  exact (nodup_texts ks).map fun _ _ heq => Option.some.inj heq

theorem size_eq_trie_size (ks : List Kind) : (ofKinds ks).size = (ofKinds ks).trie.size := by
  have hperm : ((ofKinds ks).table.map Prod.fst).Perm (ks.filterMap Kind.spelling?).dedup := by
    rw [List.perm_ext_iff_of_nodup (nodup_texts ks) (List.nodup_dedup _)]
    intro w
    rw [List.mem_dedup, List.mem_filterMap, List.mem_map]
    constructor
    · rintro ⟨e, he, rfl⟩
      exact ⟨e.2, mem_table_ofKinds_iff.mp he⟩
    · rintro ⟨k, hk⟩
      exact ⟨(w, k), mem_table_ofKinds_iff.mpr hk, rfl⟩
  rw [trie_ofKinds, Trie.size_ofWords, ← hperm.length_eq, List.length_map]
  rfl

theorem size_ofKinds (ks : List Kind) :
    (ofKinds ks).size = (ks.filter fun k => k.spelling?.isSome).dedup.length := by
  have hperm : ((ofKinds ks).table.map Prod.snd).Perm
      (ks.filter fun k => k.spelling?.isSome).dedup := by
    rw [List.perm_ext_iff_of_nodup (nodup_kinds ks) (List.nodup_dedup _)]
    intro k
    rw [List.mem_dedup, List.mem_filter, Option.isSome_iff_exists, List.mem_map]
    constructor
    · rintro ⟨e, he, rfl⟩
      obtain ⟨hk, hw⟩ := mem_table_ofKinds_iff.mp he
      exact ⟨hk, e.1, hw⟩
    · rintro ⟨hk, w, hw⟩
      exact ⟨(w, k), mem_table_ofKinds_iff.mpr ⟨hk, hw⟩, rfl⟩
  rw [← hperm.length_eq, List.length_map]
  rfl

theorem isWord_iff_exists_kindOf? (ks : List Kind) (c : Bytes) :
    ((ofKinds ks).lookup c).isWord = true ↔ ∃ k, (ofKinds ks).kindOf? c = some k := by
  rw [isWord_lookup_ofKinds]
  simp only [kindOf?_ofKinds_eq_some_iff]

theorem exists_kindOf?_of_viable {b : UInt8} (h : (operators.lookup [b]).viable = true) :
    ∃ k, operators.kindOf? [b] = some k := by
  rw [Trie.Match.viable, Bool.or_eq_true] at h
  have hstarts : Kind.startsOperator b = true := by
    apply List.any_eq_true.mpr
    rcases h with hword | hlonger
    · obtain ⟨k, hk, hw⟩ := (isWord_lookup_ofKinds _ _).mp hword
      exact ⟨k, hk, by simp [hw]⟩
    · obtain ⟨k, hk, w, hw, ⟨more, rfl⟩, -⟩ := (hasLonger_lookup_ofKinds _ _).mp hlonger
      exact ⟨k, hk, by simp [hw]⟩
  obtain ⟨k, hk, hw⟩ := Kind.exists_operator_of_startsOperator hstarts
  exact ⟨k, kindOf?_ofKinds_eq_some_iff.mpr ⟨hk, hw⟩⟩

open Lexeme

theorem operatorPair?_of_isWord {b c : UInt8} (h : (operators.lookup [b, c]).isWord = true)
    (rest : Bytes) :
    ∃ k, operators.kindOf? [b, c] = some k ∧ operatorPair? b (c :: rest) = some (k, rest) := by
  obtain ⟨k, hk⟩ := (isWord_iff_exists_kindOf? _ _).mp h
  have hkind : operators.kindOf? [b, c] = some k := hk
  refine ⟨k, hkind, ?_⟩
  rw [operatorPair?_cons, hkind]
  rfl

theorem operator?_of_viable {b : UInt8} (h : (operators.lookup [b]).viable = true)
    (rest : Bytes) :
    ∃ k, operators.kindOf? [b] = some k ∧
      operator? b rest = some ((operatorPair? b rest).getD (k, rest)) := by
  obtain ⟨k, hk⟩ := exists_kindOf?_of_viable h
  refine ⟨k, hk, ?_⟩
  rw [operator?_eq, hk]
  cases operatorPair? b rest <;> rfl

theorem keyword_of_isWord {read : Bytes} {b : UInt8}
    (h : (keywords.lookup (read ++ [b])).isWord = true) (rest : Bytes) :
    ∃ k, keywords.kindOf? (read ++ [b]) = some k ∧
      keyword read (b :: rest) =
        (if rest.head?.any Byte.isIdentContinue then .seed (read ++ [b]) else .keyword k, rest) := by
  obtain ⟨k, hk⟩ := (isWord_iff_exists_kindOf? _ _).mp h
  have hkind : keywords.kindOf? (read ++ [b]) = some k := hk
  refine ⟨k, hkind, ?_⟩
  simp only [keyword, h, hkind, if_true]
  split <;> rfl

/-- Trie and table of a vocabulary agree on every candidate and in number. Reading an operator or a
keyword therefore never finds a text that has no kind: a pair that the trie knows is an operator, so
is a single byte that an operator begins with, and a keyword is given up only for a name byte behind
it. -/
theorem ofKinds_halves_agree :
    (∀ (ks : List Kind) (c : Bytes),
      (∀ k, (ofKinds ks).kindOf? c = some k ↔ k ∈ ks ∧ k.spelling? = some c) ∧
        (((ofKinds ks).lookup c).isWord = true ↔ ∃ k, (ofKinds ks).kindOf? c = some k) ∧
        (((ofKinds ks).lookup c).hasLonger = true ↔
          ∃ k ∈ ks, ∃ w, k.spelling? = some w ∧ c <+: w ∧ c ≠ w)) ∧
      (∀ ks : List Kind, (ofKinds ks).size = (ofKinds ks).trie.size ∧
        (ofKinds ks).size = (ks.filter fun k => k.spelling?.isSome).dedup.length) ∧
      (∀ b c rest, (operators.lookup [b, c]).isWord = true →
        ∃ k, operators.kindOf? [b, c] = some k ∧
          operatorPair? b (c :: rest) = some (k, rest)) ∧
      (∀ b rest, (operators.lookup [b]).viable = true →
        ∃ k, operators.kindOf? [b] = some k ∧
          operator? b rest = some ((operatorPair? b rest).getD (k, rest))) ∧
      ∀ read b rest, (keywords.lookup (read ++ [b])).isWord = true →
        ∃ k, keywords.kindOf? (read ++ [b]) = some k ∧
          keyword read (b :: rest) =
            (if rest.head?.any Byte.isIdentContinue then .seed (read ++ [b]) else .keyword k,
              rest) := by
  refine ⟨?_, ?_, ?_, ?_, ?_⟩
  · intro ks c
    exact ⟨fun _ => kindOf?_ofKinds_eq_some_iff, isWord_iff_exists_kindOf? ks c,
      hasLonger_lookup_ofKinds ks c⟩
  · intro ks
    exact ⟨size_eq_trie_size ks, size_ofKinds ks⟩
  · intro b c rest h
    exact operatorPair?_of_isWord h rest
  · intro b rest h
    exact operator?_of_viable h rest
  · intro read b rest h
    exact keyword_of_isWord h rest

theorem ofKinds_halves_agree_repeated :
    (ofKinds [.lt, .endOfLine, .leftShift, .lt]).trie.size = 2 ∧
      (∃ k, operators.kindOf? (Bytes.ofString "<<") = some k ∧
        operatorPair? 0x3C (Bytes.ofString "<=") = some (k, Bytes.ofString "=")) ∧
      (∃ k, operators.kindOf? (Bytes.ofString "&") = some k ∧
        operator? 0x26 (Bytes.ofString "=") = some (k, Bytes.ofString "=")) ∧
      ∃ k, keywords.kindOf? (Bytes.ofString "if") = some k ∧
        keyword (Bytes.ofString "i") (Bytes.ofString "f(") = (.keyword k, Bytes.ofString "(") ∧
        keyword (Bytes.ofString "i") (Bytes.ofString "f1") =
          (.seed (Bytes.ofString "if"), Bytes.ofString "1") := by
  obtain ⟨-, hsize, hpair, hsingle, hkeyword⟩ := ofKinds_halves_agree
  refine ⟨?_, ?_, ?_, ?_⟩
  · obtain ⟨hsame, hcount⟩ := hsize [.lt, .endOfLine, .leftShift, .lt]
    rw [← hsame, hcount]
    decide
  · exact hpair 0x3C 0x3C (Bytes.ofString "=") (by decide)
  · exact hsingle 0x26 (Bytes.ofString "=") (by decide)
  · obtain ⟨k, hk, hread⟩ := hkeyword (Bytes.ofString "i") 0x66 (Bytes.ofString "(") (by decide)
    obtain ⟨j, hj, hname⟩ := hkeyword (Bytes.ofString "i") 0x66 (Bytes.ofString "1") (by decide)
    exact ⟨k, hk, hread, hname⟩

end StatementLexer.Vocabulary
