import StatementLexer.Proofs.Tables
import StatementLexer.Proofs.Trie
import StatementLexer.Token.Vocabulary

namespace StatementLexer

theorem Kind.eq_of_spelling? {j k : Kind} {w : Bytes} (hj : j.spelling? = some w)
    (hk : k.spelling? = some w) : j = k := by
  apply Kind.tables.injective j (mem_all j) k (mem_all k)
  · rw [hj]
    rfl
  · rw [hj, hk]

namespace Vocabulary

theorem trie_insert (v : Vocabulary) (k : Kind) :
    (v.insert k).trie = (k.spelling?.toList).foldl Trie.insert v.trie := by
  unfold insert
  cases k.spelling? <;> rfl

theorem trie_foldl (ks : List Kind) (v : Vocabulary) :
    (ks.foldl insert v).trie = (ks.filterMap Kind.spelling?).foldl Trie.insert v.trie := by
  induction ks generalizing v with
  | nil => rfl
  | cons k ks ih =>
      rw [List.foldl_cons, ih, trie_insert, List.filterMap_cons]
      cases k.spelling? <;> rfl

theorem trie_ofKinds (ks : List Kind) :
    (ofKinds ks).trie = Trie.ofWords (ks.filterMap Kind.spelling?) :=
  trie_foldl ks empty

theorem isWord_lookup_ofKinds (ks : List Kind) (c : Bytes) :
    ((ofKinds ks).lookup c).isWord = true ↔ ∃ k ∈ ks, k.spelling? = some c := by
  rw [lookup, trie_ofKinds, Trie.isWord_lookup_ofWords, List.mem_filterMap]

theorem hasLonger_lookup_ofKinds (ks : List Kind) (c : Bytes) :
    ((ofKinds ks).lookup c).hasLonger = true ↔
      ∃ k ∈ ks, ∃ w, k.spelling? = some w ∧ c <+: w ∧ c ≠ w := by
  rw [lookup, trie_ofKinds, Trie.hasLonger_lookup_ofWords]
  simp only [List.mem_filterMap]
  constructor
  · rintro ⟨w, ⟨k, hk, hw⟩, hlonger⟩
    exact ⟨k, hk, w, hw, hlonger⟩
  · rintro ⟨k, hk, w, hw, hlonger⟩
    exact ⟨w, ⟨k, hk, hw⟩, hlonger⟩

theorem mem_of_mem_foldl (ks : List Kind) {v : Vocabulary} {e : Bytes × Kind}
    (h : e ∈ (ks.foldl insert v).table) : e ∈ v.table ∨ e.2 ∈ ks := by
  induction ks generalizing v with
  | nil => exact .inl h
  | cons k ks ih =>
      rcases ih h with h | h
      · rcases mem_table_insert h with h | ⟨-, rfl⟩
        · exact .inl h
        · exact .inr List.mem_cons_self
      · exact .inr (List.mem_cons_of_mem _ h)

theorem mem_of_kindOf? {ks : List Kind} {c : Bytes} {k : Kind}
    (h : (ofKinds ks).kindOf? c = some k) : k ∈ ks := by
  obtain ⟨before, after, heq, -⟩ := List.lookup_eq_some_iff.mp h
  have hmem : (c, k) ∈ (ofKinds ks).table := by
    rw [heq]
    exact List.mem_append_right _ List.mem_cons_self
  rcases mem_of_mem_foldl ks hmem with hmem | hmem
  · exact absurd hmem List.not_mem_nil
  · exact hmem

theorem lookup_filter_ne {w c : Bytes} (h : c ≠ w) (rows : List (Bytes × Kind)) :
    (rows.filter fun e => e.1 != w).lookup c = rows.lookup c := by
  induction rows with
  | nil => rfl
  | cons e rows ih =>
      obtain ⟨text, k⟩ := e
      by_cases hw : text = w
      · subst hw
        simp [List.lookup_cons, beq_false_of_ne h, ih]
      · by_cases hc : c = text
        · simp [hw, hc]
        · simp [List.lookup_cons, hw, beq_false_of_ne hc, ih]

theorem isSome_kindOf?_insert (v : Vocabulary) (k : Kind) (c : Bytes) :
    ((v.insert k).kindOf? c).isSome = true ↔
      (v.kindOf? c).isSome = true ∨ k.spelling? = some c := by
  unfold insert
  rcases hk : k.spelling? with _ | w
  · simp
  · by_cases hc : c = w
    · simp [kindOf?, hc]
    · have hlookup : List.lookup c ((w, k) :: v.table.filter fun e => e.1 != w) =
          v.table.lookup c := by
        rw [List.lookup_cons, beq_false_of_ne hc]
        exact lookup_filter_ne hc v.table
      simp only [kindOf?, hlookup, Option.some.injEq, Ne.symm hc, or_false]

theorem isSome_kindOf?_foldl (ks : List Kind) (v : Vocabulary) (c : Bytes) :
    ((ks.foldl insert v).kindOf? c).isSome = true ↔
      (v.kindOf? c).isSome = true ∨ ∃ k ∈ ks, k.spelling? = some c := by
  induction ks generalizing v with
  | nil => simp
  | cons k ks ih =>
      rw [List.foldl_cons, ih, isSome_kindOf?_insert, or_assoc]
      simp only [List.mem_cons, exists_eq_or_imp]

theorem kindOf?_ofKinds_eq_some_iff {ks : List Kind} {c : Bytes} {k : Kind} :
    (ofKinds ks).kindOf? c = some k ↔ k ∈ ks ∧ k.spelling? = some c := by
  constructor
  · intro h
    exact ⟨mem_of_kindOf? h, spelling?_of_kindOf? h⟩
  · rintro ⟨hk, hc⟩
    have hsome : ((ofKinds ks).kindOf? c).isSome = true :=
      (isSome_kindOf?_foldl ks empty c).mpr (.inr ⟨k, hk, hc⟩)
    obtain ⟨j, hj⟩ := Option.isSome_iff_exists.mp hsome
    rw [hj, Kind.eq_of_spelling? (spelling?_of_kindOf? hj) hc]

theorem kindOf?_ofKinds_eq_none_iff {ks : List Kind} {c : Bytes} :
    (ofKinds ks).kindOf? c = none ↔ ∀ k ∈ ks, k.spelling? ≠ some c := by
  constructor
  · intro h k hk hc
    rw [kindOf?_ofKinds_eq_some_iff.mpr ⟨hk, hc⟩] at h
    cases h
  · intro h
    rcases hc : (ofKinds ks).kindOf? c with _ | k
    · rfl
    · obtain ⟨hk, hw⟩ := kindOf?_ofKinds_eq_some_iff.mp hc
      exact absurd hw (h k hk)

end Vocabulary

end StatementLexer
