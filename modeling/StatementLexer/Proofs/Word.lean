import StatementLexer.Lexeme.Word
import StatementLexer.Proofs.Vocabulary

namespace StatementLexer

/-- No byte of the class `p` comes next. -/
def Ends (p : UInt8 → Bool) (rest : Bytes) : Prop :=
  ∀ c, rest.head? = some c → p c = false

theorem ends_nil (p : UInt8 → Bool) : Ends p [] := by
  intro c hc
  cases hc

@[simp] theorem ends_cons {p : UInt8 → Bool} {c : UInt8} {rest : Bytes} :
    Ends p (c :: rest) ↔ p c = false := by
  simp [Ends]

instance (p : UInt8 → Bool) (rest : Bytes) : Decidable (Ends p rest) :=
  match rest with
  | [] => isTrue (ends_nil p)
  | c :: _ => decidable_of_iff (p c = false) ends_cons.symm

theorem ends_append_of_ne_nil {p : UInt8 → Bool} {rest : Bytes} (hne : rest ≠ []) (more : Bytes) :
    Ends p (rest ++ more) ↔ Ends p rest := by
  rcases rest with _ | ⟨c, rest⟩
  · exact absurd rfl hne
  · rw [List.cons_append, ends_cons, ends_cons]

theorem eq_nil_of_ends {p : UInt8 → Bool} (hp : ∀ c, p c = true) {rest : Bytes}
    (h : Ends p rest) : rest = [] := by
  rcases rest with _ | ⟨c, rest⟩
  · rfl
  · simp [hp] at h

theorem ends_dropWhile (p : UInt8 → Bool) (rest : Bytes) : Ends p (rest.dropWhile p) := by
  intro c hc
  have hhead := List.head?_dropWhile_not p rest
  rw [hc] at hhead
  simpa using hhead

theorem takeWhile_append_of_ends {p : UInt8 → Bool} {run rest : Bytes}
    (hrun : ∀ c ∈ run, p c = true) (hrest : Ends p rest) : (run ++ rest).takeWhile p = run := by
  rw [List.takeWhile_append_of_pos hrun]
  rcases rest with _ | ⟨c, rest⟩
  · simp
  · simp [ends_cons.mp hrest]

theorem dropWhile_append_of_ends {p : UInt8 → Bool} {run rest : Bytes}
    (hrun : ∀ c ∈ run, p c = true) (hrest : Ends p rest) : (run ++ rest).dropWhile p = rest := by
  rw [List.dropWhile_append_of_pos hrun]
  rcases rest with _ | ⟨c, rest⟩
  · rfl
  · simp [ends_cons.mp hrest]

namespace Kind

theorem operator_length :
    ∀ k ∈ operators, ∃ w, k.spelling? = some w ∧ (w.length = 1 ∨ w.length = 2) := by
  intro k hk
  have hlength := tables.operator_length k hk
  rcases hw : k.spelling? with _ | w
  · rw [hw] at hlength
    cases hlength
  · rw [hw] at hlength
    exact ⟨w, rfl, by simpa using hlength⟩

theorem exists_operator_of_startsOperator {b : UInt8} (h : startsOperator b = true) :
    ∃ k ∈ operators, k.spelling? = some [b] := by
  obtain ⟨k, hk, hhead⟩ := List.any_eq_true.mp h
  obtain ⟨j, hj, hspelling⟩ := List.any_eq_true.mp (tables.operator_head k hk)
  obtain ⟨w, hw, hb⟩ := Option.bind_eq_some_iff.mp (beq_iff_eq.mp hhead)
  refine ⟨j, hj, ?_⟩
  rw [beq_iff_eq.mp hspelling, hw]
  rcases w with _ | ⟨x, w⟩
  · cases hb
  · cases hb
    simp

theorem keyword_eq_of_isPrefix {j k : Kind} (hj : j ∈ keywords) (hk : k ∈ keywords) {u w : Bytes}
    (hu : j.spelling? = some u) (hw : k.spelling? = some w) (h : u <+: w) : j = k := by
  apply tables.keyword_nested j hj k hk
  rw [hu, hw]
  exact List.isPrefixOf_iff_prefix.mpr h

theorem isIdentContinue_of_mem_keyword {k : Kind} (hk : k ∈ keywords) {w : Bytes}
    (hw : k.spelling? = some w) : ∀ c ∈ w, Byte.isIdentContinue c = true := by
  have hbytes := tables.keyword_bytes k hk
  rwa [hw] at hbytes

end Kind

namespace Lexeme

open Vocabulary

theorem operatorPair?_cons (b c : UInt8) (rest : Bytes) :
    operatorPair? b (c :: rest) = (Vocabulary.operators.kindOf? [b, c]).map fun k => (k, rest) := by
  rw [operatorPair?]
  split
  · rfl
  · next h =>
      have hnone : Vocabulary.operators.kindOf? [b, c] = none := by
        apply kindOf?_ofKinds_eq_none_iff.mpr
        intro k hk hw
        exact h ((isWord_lookup_ofKinds _ _).mpr ⟨k, hk, hw⟩)
      rw [hnone]
      rfl

theorem operatorPair?_eq_none {b : UInt8}
    (h : ¬ (Vocabulary.operators.lookup [b]).hasLonger = true) (rest : Bytes) :
    operatorPair? b rest = none := by
  rcases rest with _ | ⟨c, rest⟩
  · rfl
  · rw [operatorPair?_cons, Option.map_eq_none_iff]
    apply kindOf?_ofKinds_eq_none_iff.mpr
    intro k hk hw
    exact h ((hasLonger_lookup_ofKinds _ _).mpr ⟨k, hk, [b, c], hw, by simp, by simp⟩)

theorem operator?_eq (b : UInt8) (rest : Bytes) :
    operator? b rest = (operatorPair? b rest).or
      ((Vocabulary.operators.kindOf? [b]).map fun k => (k, rest)) := by
  have hsingle : ¬ (Vocabulary.operators.lookup [b]).isWord = true →
      Vocabulary.operators.kindOf? [b] = none := by
    intro h
    apply kindOf?_ofKinds_eq_none_iff.mpr
    intro k hk hw
    exact h ((isWord_lookup_ofKinds _ _).mpr ⟨k, hk, hw⟩)
  unfold operator?
  dsimp only
  by_cases hlonger : (Vocabulary.operators.lookup [b]).hasLonger = true
  · simp [Trie.Match.viable, hlonger]
  · rw [operatorPair?_eq_none hlonger]
    by_cases hword : (Vocabulary.operators.lookup [b]).isWord = true
    · simp [Trie.Match.viable, hlonger, hword]
    · simp [Trie.Match.viable, hlonger, hword, hsingle hword]

theorem pairs_eq_false_iff {k : Kind} {w : Bytes} (hw : k.spelling? = some w) (c : UInt8) :
    k.pairs c = false ↔ Vocabulary.operators.kindOf? (w ++ [c]) = none := by
  rw [Vocabulary.operators, kindOf?_ofKinds_eq_none_iff, Kind.pairs, List.any_eq_false]
  simp [hw]

theorem pairs_pair {k : Kind} {b c : UInt8} (hw : k.spelling? = some [b, c]) (d : UInt8) :
    k.pairs d = false := by
  rw [pairs_eq_false_iff hw, Vocabulary.operators, kindOf?_ofKinds_eq_none_iff]
  intro j hj hspelling
  obtain ⟨v, hv, hlength⟩ := Kind.operator_length j hj
  rw [hspelling] at hv
  cases hv
  simp at hlength

theorem pairs_of_single {b : UInt8} (hb : b ∈ [Byte.slash, Byte.semicolon]) {k : Kind}
    (hw : k.spelling? = some [b]) (c : UInt8) : k.pairs c = false := by
  rw [pairs_eq_false_iff hw, Vocabulary.operators, kindOf?_ofKinds_eq_none_iff]
  intro j hj hspelling
  have hsingle := (Kind.tables.single b hb).2 j hj (by rw [hspelling]; rfl)
  rw [hspelling] at hsingle
  simp at hsingle

/-- The operator at the head of an input is the one that nothing after it makes longer. -/
theorem operator?_eq_some_iff {b : UInt8} {rest rest' : Bytes} {k : Kind} :
    operator? b rest = some (k, rest') ↔
      k ∈ Kind.operators ∧ Ends k.pairs rest' ∧
        ∃ w, k.spelling? = some w ∧ w ++ rest' = b :: rest := by
  rw [operator?_eq]
  constructor
  · intro h
    rcases Option.or_eq_some_iff.mp h with h | ⟨hpair, h⟩
    · rcases rest with _ | ⟨c, rest⟩
      · cases h
      · rw [operatorPair?_cons] at h
        obtain ⟨j, hj, heq⟩ := Option.map_eq_some_iff.mp h
        cases heq
        obtain ⟨hmem, hw⟩ := kindOf?_ofKinds_eq_some_iff.mp hj
        exact ⟨hmem, fun d _ => pairs_pair hw d, [b, c], hw, rfl⟩
    · obtain ⟨j, hj, heq⟩ := Option.map_eq_some_iff.mp h
      cases heq
      obtain ⟨hmem, hw⟩ := kindOf?_ofKinds_eq_some_iff.mp hj
      refine ⟨hmem, ?_, [b], hw, rfl⟩
      rcases rest with _ | ⟨c, rest⟩
      · exact ends_nil _
      · rw [operatorPair?_cons, Option.map_eq_none_iff] at hpair
        exact ends_cons.mpr ((pairs_eq_false_iff hw c).mpr hpair)
  · rintro ⟨hmem, hends, w, hw, hbytes⟩
    have hkind : Vocabulary.operators.kindOf? w = some k :=
      kindOf?_ofKinds_eq_some_iff.mpr ⟨hmem, hw⟩
    obtain ⟨v, hv, hlength⟩ := Kind.operator_length k hmem
    rw [hw] at hv
    cases hv
    match w, hlength with
    | [x], _ =>
        obtain ⟨rfl, rfl⟩ : x = b ∧ rest' = rest := by simpa using hbytes
        have hpair : operatorPair? x rest' = none := by
          rcases rest' with _ | ⟨c, rest'⟩
          · rfl
          · rw [operatorPair?_cons, Option.map_eq_none_iff]
            exact (pairs_eq_false_iff hw c).mp (ends_cons.mp hends)
        rw [hpair, hkind]
        rfl
    | [x, y], _ =>
        obtain ⟨rfl, rfl⟩ : x = b ∧ y :: rest' = rest := by simpa using hbytes
        rw [operatorPair?_cons, hkind]
        rfl

theorem operator?_eq_none_iff {b : UInt8} {rest : Bytes} :
    operator? b rest = none ↔ Kind.startsOperator b = false := by
  rw [operator?_eq, Option.or_eq_none_iff, Option.map_eq_none_iff]
  constructor
  · rintro ⟨-, hsingle⟩
    apply Bool.eq_false_iff.mpr
    intro hb
    obtain ⟨k, hk, hw⟩ := Kind.exists_operator_of_startsOperator hb
    rw [Vocabulary.operators, kindOf?_ofKinds_eq_none_iff] at hsingle
    exact hsingle k hk hw
  · intro hb
    have hnone : ∀ w : Bytes, Vocabulary.operators.kindOf? (b :: w) = none := by
      intro w
      apply kindOf?_ofKinds_eq_none_iff.mpr
      intro k hk hw
      have := List.any_eq_false.mp hb k hk
      rw [hw] at this
      exact this (by simp)
    refine ⟨?_, hnone []⟩
    rcases rest with _ | ⟨c, rest⟩
    · rfl
    · rw [operatorPair?_cons, hnone [c], Option.map_none]

theorem isIdentContinue_of_viable {w : Bytes}
    (h : (Vocabulary.keywords.lookup w).isWord = true ∨
      (Vocabulary.keywords.lookup w).hasLonger = true) :
    ∀ c ∈ w, Byte.isIdentContinue c = true := by
  intro c hc
  rcases h with h | h
  · obtain ⟨k, hk, hw⟩ := (isWord_lookup_ofKinds _ _).mp h
    exact Kind.isIdentContinue_of_mem_keyword hk hw c hc
  · obtain ⟨k, hk, v, hv, hbegin, -⟩ := (hasLonger_lookup_ofKinds _ _).mp h
    exact Kind.isIdentContinue_of_mem_keyword hk hv c (hbegin.subset hc)

theorem keyword_of_spelling? {k : Kind} (hk : k ∈ Kind.keywords) {read w rest : Bytes}
    (hspelling : k.spelling? = some (read ++ w)) (hw : w ≠ [])
    (hrest : Ends Byte.isIdentContinue rest) : keyword read (w ++ rest) = (.keyword k, rest) := by
  induction w generalizing read with
  | nil => exact absurd rfl hw
  | cons b w ih =>
      rw [List.cons_append, keyword]
      rcases w with _ | ⟨c, w⟩
      · have hword : (Vocabulary.keywords.lookup (read ++ [b])).isWord = true :=
          (isWord_lookup_ofKinds _ _).mpr ⟨k, hk, hspelling⟩
        have hkind : Vocabulary.keywords.kindOf? (read ++ [b]) = some k :=
          kindOf?_ofKinds_eq_some_iff.mpr ⟨hk, hspelling⟩
        have hany : rest.head?.any Byte.isIdentContinue = false := by
          rcases rest with _ | ⟨c, rest⟩
          · rfl
          · simpa using hrest
        simp [hword, hkind, hany]
      · have hspelling' : k.spelling? = some (read ++ [b] ++ c :: w) := by simpa using hspelling
        have hlonger : (Vocabulary.keywords.lookup (read ++ [b])).hasLonger = true := by
          apply (hasLonger_lookup_ofKinds _ _).mpr
          exact ⟨k, hk, _, hspelling', List.prefix_append _ _, by simp⟩
        -- A shorter keyword on the way would be a beginning of this one.
        have hword : ¬ (Vocabulary.keywords.lookup (read ++ [b])).isWord = true := by
          intro h
          obtain ⟨j, hj, hshort⟩ := (isWord_lookup_ofKinds _ _).mp h
          have := Kind.keyword_eq_of_isPrefix hj hk hshort hspelling' (List.prefix_append _ _)
          subst this
          rw [hshort] at hspelling'
          simp at hspelling'
        simp only [hword, hlonger, if_true]
        exact ih hspelling' (List.cons_ne_nil _ _)

theorem keyword_eq_keyword {k : Kind} {read input rest : Bytes}
    (h : keyword read input = (.keyword k, rest)) :
    k ∈ Kind.keywords ∧ Ends Byte.isIdentContinue rest := by
  induction input generalizing read with
  | nil => cases h
  | cons b input ih =>
      rw [keyword] at h
      split at h
      · split at h
        · cases h
        · next hany =>
            split at h
            · next j hj =>
                cases h
                refine ⟨(kindOf?_ofKinds_eq_some_iff.mp hj).1, fun c hc => ?_⟩
                simpa [hc] using hany
            · cases h
      · split at h
        · exact ih h
        · cases h

theorem keyword_eq_seed {read input seed rest : Bytes}
    (hread : ∀ c ∈ read, Byte.isIdentContinue c = true)
    (h : keyword read input = (.seed seed, rest)) :
    ∀ c ∈ seed, Byte.isIdentContinue c = true := by
  induction input generalizing read with
  | nil =>
      cases h
      exact hread
  | cons b input ih =>
      rw [keyword] at h
      split at h
      · next hword =>
          have hident := isIdentContinue_of_viable (.inl hword)
          split at h
          · cases h
            exact hident
          · split at h
            · cases h
            · cases h
              exact hident
      · split at h
        · next hlonger => exact ih (isIdentContinue_of_viable (.inr hlonger)) h
        · cases h
          exact hread

theorem extend_of_append {seed rest : Bytes} {b : UInt8} {tail : Bytes}
    (hseed : ∀ c ∈ seed, Byte.isIdentContinue c = true) (h : seed ++ rest = b :: tail) :
    extend seed rest =
      (b :: tail.takeWhile Byte.isIdentContinue, tail.dropWhile Byte.isIdentContinue) := by
  rcases seed with _ | ⟨a, seed⟩
  · cases h
    rfl
  · obtain ⟨rfl, rfl⟩ : a = b ∧ seed ++ rest = tail := by simpa using h
    have hseed' : ∀ c ∈ seed, Byte.isIdentContinue c = true :=
      fun c hc => hseed c (List.mem_cons_of_mem _ hc)
    rw [extend, List.takeWhile_append_of_pos hseed', List.dropWhile_append_of_pos hseed']
    · rfl
    · intro c rest' heq
      cases heq

theorem word_of_operator? {b : UInt8} {rest rest' : Bytes} {k : Kind}
    (h : operator? b rest = some (k, rest')) : word b rest = (.symbol k, rest') := by
  rw [word, h]

theorem word_of_not_startsOperator {b : UInt8} (h : Kind.startsOperator b = false) (rest : Bytes) :
    word b rest =
      (((Vocabulary.keywords.kindOf? (b :: rest.takeWhile Byte.isIdentContinue)).elim
          (.name (b :: rest.takeWhile Byte.isIdentContinue)) .symbol),
        rest.dropWhile Byte.isIdentContinue) := by
  rw [word, operator?_eq_none_iff.mpr h]
  dsimp only
  split
  · next k rest' hkeyword =>
      obtain ⟨hk, hends⟩ := keyword_eq_keyword hkeyword
      obtain ⟨hne, hbytes⟩ := (keyword_bytes [] (b :: rest)).1 k rest' hkeyword
      obtain ⟨w, hw⟩ : ∃ w, k.spelling? = some w := by
        rcases hw : k.spelling? with _ | w
        · simp [bytes, hw] at hne
        · exact ⟨w, rfl⟩
      have hident := Kind.isIdentContinue_of_mem_keyword hk hw
      rw [bytes, hw] at hne hbytes
      rcases w with _ | ⟨a, tail⟩
      · exact absurd rfl hne
      · obtain ⟨rfl, rfl⟩ : a = b ∧ tail ++ rest' = rest := by simpa using hbytes
        have htail : ∀ c ∈ tail, Byte.isIdentContinue c = true :=
          fun c hc => hident c (List.mem_cons_of_mem _ hc)
        have hkind : Vocabulary.keywords.kindOf? (a :: tail) = some k :=
          kindOf?_ofKinds_eq_some_iff.mpr ⟨hk, hw⟩
        rw [takeWhile_append_of_ends htail hends, dropWhile_append_of_ends htail hends, hkind]
        rfl
  · next seed rest' hseed =>
      have hbytes := (keyword_bytes [] (b :: rest)).2 seed rest' hseed
      have hident := keyword_eq_seed (fun c hc => absurd hc List.not_mem_nil) hseed
      rw [extend_of_append hident hbytes]
      rcases hkind : Vocabulary.keywords.kindOf? (b :: rest.takeWhile Byte.isIdentContinue)
        with _ | k
      · rfl
      · -- A keyword that ends here would not have failed.
        obtain ⟨hk, hw⟩ := kindOf?_ofKinds_eq_some_iff.mp hkind
        have hread : keyword [] (b :: rest.takeWhile Byte.isIdentContinue ++
            rest.dropWhile Byte.isIdentContinue) = (.keyword k, _) :=
          keyword_of_spelling? hk hw (List.cons_ne_nil _ _) (ends_dropWhile _ _)
        rw [List.cons_append, List.takeWhile_append_dropWhile, hseed] at hread
        cases hread

end Lexeme

end StatementLexer
