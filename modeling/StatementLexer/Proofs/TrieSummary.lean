import Mathlib.Data.List.Dedup
import StatementLexer.Proofs.Trie

namespace StatementLexer.Trie

theorem length_words_root (t : Trie) :
    t.words.length = t.terminal.toNat + t.branches.words.length := by
  rw [words, List.length_append]
  cases t.terminal <;> rfl

namespace Branches

/-- No byte stands twice among the continuations of a node. -/
def Distinct : Branches → Prop
  | .nil => True
  | .cons byte _ below others => others.child? byte = none ∧ below.Distinct ∧ others.Distinct

theorem distinct_chain (b : UInt8) (w : Bytes) : (chain b w).Distinct := by
  induction w generalizing b with
  | nil => exact ⟨rfl, trivial, trivial⟩
  | cons c w ih => exact ⟨rfl, ih c, trivial⟩

theorem Distinct.insert {bs : Branches} (h : bs.Distinct) (b : UInt8) (w : Bytes) :
    (bs.insert b w).Distinct := by
  induction bs generalizing b w with
  | nil => exact distinct_chain b w
  | cons byte terminal below others ihbelow ihothers =>
      obtain ⟨hbyte, hbelow, hothers⟩ := h
      unfold Branches.insert
      by_cases hb : byte = b
      · rw [if_pos hb]
        rcases w with _ | ⟨c, w⟩
        · exact ⟨hbyte, hbelow, hothers⟩
        · exact ⟨hbyte, ihbelow hbelow c w, hothers⟩
      · rw [if_neg hb]
        refine ⟨?_, hbelow, ihothers hothers b w⟩
        rw [child?_insert_of_ne (Ne.symm hb), hbyte]

theorem Distinct.child? {bs : Branches} (h : bs.Distinct) {b : UInt8} {s : Trie}
    (hs : bs.child? b = some s) : s.branches.Distinct := by
  induction bs with
  | nil => cases hs
  | cons byte terminal below others _ ih =>
      rw [Branches.child?] at hs
      split at hs
      · cases hs
        exact h.2.1
      · exact ih h.2.2 hs

theorem Distinct.child?_cons {byte b : UInt8} {terminal : Bool} {below others : Branches}
    (h : (cons byte terminal below others).Distinct) {s : Trie} (hs : others.child? b = some s) :
    (cons byte terminal below others).child? b = some s := by
  have hne : byte ≠ b := by
    rintro rfl
    rw [h.1] at hs
    cases hs
  rw [Branches.child?, if_neg hne, hs]

theorem child?_cons_self (byte : UInt8) (terminal : Bool) (below others : Branches) :
    (cons byte terminal below others).child? byte = some ⟨terminal, below⟩ := by
  rw [child?, if_pos rfl]

theorem words_cons (byte : UInt8) (terminal : Bool) (below others : Branches) :
    (cons byte terminal below others).words =
      (Trie.mk terminal below).words.map (byte :: ·) ++ others.words := by
  cases terminal <;> simp [words, Trie.words]

theorem mem_words_iff {bs : Branches} (h : bs.Distinct) {w : Bytes} :
    w ∈ bs.words ↔ ∃ b v s, bs.child? b = some s ∧ v ∈ s.words ∧ w = b :: v := by
  induction bs with
  | nil => simp [words, child?]
  | cons byte terminal below others _ ih =>
      rw [words_cons, List.mem_append, List.mem_map]
      constructor
      · rintro (⟨v, hv, rfl⟩ | hw)
        · exact ⟨byte, v, _, child?_cons_self byte terminal below others, hv, rfl⟩
        · obtain ⟨b, v, s, hs, hv, rfl⟩ := (ih h.2.2).mp hw
          exact ⟨b, v, s, h.child?_cons hs, hv, rfl⟩
      · rintro ⟨b, v, s, hs, hv, rfl⟩
        rw [child?] at hs
        split at hs
        · next hb =>
            cases hs
            exact .inl ⟨v, hv, by rw [hb]⟩
        · exact .inr ((ih h.2.2).mpr ⟨b, v, s, hs, hv, rfl⟩)

theorem length_words (bs : Branches) : bs.words.length = bs.size := by
  induction bs with
  | nil => rfl
  | cons byte terminal below others ihbelow ihothers =>
      rw [words_cons, List.length_append, List.length_map, length_words_root, ihbelow, ihothers,
        size]

theorem nil_not_mem_words (bs : Branches) : [] ∉ bs.words := by
  induction bs with
  | nil => exact List.not_mem_nil
  | cons byte terminal below others _ ih =>
      rw [words_cons, List.mem_append]
      rintro (hmap | hothers)
      · obtain ⟨v, -, heq⟩ := List.mem_map.mp hmap
        cases heq
      · exact ih hothers

end Branches

theorem mem_words_cons {t : Trie} (h : t.branches.Distinct) {b : UInt8} {v : Bytes} :
    b :: v ∈ t.words ↔ ∃ s, t.branches.child? b = some s ∧ v ∈ s.words := by
  have hroot : b :: v ∈ t.words ↔ b :: v ∈ t.branches.words := by
    cases hterminal : t.terminal <;> simp [words, hterminal]
  rw [hroot, Branches.mem_words_iff h]
  constructor
  · rintro ⟨b', v', s, hs, hv, heq⟩
    cases heq
    exact ⟨s, hs, hv⟩
  · rintro ⟨s, hs, hv⟩
    exact ⟨b, v, s, hs, hv, rfl⟩

theorem mem_words_nil (t : Trie) : [] ∈ t.words ↔ t.terminal = true := by
  cases hterminal : t.terminal <;> simp [words, hterminal, Branches.nil_not_mem_words]

theorem mem_words_iff {t : Trie} (h : t.branches.Distinct) {w : Bytes} :
    w ∈ t.words ↔ (t.lookup w).isWord = true := by
  induction w generalizing t with
  | nil => rw [mem_words_nil, lookup_nil]
  | cons b w ih =>
      rw [mem_words_cons h, lookup_cons]
      rcases hs : t.branches.child? b with _ | s
      · simp [lookup_empty, Match.absent]
      · simpa using ih (h.child? hs)

theorem nodup_words_of_branches {t : Trie} (h : t.branches.words.Nodup) : t.words.Nodup := by
  cases hterminal : t.terminal <;> simp [words, hterminal, h, Branches.nil_not_mem_words]

theorem Branches.nodup_words {bs : Branches} (h : bs.Distinct) : bs.words.Nodup := by
  induction bs with
  | nil => exact List.nodup_nil
  | cons byte terminal below others ihbelow ihothers =>
      obtain ⟨hbyte, hbelow, hothers⟩ := h
      rw [words_cons]
      refine List.nodup_append'.mpr ⟨?_, ihothers hothers, ?_⟩
      · have hnode : (Trie.mk terminal below).words.Nodup :=
          nodup_words_of_branches (ihbelow hbelow)
        exact hnode.map List.cons_injective
      · intro w hmap hw
        obtain ⟨v, -, rfl⟩ := List.mem_map.mp hmap
        obtain ⟨b, u, s, hs, -, heq⟩ := (Branches.mem_words_iff hothers).mp hw
        cases heq
        rw [hbyte] at hs
        cases hs

theorem nodup_words {t : Trie} (h : t.branches.Distinct) : t.words.Nodup :=
  nodup_words_of_branches (Branches.nodup_words h)

theorem length_words (t : Trie) : t.words.length = t.size := by
  rw [length_words_root, Branches.length_words, size]

theorem distinct_insert {t : Trie} (h : t.branches.Distinct) (w : Bytes) :
    (t.insert w).branches.Distinct := by
  rcases w with _ | ⟨b, w⟩
  · exact h
  · exact h.insert b w

theorem distinct_foldl (ws : List Bytes) {t : Trie} (h : t.branches.Distinct) :
    (ws.foldl insert t).branches.Distinct := by
  induction ws generalizing t with
  | nil => exact h
  | cons w ws ih => exact ih (distinct_insert h w)

theorem distinct_ofWords (ws : List Bytes) : (ofWords ws).branches.Distinct :=
  distinct_foldl ws trivial

theorem size_ofWords (ws : List Bytes) : (ofWords ws).size = ws.dedup.length := by
  have hdistinct := distinct_ofWords ws
  have hperm : (ofWords ws).words.Perm ws.dedup := by
    rw [List.perm_ext_iff_of_nodup (nodup_words hdistinct) ws.nodup_dedup]
    intro w
    rw [mem_words_iff hdistinct, isWord_lookup_ofWords, List.mem_dedup]
  rw [← length_words, hperm.length_eq]

theorem Branches.hasNestedWords_iff {bs : Branches} (h : bs.Distinct) :
    bs.hasNestedWords = true ↔
      ∃ b s, bs.child? b = some s ∧
        ∃ c, (s.lookup c).isWord = true ∧ (s.lookup c).hasLonger = true := by
  induction bs with
  | nil => simp [hasNestedWords, child?]
  | cons byte terminal below others ihbelow ihothers =>
      obtain ⟨-, hbelow, hothers⟩ := id h
      simp only [hasNestedWords, Bool.or_eq_true, Bool.and_eq_true, ihbelow hbelow,
        ihothers hothers]
      have hself := child?_cons_self byte terminal below others
      constructor
      · rintro ((⟨hterminal, hlonger⟩ | ⟨b, s, hs, c, hc⟩) | ⟨b, s, hs, hc⟩)
        · exact ⟨byte, _, hself, [], hterminal, hlonger⟩
        · refine ⟨byte, _, hself, b :: c, ?_⟩
          rwa [lookup_cons, hs]
        · exact ⟨b, s, h.child?_cons hs, hc⟩
      · rintro ⟨b, s, hs, c, hc⟩
        rw [child?] at hs
        split at hs
        · cases hs
          rcases c with _ | ⟨x, c⟩
          · exact .inl (.inl hc)
          · rw [lookup_cons] at hc
            rcases hx : below.child? x with _ | s
            · simp [hx, lookup_empty, Match.absent] at hc
            · exact .inl (.inr ⟨x, s, hx, c, by simpa [hx] using hc⟩)
        · exact .inr ⟨b, s, hs, c, hc⟩

theorem hasNestedWords_iff {t : Trie} (h : t.branches.Distinct) :
    t.hasNestedWords = true ↔
      ∃ c, (t.lookup c).isWord = true ∧ (t.lookup c).hasLonger = true := by
  rw [hasNestedWords, Bool.or_eq_true, Bool.and_eq_true, Branches.hasNestedWords_iff h]
  constructor
  · rintro (hroot | ⟨b, s, hs, c, hc⟩)
    · exact ⟨[], hroot⟩
    · refine ⟨b :: c, ?_⟩
      rwa [lookup_cons, hs]
  · rintro ⟨_ | ⟨b, c⟩, hc⟩
    · exact .inl hc
    · rw [lookup_cons] at hc
      rcases hs : t.branches.child? b with _ | s
      · simp [hs, lookup_empty, Match.absent] at hc
      · exact .inr ⟨b, s, hs, c, by simpa [hs] using hc⟩

theorem hasNestedWords_ofWords (ws : List Bytes) :
    (ofWords ws).hasNestedWords = true ↔ ∃ u ∈ ws, ∃ v ∈ ws, u <+: v ∧ u ≠ v := by
  rw [hasNestedWords_iff (distinct_ofWords ws)]
  simp only [isWord_lookup_ofWords, hasLonger_lookup_ofWords]

theorem isEmpty_ofWords (ws : List Bytes) : (ofWords ws).isEmpty = true ↔ ws = [] := by
  have hword := isWord_lookup_ofWords ws []
  have hlonger := hasLonger_lookup_ofWords ws []
  rw [lookup_nil] at hword hlonger
  constructor
  · intro h
    rw [isEmpty, Bool.and_eq_true, Bool.not_eq_true'] at h
    apply List.eq_nil_iff_forall_not_mem.mpr
    intro w hw
    rcases eq_or_ne [] w with rfl | hne
    · exact absurd (hword.mpr hw) (by simp [h.1])
    · have hbelow := hlonger.mpr ⟨w, hw, List.nil_prefix, hne⟩
      simp [h.2] at hbelow
  · rintro rfl
    rfl

/-- The summaries of a trie are those of the words that were added, in whatever order and however
often: the number of different words, whether one of them is a proper beginning of another, and
whether there are any. -/
theorem summaries_ofWords (ws : List Bytes) :
    (ofWords ws).size = ws.dedup.length ∧
      ((ofWords ws).hasNestedWords = true ↔ ∃ u ∈ ws, ∃ v ∈ ws, u <+: v ∧ u ≠ v) ∧
      ((ofWords ws).isEmpty = true ↔ ws = []) :=
  ⟨size_ofWords ws, hasNestedWords_ofWords ws, isEmpty_ofWords ws⟩

end StatementLexer.Trie
