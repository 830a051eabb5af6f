import StatementLexer.Trie

namespace StatementLexer.Trie

namespace Branches

theorem isEmpty_chain (b : UInt8) (w : Bytes) : (chain b w).isEmpty = false := by
  cases w <;> rfl

theorem isEmpty_insert (bs : Branches) (b : UInt8) (w : Bytes) :
    (bs.insert b w).isEmpty = false := by
  rcases bs with _ | ⟨byte, terminal, below, others⟩
  · exact isEmpty_chain b w
  · unfold insert
    split
    · split <;> rfl
    · rfl

theorem child?_chain_self (b : UInt8) (w : Bytes) :
    (chain b w).child? b = some (Trie.empty.insert w) := by
  rcases w with _ | ⟨c, w⟩
  · simp [chain, child?, Trie.insert, Trie.empty]
  · simp [chain, child?, Trie.insert, Trie.empty, insert]

theorem child?_chain_of_ne {b c : UInt8} (h : b ≠ c) (w : Bytes) :
    (chain b w).child? c = none := by
  cases w <;> simp [chain, child?, h]

theorem child?_insert_self (bs : Branches) (b : UInt8) (w : Bytes) :
    (bs.insert b w).child? b = some (((bs.child? b).getD Trie.empty).insert w) := by
  induction bs with
  | nil => exact child?_chain_self b w
  | cons byte terminal below others _ ih =>
      unfold insert
      by_cases hb : byte = b
      · cases w <;> simp [hb, child?, Trie.insert]
      · simp [hb, child?, ih]

theorem child?_insert_of_ne {b c : UInt8} (h : b ≠ c) (bs : Branches) (w : Bytes) :
    (bs.insert b w).child? c = bs.child? c := by
  induction bs with
  | nil => exact child?_chain_of_ne h w
  | cons byte terminal below others _ ih =>
      unfold insert
      by_cases hb : byte = b
      · subst hb
        cases w <;> simp [h, child?]
      · simp [hb, child?, ih]

end Branches

theorem lookup_nil (t : Trie) : t.lookup [] = ⟨t.terminal, !t.branches.isEmpty⟩ := rfl

theorem lookup_cons (t : Trie) (b : UInt8) (c : Bytes) :
    t.lookup (b :: c) = ((t.branches.child? b).getD empty).lookup c := by
  cases h : t.branches.child? b with
  | some s => simp [lookup, walk, h]
  | none =>
      rcases c with _ | ⟨x, c⟩
      · simp [lookup, walk, h, Match.absent, empty, Branches.isEmpty]
      · simp [lookup, walk, h, empty, Branches.child?]

theorem lookup_empty (c : Bytes) : empty.lookup c = .absent := by
  rcases c with _ | ⟨b, c⟩
  · rfl
  · simp [lookup, walk, empty, Branches.child?]

theorem isWord_lookup_insert (t : Trie) (w c : Bytes) :
    ((t.insert w).lookup c).isWord = true ↔ (t.lookup c).isWord = true ∨ c = w := by
  induction c generalizing t w with
  | nil => cases w <;> simp [lookup_nil, insert]
  | cons x c ih =>
      rcases w with _ | ⟨b, w⟩
      · simp [lookup_cons, insert]
      · rw [lookup_cons, lookup_cons, insert]
        by_cases hb : b = x
        · subst hb
          simp [Branches.child?_insert_self, ih]
        · rw [Branches.child?_insert_of_ne hb]
          simp [Ne.symm hb]

theorem hasLonger_lookup_insert (t : Trie) (w c : Bytes) :
    ((t.insert w).lookup c).hasLonger = true ↔
      (t.lookup c).hasLonger = true ∨ c <+: w ∧ c ≠ w := by
  induction c generalizing t w with
  | nil => cases w <;> simp [lookup_nil, insert, Branches.isEmpty_insert]
  | cons x c ih =>
      rcases w with _ | ⟨b, w⟩
      · simp [lookup_cons, insert]
      · rw [lookup_cons, lookup_cons, insert]
        by_cases hb : b = x
        · subst hb
          simp [Branches.child?_insert_self, ih, List.cons_prefix_cons]
        · rw [Branches.child?_insert_of_ne hb]
          simp [Ne.symm hb, List.cons_prefix_cons]

theorem isWord_lookup_foldl (ws : List Bytes) (t : Trie) (c : Bytes) :
    ((ws.foldl insert t).lookup c).isWord = true ↔ (t.lookup c).isWord = true ∨ c ∈ ws := by
  induction ws generalizing t with
  | nil => simp
  | cons w ws ih =>
      rw [List.foldl_cons, ih, isWord_lookup_insert, List.mem_cons, or_assoc]

theorem hasLonger_lookup_foldl (ws : List Bytes) (t : Trie) (c : Bytes) :
    ((ws.foldl insert t).lookup c).hasLonger = true ↔
      (t.lookup c).hasLonger = true ∨ ∃ w ∈ ws, c <+: w ∧ c ≠ w := by
  induction ws generalizing t with
  | nil => simp
  | cons w ws ih =>
      rw [List.foldl_cons, ih, hasLonger_lookup_insert, or_assoc]
      simp only [List.mem_cons, exists_eq_or_imp]

theorem isWord_lookup_ofWords (ws : List Bytes) (c : Bytes) :
    ((ofWords ws).lookup c).isWord = true ↔ c ∈ ws := by
  rw [ofWords, isWord_lookup_foldl, lookup_empty]
  simp [Match.absent]

theorem hasLonger_lookup_ofWords (ws : List Bytes) (c : Bytes) :
    ((ofWords ws).lookup c).hasLonger = true ↔ ∃ w ∈ ws, c <+: w ∧ c ≠ w := by
  rw [ofWords, hasLonger_lookup_foldl, lookup_empty]
  simp [Match.absent]

/-- A trie decides about every candidate whether it is one of the words, and whether a longer word
starts with it. In which order the words were added, and how often, makes no difference. -/
theorem lookup_ofWords_decides (ws : List Bytes) (c : Bytes) :
    (((ofWords ws).lookup c).isWord = true ↔ c ∈ ws) ∧
      (((ofWords ws).lookup c).hasLonger = true ↔ ∃ w ∈ ws, c.length < w.length ∧ c <+: w) ∧
      ∀ others : List Bytes, (∀ w, w ∈ others ↔ w ∈ ws) →
        (ofWords others).lookup c = (ofWords ws).lookup c := by
  refine ⟨isWord_lookup_ofWords ws c, ?_, ?_⟩
  · rw [hasLonger_lookup_ofWords]
    constructor
    · rintro ⟨w, hw, hstarts, hne⟩
      refine ⟨w, hw, ?_, hstarts⟩
      apply Nat.lt_of_le_of_ne hstarts.length_le
      intro hlength
      exact hne (hstarts.eq_of_length hlength)
    · rintro ⟨w, hw, hlength, hstarts⟩
      refine ⟨w, hw, hstarts, ?_⟩
      rintro rfl
      exact Nat.lt_irrefl _ hlength
  · intro others hsame
    have hword : ((ofWords others).lookup c).isWord = ((ofWords ws).lookup c).isWord := by
      rw [Bool.eq_iff_iff, isWord_lookup_ofWords, isWord_lookup_ofWords, hsame]
    have hlonger : ((ofWords others).lookup c).hasLonger = ((ofWords ws).lookup c).hasLonger := by
      rw [Bool.eq_iff_iff, hasLonger_lookup_ofWords, hasLonger_lookup_ofWords]
      simp only [hsame]
    calc
      (ofWords others).lookup c
          = ⟨((ofWords others).lookup c).isWord, ((ofWords others).lookup c).hasLonger⟩ := rfl
      _ = (ofWords ws).lookup c := by rw [hword, hlonger]

theorem lookup_ofWords_decides_reordered :
    let ws := [[], Bytes.ofString "a", Bytes.ofString "abc"]
    let others := [Bytes.ofString "abc", [], Bytes.ofString "a", Bytes.ofString "abc"]
    (ofWords others).lookup (Bytes.ofString "a") = (ofWords ws).lookup (Bytes.ofString "a") ∧
      ((ofWords ws).lookup []).isWord = true ∧
      ((ofWords ws).lookup (Bytes.ofString "ab")).hasLonger = true ∧
      ¬ ((ofWords ws).lookup (Bytes.ofString "ab")).isWord = true ∧
      ¬ ((ofWords ws).lookup (Bytes.ofString "abc")).hasLonger = true := by
  intro ws others
  have hsame : ∀ w, w ∈ others ↔ w ∈ ws := by
    intro w
    simp only [others, ws, List.mem_cons, List.not_mem_nil, or_false]
    constructor
    · rintro (hw | hw | hw | hw) <;> simp [hw]
    · rintro (hw | hw | hw) <;> simp [hw]
  refine ⟨?_, ?_, ?_, ?_, ?_⟩
  · exact (lookup_ofWords_decides ws _).2.2 others hsame
  · exact (lookup_ofWords_decides ws _).1.mpr (by decide)
  · exact (lookup_ofWords_decides ws _).2.1.mpr (by decide)
  · exact mt (lookup_ofWords_decides ws _).1.mp (by decide)
  · exact mt (lookup_ofWords_decides ws _).2.1.mp (by decide)

end StatementLexer.Trie
