import Mathlib.Data.List.TakeWhile
import StatementLexer.Lexeme.Split
import StatementLexer.Proofs.Word

/-!
A source is cut into units in one way only. What a unit looks like and which byte may come after
it are stated without the functions that read it; `split_eq_iff` says that the cut with these
properties is the one that `split` makes.
-/

namespace StatementLexer.Lexeme

def closing : Bytes := [Byte.asterisk, Byte.slash]

def WellFormed : Lexeme → Prop
  | .lineBreak => True
  | .blank b => Byte.isWhitespace b = true
  | .lineComment text => Byte.lineFeed ∉ text
  | .blockComment text => ¬ closing <:+: text ++ [Byte.asterisk]
  | .openComment text => ¬ closing <:+: text
  | .quoted q text => q.byte ∉ text
  | .openQuoted q text => q.byte ∉ text
  | .number digits => digits ≠ [] ∧ ∀ c ∈ digits, Byte.isDigit c = true
  | .symbol k => k.spelling?.isSome = true
  | .name [] => False
  | .name (b :: tail) =>
      Byte.startsName b = true ∧ (∀ c ∈ tail, Byte.isIdentContinue c = true) ∧
        ∀ k ∈ Kind.keywords, k.spelling? ≠ some (b :: tail)

/-- The bytes that cannot come right after a unit: it would hold them, or be another unit. -/
def takes : Lexeme → UInt8 → Bool
  | .lineBreak, _ => false
  | .blank _, _ => false
  | .lineComment _, c => c != Byte.lineFeed
  | .blockComment _, _ => false
  | .openComment _, _ => true
  | .quoted .., _ => false
  | .openQuoted .., _ => true
  | .number _, c => Byte.isDigit c
  | .symbol k, c =>
      if k.isKeyword then Byte.isIdentContinue c
      else k.pairs c || k == .divide && (c == Byte.slash || c == Byte.asterisk)
  | .name _, c => Byte.isIdentContinue c

/-- The units that the end of a source cuts short. -/
def isOpen : Lexeme → Bool
  | .openComment _ => true
  | .openQuoted .. => true
  | _ => false

/-- Well-formed units one after the other, with `rest` behind the last. -/
def Tiles : List Lexeme → Bytes → Prop
  | [], _ => True
  | l :: ls, rest => l.WellFormed ∧ Ends l.takes (ls.flatMap bytes ++ rest) ∧ Tiles ls rest

instance decidableWellFormed : (l : Lexeme) → Decidable l.WellFormed
  | .lineBreak => isTrue trivial
  | .blank b => inferInstanceAs (Decidable (Byte.isWhitespace b = true))
  | .lineComment text => inferInstanceAs (Decidable (Byte.lineFeed ∉ text))
  | .blockComment text => inferInstanceAs (Decidable (¬ closing <:+: text ++ [Byte.asterisk]))
  | .openComment text => inferInstanceAs (Decidable (¬ closing <:+: text))
  | .quoted q text => inferInstanceAs (Decidable (q.byte ∉ text))
  | .openQuoted q text => inferInstanceAs (Decidable (q.byte ∉ text))
  | .number digits =>
      have := List.decidableBAll (fun c => Byte.isDigit c = true) digits
      inferInstanceAs (Decidable (digits ≠ [] ∧ ∀ c ∈ digits, Byte.isDigit c = true))
  | .symbol k => inferInstanceAs (Decidable (k.spelling?.isSome = true))
  | .name [] => isFalse id
  | .name (b :: tail) =>
      have := List.decidableBAll (fun c => Byte.isIdentContinue c = true) tail
      inferInstanceAs (Decidable (Byte.startsName b = true ∧
        (∀ c ∈ tail, Byte.isIdentContinue c = true) ∧
          ∀ k ∈ Kind.keywords, k.spelling? ≠ some (b :: tail)))

instance decidableTiles : (ls : List Lexeme) → (rest : Bytes) → Decidable (Tiles ls rest)
  | [], _ => isTrue trivial
  | l :: ls, rest =>
      have := decidableTiles ls rest
      inferInstanceAs
        (Decidable (l.WellFormed ∧ Ends l.takes (ls.flatMap bytes ++ rest) ∧ Tiles ls rest))

theorem closing_infix_cons {b : UInt8} {text : Bytes} :
    closing <:+: b :: text ↔
      b = Byte.asterisk ∧ text.head? = some Byte.slash ∨ closing <:+: text := by
  rw [List.infix_cons_iff, closing, List.cons_prefix_cons]
  rcases text with _ | ⟨c, text⟩
  · simp
  · simp [List.cons_prefix_cons, eq_comm]

theorem closeComment?_eq_none_iff {input : Bytes} :
    closeComment? input = none ↔ ¬ closing <:+: input := by
  induction input with
  | nil => simp [closeComment?, closing]
  | cons b input ih =>
      rw [closeComment?, closing_infix_cons]
      split
      · next h => simp [h]
      · next h => simp [h, ih]

theorem closeComment?_append {text : Bytes} (h : ¬ closing <:+: text ++ [Byte.asterisk])
    (rest : Bytes) : closeComment? (text ++ closing ++ rest) = some (text, rest) := by
  induction text with
  | nil => simp [closeComment?, closing]
  | cons b text ih =>
      rw [List.cons_append, closing_infix_cons, not_or] at h
      rw [List.cons_append, List.cons_append, closeComment?, ih h.2]
      have hhead : (text ++ closing ++ rest).head? = (text ++ [Byte.asterisk]).head? := by
        cases text <;> rfl
      rw [hhead, if_neg h.1]
      rfl

theorem closing_not_infix_of_closeComment? {input text rest : Bytes}
    (h : closeComment? input = some (text, rest)) :
    ¬ closing <:+: text ++ [Byte.asterisk] := by
  induction input generalizing text with
  | nil => cases h
  | cons b input ih =>
      rw [closeComment?] at h
      split at h
      · cases h
        decide
      · next hb =>
          obtain ⟨r, hr, heq⟩ := Option.map_eq_some_iff.mp h
          cases heq
          rw [List.cons_append, closing_infix_cons, not_or]
          refine ⟨?_, ih hr⟩
          have hbytes := closeComment?_bytes hr
          have hhead : (r.1 ++ [Byte.asterisk]).head? = input.head? := by
            rw [← hbytes]
            cases r.1 <;> rfl
          rwa [hhead]

theorem first_of_startsWord {b : UInt8} (h : Byte.startsWord b = true) (rest : Bytes) :
    first b rest = word b rest := by
  simp only [Byte.startsWord, Bool.and_eq_true, bne_iff_ne, Bool.not_eq_true'] at h
  obtain ⟨⟨⟨⟨⟨⟨hline, hblank⟩, hslash⟩, hdouble⟩, hback⟩, hsemicolon⟩, hdigit⟩ := h
  simp [first, hline, hblank, hslash, hdouble, hback, hsemicolon, hdigit]

theorem startsName_iff {b : UInt8} :
    Byte.startsName b = true ↔ Byte.startsWord b = true ∧ Kind.startsOperator b = false := by
  have hslash := (Kind.tables.single Byte.slash (by simp)).1
  have hsemicolon := (Kind.tables.single Byte.semicolon (by simp)).1
  simp only [Byte.startsName, Byte.startsWord, Bool.and_eq_true, bne_iff_ne, Bool.not_eq_true']
  constructor
  · rintro ⟨⟨⟨⟨⟨hline, hblank⟩, hdigit⟩, hdouble⟩, hback⟩, hoperator⟩
    refine ⟨⟨⟨⟨⟨⟨⟨hline, hblank⟩, ?_⟩, hdouble⟩, hback⟩, ?_⟩, hdigit⟩, hoperator⟩
    · rintro rfl
      rw [hslash] at hoperator
      cases hoperator
    · rintro rfl
      rw [hsemicolon] at hoperator
      cases hoperator
  · rintro ⟨⟨⟨⟨⟨⟨⟨hline, hblank⟩, -⟩, hdouble⟩, hback⟩, -⟩, hdigit⟩, hoperator⟩
    exact ⟨⟨⟨⟨⟨hline, hblank⟩, hdigit⟩, hdouble⟩, hback⟩, hoperator⟩

theorem mem_operators_or_mem_keywords {k : Kind} (h : k.spelling?.isSome = true) :
    k ∈ Kind.operators ∨ k ∈ Kind.keywords :=
  Kind.tables.spelled k (Kind.mem_all k) h

theorem isKeyword_of_mem_operators {k : Kind} (h : k ∈ Kind.operators) : k.isKeyword = false := by
  have hcheck : ∀ k ∈ Kind.operators, k.isKeyword = false := by decide
  exact hcheck k h

theorem first_append_operator {k : Kind} (hk : k ∈ Kind.operators) {rest : Bytes}
    (hrest : Ends (symbol k).takes rest) :
    ∃ b tail, (symbol k).bytes = b :: tail ∧ first b (tail ++ rest) = (.symbol k, rest) := by
  by_cases hdivide : k = .divide
  · subst hdivide
    refine ⟨Byte.slash, [], by decide, ?_⟩
    rcases rest with _ | ⟨c, rest⟩
    · rfl
    · have hc := ends_cons.mp hrest
      simp only [takes, Kind.isKeyword, Bool.or_eq_false_iff, beq_self_eq_true, Bool.true_and,
        beq_eq_false_iff_ne, Bool.false_eq_true, if_false] at hc
      obtain ⟨-, hslash, hasterisk⟩ := hc
      change slash (c :: rest) = _
      rw [slash, if_neg hslash, if_neg hasterisk]
  by_cases hsemicolon : k = .semicolon
  · subst hsemicolon
    exact ⟨Byte.semicolon, [], by decide, rfl⟩
  obtain ⟨w, hw, hlength⟩ := Kind.operator_length k hk
  have hreaches := Kind.tables.operator_word k hk hdivide hsemicolon
  have hends : Ends k.pairs rest := by
    intro c hc
    have htakes := hrest c hc
    simp only [takes, isKeyword_of_mem_operators hk, Bool.false_eq_true, if_false,
      Bool.or_eq_false_iff] at htakes
    exact htakes.1
  rcases w with _ | ⟨b, tail⟩
  · simp at hlength
  · refine ⟨b, tail, by simp [bytes, hw], ?_⟩
    have hb : Byte.startsWord b = true := by simpa [hw] using hreaches
    rw [first_of_startsWord hb]
    exact word_of_operator? (operator?_eq_some_iff.mpr ⟨hk, hends, b :: tail, hw, rfl⟩)

theorem first_append_keyword {k : Kind} (hk : k ∈ Kind.keywords) {rest : Bytes}
    (hrest : Ends Byte.isIdentContinue rest) :
    ∃ b tail, (symbol k).bytes = b :: tail ∧ first b (tail ++ rest) = (.symbol k, rest) := by
  have hstarts := Kind.tables.keyword_head k hk
  obtain ⟨b, hb, hname⟩ : ∃ b, k.spelling?.bind List.head? = some b ∧ Byte.startsName b = true := by
    rcases hb : k.spelling?.bind List.head? with _ | b
    · simp [hb] at hstarts
    · exact ⟨b, rfl, by simpa [hb] using hstarts⟩
  obtain ⟨w, hw, hhead⟩ := Option.bind_eq_some_iff.mp hb
  rcases w with _ | ⟨a, tail⟩
  · cases hhead
  · cases hhead
    refine ⟨b, tail, by simp [bytes, hw], ?_⟩
    obtain ⟨hreaches, hoperator⟩ := startsName_iff.mp hname
    have hident : ∀ c ∈ tail, Byte.isIdentContinue c = true :=
      fun c hc => Kind.isIdentContinue_of_mem_keyword hk hw c (List.mem_cons_of_mem _ hc)
    have hkind : Vocabulary.keywords.kindOf? (b :: tail) = some k :=
      Vocabulary.kindOf?_ofKinds_eq_some_iff.mpr ⟨hk, hw⟩
    rw [first_of_startsWord hreaches, word_of_not_startsOperator hoperator,
      takeWhile_append_of_ends hident hrest, dropWhile_append_of_ends hident hrest, hkind]
    rfl

theorem first_append_name {b : UInt8} {tail rest : Bytes} (h : (name (b :: tail)).WellFormed)
    (hrest : Ends Byte.isIdentContinue rest) :
    first b (tail ++ rest) = (.name (b :: tail), rest) := by
  obtain ⟨hname, hident, hkeyword⟩ := h
  obtain ⟨hreaches, hoperator⟩ := startsName_iff.mp hname
  have hkind : Vocabulary.keywords.kindOf? (b :: tail) = none :=
    Vocabulary.kindOf?_ofKinds_eq_none_iff.mpr hkeyword
  rw [first_of_startsWord hreaches, word_of_not_startsOperator hoperator,
    takeWhile_append_of_ends hident hrest, dropWhile_append_of_ends hident hrest, hkind]
  rfl

theorem first_append_number {b : UInt8} {tail rest : Bytes}
    (h : ∀ c ∈ b :: tail, Byte.isDigit c = true) (hrest : Ends Byte.isDigit rest) :
    first b (tail ++ rest) = (.number (b :: tail), rest) := by
  have hb : Byte.isDigit b = true := h b List.mem_cons_self
  have htail : ∀ c ∈ tail, Byte.isDigit c = true := fun c hc => h c (List.mem_cons_of_mem _ hc)
  have hne : ∀ x : UInt8, Byte.isDigit x = false → b ≠ x := by
    rintro x hx rfl
    rw [hx] at hb
    cases hb
  have hblank : Byte.isWhitespace b = false := by
    simp only [Byte.isWhitespace, Bool.or_eq_false_iff, beq_eq_false_iff_ne]
    exact ⟨⟨⟨⟨hne _ rfl, hne _ rfl⟩, hne _ rfl⟩, hne _ rfl⟩, hne _ rfl⟩
  simp only [first, hne _ (show Byte.isDigit Byte.lineFeed = false from rfl), hblank,
    hne _ (show Byte.isDigit Byte.slash = false from rfl),
    hne _ (show Byte.isDigit Byte.doubleQuote = false from rfl),
    hne _ (show Byte.isDigit Byte.backquote = false from rfl),
    hne _ (show Byte.isDigit Byte.semicolon = false from rfl), hb, if_false, if_true,
    Bool.false_eq_true]
  rw [takeWhile_append_of_ends htail hrest, dropWhile_append_of_ends htail hrest]

theorem first_quote (q : Quote) (rest : Bytes) : first q.byte rest = string q rest := by
  cases q <;> rfl

theorem bne_of_not_mem {x : UInt8} {text : Bytes} (h : x ∉ text) :
    ∀ c ∈ text, (c != x) = true := by
  intro c hc
  apply bne_iff_ne.mpr
  rintro rfl
  exact h hc

/-- A unit in front of bytes that it cannot take is the first unit. -/
theorem first_append {l : Lexeme} (hl : l.WellFormed) {rest : Bytes} (hrest : Ends l.takes rest) :
    ∃ b tail, l.bytes = b :: tail ∧ first b (tail ++ rest) = (l, rest) := by
  cases l with
  | lineBreak => exact ⟨_, _, rfl, rfl⟩
  | blank b =>
      refine ⟨_, _, rfl, ?_⟩
      have hb : b ≠ Byte.lineFeed := by
        rintro rfl
        cases hl
      have hblank : Byte.isWhitespace b = true := hl
      simp [first, hb, hblank]
  | lineComment text =>
      refine ⟨_, _, rfl, ?_⟩
      change slash (Byte.slash :: (text ++ rest)) = _
      have htext := bne_of_not_mem hl
      rw [slash, if_pos rfl, takeWhile_append_of_ends htext hrest,
        dropWhile_append_of_ends htext hrest]
  | blockComment text =>
      refine ⟨_, _, rfl, ?_⟩
      change slash (Byte.asterisk :: (text ++ closing ++ rest)) = _
      rw [slash, if_neg (by decide), if_pos rfl, closeComment?_append hl]
  | openComment text =>
      refine ⟨_, _, rfl, ?_⟩
      obtain rfl := eq_nil_of_ends (fun _ => rfl) hrest
      rw [List.append_nil]
      change slash (Byte.asterisk :: text) = _
      rw [slash, if_neg (by decide), if_pos rfl, closeComment?_eq_none_iff.mpr hl]
  | quoted q text =>
      refine ⟨_, _, rfl, ?_⟩
      have htext := bne_of_not_mem hl
      have hends : Ends (· != q.byte) (q.byte :: rest) := by simp
      rw [first_quote, List.append_assoc]
      change string q (text ++ q.byte :: rest) = _
      simp only [string, dropWhile_append_of_ends htext hends,
        takeWhile_append_of_ends htext hends]
  | openQuoted q text =>
      refine ⟨_, _, rfl, ?_⟩
      obtain rfl := eq_nil_of_ends (fun _ => rfl) hrest
      have hdrop := dropWhile_append_of_ends (bne_of_not_mem hl) (ends_nil (· != q.byte))
      rw [first_quote, string, hdrop, List.append_nil]
  | number digits =>
      obtain ⟨hne, hdigits⟩ := hl
      rcases digits with _ | ⟨b, tail⟩
      · exact absurd rfl hne
      · exact ⟨b, tail, rfl, first_append_number hdigits hrest⟩
  | symbol k =>
      rcases mem_operators_or_mem_keywords hl with hk | hk
      · exact first_append_operator hk hrest
      · apply first_append_keyword hk
        intro c hc
        simpa [takes, (Kind.mem_keywords_iff k).mp hk] using hrest c hc
  | name text =>
      rcases text with _ | ⟨b, tail⟩
      · exact absurd hl id
      · exact ⟨b, tail, rfl, first_append_name hl hrest⟩

theorem slash_wellFormed (rest : Bytes) :
    (slash rest).1.WellFormed ∧ Ends (slash rest).1.takes (slash rest).2 := by
  rcases rest with _ | ⟨c, rest⟩
  · exact ⟨rfl, ends_nil _⟩
  · rw [slash]
    split
    · refine ⟨?_, ends_dropWhile _ _⟩
      intro hmem
      simpa using List.mem_takeWhile_imp hmem
    · next hslash =>
        split
        · split
          · next h =>
              exact ⟨closing_not_infix_of_closeComment? h, fun _ _ => rfl⟩
          · next h => exact ⟨closeComment?_eq_none_iff.mp h, ends_nil _⟩
        · next hasterisk =>
            refine ⟨rfl, ends_cons.mpr ?_⟩
            have hpairs : Kind.divide.pairs c = false :=
              pairs_of_single (b := Byte.slash) (by simp) rfl c
            simp [takes, Kind.isKeyword, hpairs, hslash, hasterisk]

theorem string_wellFormed (q : Quote) (rest : Bytes) :
    (string q rest).1.WellFormed ∧ Ends (string q rest).1.takes (string q rest).2 := by
  unfold string
  split
  · next h =>
      refine ⟨?_, ends_nil _⟩
      intro hmem
      simpa using List.dropWhile_eq_nil_iff.mp h q.byte hmem
  · refine ⟨?_, fun _ _ => rfl⟩
    intro hmem
    simpa using List.mem_takeWhile_imp hmem

theorem word_wellFormed {b : UInt8} (hb : Byte.startsWord b = true) (rest : Bytes) :
    (word b rest).1.WellFormed ∧ Ends (word b rest).1.takes (word b rest).2 := by
  by_cases hoperator : Kind.startsOperator b = true
  · rcases hop : operator? b rest with _ | r
    · rw [operator?_eq_none_iff.mp hop] at hoperator
      cases hoperator
    · obtain ⟨k, rest'⟩ := r
      obtain ⟨hk, hends, w, hw, hbytes⟩ := operator?_eq_some_iff.mp hop
      rw [word_of_operator? hop]
      refine ⟨by simp [WellFormed, hw], fun c hc => ?_⟩
      have hdivide : k ≠ .divide := by
        rintro rfl
        cases hw
        cases hbytes
        cases hb
      simp [takes, isKeyword_of_mem_operators hk, hends c hc, hdivide]
  · have hnot : Kind.startsOperator b = false := by simpa using hoperator
    rw [word_of_not_startsOperator hnot]
    have hends := ends_dropWhile Byte.isIdentContinue rest
    rcases hkind : Vocabulary.keywords.kindOf? (b :: rest.takeWhile Byte.isIdentContinue) with _ | k
    · refine ⟨⟨startsName_iff.mpr ⟨hb, hnot⟩, fun c hc => List.mem_takeWhile_imp hc, ?_⟩, hends⟩
      exact Vocabulary.kindOf?_ofKinds_eq_none_iff.mp hkind
    · obtain ⟨hk, hw⟩ := Vocabulary.kindOf?_ofKinds_eq_some_iff.mp hkind
      refine ⟨by simp [WellFormed, hw], fun c hc => ?_⟩
      simpa [takes, (Kind.mem_keywords_iff k).mp hk] using hends c hc

theorem first_wellFormed (b : UInt8) (rest : Bytes) :
    (first b rest).1.WellFormed ∧ Ends (first b rest).1.takes (first b rest).2 := by
  unfold first
  split
  · exact ⟨trivial, fun _ _ => rfl⟩
  split
  · next h => exact ⟨h, fun _ _ => rfl⟩
  split
  · exact slash_wellFormed rest
  split
  · exact string_wellFormed .double rest
  split
  · exact string_wellFormed .back rest
  split
  · refine ⟨rfl, fun c _ => ?_⟩
    have hpairs : Kind.semicolon.pairs c = false :=
      pairs_of_single (b := Byte.semicolon) (by simp) rfl c
    simp [takes, Kind.isKeyword, hpairs]
  split
  · next h =>
      refine ⟨⟨List.cons_ne_nil _ _, ?_⟩, ends_dropWhile _ _⟩
      intro c hc
      rcases List.mem_cons.mp hc with rfl | hc
      · exact h
      · exact List.mem_takeWhile_imp hc
  · next hline hblank hslash hdouble hback hsemicolon hdigit =>
      apply word_wellFormed
      simp [Byte.startsWord, hline, hblank, hslash, hdouble, hback, hsemicolon, hdigit]

theorem takes_of_isOpen {l : Lexeme} (h : l.isOpen = true) (c : UInt8) : l.takes c = true := by
  cases l with
  | openComment text => rfl
  | openQuoted q text => rfl
  | _ => cases h

theorem bytes_ne_nil {l : Lexeme} (h : l.WellFormed) : l.bytes ≠ [] := by
  obtain ⟨b, tail, hbytes, -⟩ := first_append h (ends_nil _)
  rw [hbytes]
  exact List.cons_ne_nil _ _

theorem eq_nil_of_isOpen {l : Lexeme} {ls : List Lexeme} (h : Tiles (l :: ls) [])
    (hopen : l.isOpen = true) : ls = [] := by
  obtain ⟨-, hends, htiles⟩ := h
  have hnil := eq_nil_of_ends (takes_of_isOpen hopen) hends
  rcases ls with _ | ⟨m, ms⟩
  · rfl
  · rw [List.append_nil, List.flatMap_cons] at hnil
    exact absurd (List.append_eq_nil_iff.mp hnil).1 (bytes_ne_nil htiles.1)

theorem isDigit_of_isBlank {c : UInt8} (h : Byte.isBlank c = true) : Byte.isDigit c = false := by
  simp only [Byte.isBlank, Byte.isWhitespace, Bool.or_eq_true, beq_iff_eq] at h
  rcases h with ((((rfl | rfl) | rfl) | rfl) | rfl) | rfl <;> rfl

theorem isIdentContinue_of_isBlank {c : UInt8} (h : Byte.isBlank c = true) :
    Byte.isIdentContinue c = false := by
  simp only [Byte.isBlank, Byte.isWhitespace, Bool.or_eq_true, beq_iff_eq] at h
  rcases h with ((((rfl | rfl) | rfl) | rfl) | rfl) | rfl <;> rfl

theorem startsName_of_isBlank {b : UInt8} (h : Byte.isBlank b = true) :
    Byte.startsName b = false := by
  rcases Bool.or_eq_true_iff.mp h with hblank | hline
  · simp [Byte.startsName, hblank]
  · simp [Byte.startsName, beq_iff_eq.mp hline]

theorem pairs_of_isBlank {k : Kind} {c : UInt8} (h : Byte.isBlank c = true) :
    k.pairs c = false := by
  apply List.any_eq_false.mpr
  intro j hj hspelling
  rcases hk : k.spelling? with _ | w
  · rw [hk, Option.map_none, beq_iff_eq] at hspelling
    obtain ⟨v, hv, -⟩ := Kind.operator_length j hj
    rw [hv] at hspelling
    cases hspelling
  · have hbytes := Kind.tables.operator_bytes j hj c
    rw [beq_iff_eq.mp hspelling, hk] at hbytes
    have hblank := hbytes (by simp)
    rw [h] at hblank
    cases hblank

theorem takes_of_isBlank {l : Lexeme} (hopen : l.isOpen = false) {c : UInt8}
    (hc : Byte.isBlank c = true) (hcomment : ∀ text, l = .lineComment text → c = Byte.lineFeed) :
    l.takes c = false := by
  rcases l with _ | _ | text | _ | _ | _ | _ | _ | k | _
  case lineComment =>
    obtain rfl := hcomment text rfl
    rfl
  case number => exact isDigit_of_isBlank hc
  case name => exact isIdentContinue_of_isBlank hc
  case symbol =>
    have hslash : c ≠ Byte.slash := by
      rintro rfl
      cases hc
    have hasterisk : c ≠ Byte.asterisk := by
      rintro rfl
      cases hc
    simp [takes, isIdentContinue_of_isBlank hc, pairs_of_isBlank hc, hslash, hasterisk]
  case openComment => cases hopen
  case openQuoted => cases hopen
  all_goals rfl

theorem tiles_append {ls ms : List Lexeme} {rest : Bytes} :
    Tiles (ls ++ ms) rest ↔ Tiles ls (ms.flatMap bytes ++ rest) ∧ Tiles ms rest := by
  induction ls with
  | nil => simp [Tiles]
  | cons l ls ih =>
      simp only [List.cons_append, Tiles, ih, List.flatMap_append, List.append_assoc, and_assoc]

theorem split_append {ls : List Lexeme} {rest : Bytes} (h : Tiles ls rest) :
    split (ls.flatMap bytes ++ rest) = ls ++ split rest := by
  induction ls with
  | nil => rfl
  | cons l ls ih =>
      obtain ⟨hl, hends, htiles⟩ := h
      obtain ⟨b, tail, hbytes, hfirst⟩ := first_append hl hends
      rw [List.flatMap_cons, hbytes, List.append_assoc, List.cons_append, split_cons, hfirst,
        List.cons_append]
      exact congrArg (l :: ·) (ih htiles)

theorem tiles_split (source : Bytes) : Tiles (split source) [] := by
  fun_induction split source with
  | case1 => trivial
  | case2 b rest ih =>
      obtain ⟨hl, hends⟩ := first_wellFormed b rest
      refine ⟨hl, ?_, ih⟩
      rwa [flatMap_bytes_split, List.append_nil]

/-- Cutting a source into well-formed units, each as long as it can be, has one outcome. -/
theorem split_eq_iff {source : Bytes} {ls : List Lexeme} :
    split source = ls ↔ ls.flatMap bytes = source ∧ Tiles ls [] := by
  constructor
  · rintro rfl
    exact ⟨flatMap_bytes_split source, tiles_split source⟩
  · rintro ⟨rfl, htiles⟩
    simpa using split_append htiles

theorem split_bytes {l : Lexeme} (h : l.WellFormed) : split l.bytes = [l] :=
  split_eq_iff.mpr ⟨List.flatMap_singleton _ _, h, ends_nil _, trivial⟩

end StatementLexer.Lexeme
