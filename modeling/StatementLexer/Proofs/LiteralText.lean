import StatementLexer.Proofs.NormalStream
import StatementLexer.Proofs.TokenLanguage
import StatementLexer.Proofs.Utf8
import StatementLexer.Token.Display

namespace StatementLexer

namespace Utf8

theorem encodeChar_cases (c : Char) :
    (∃ b, String.utf8EncodeChar c = [b] ∧ b.toNat < 0x80) ∨
      ∃ b d rest, String.utf8EncodeChar c = b :: d :: rest ∧
        ∀ e ∈ b :: d :: rest, 0x80 ≤ e.toNat := by
  obtain ⟨n, hvalid, rfl⟩ : ∃ n, n.isValidChar ∧ Char.ofNat n = c :=
    ⟨c.toNat, c.valid, Char.ofNat_toNat c⟩
  rw [encode_ofNat hvalid]
  rw [Nat.isValidChar] at hvalid
  split_ifs with hone htwo hthree
  · exact .inl ⟨_, rfl, by rw [toNat_ofNat_eq rfl (by omega)]; omega⟩
  all_goals
    refine .inr ⟨_, _, _, rfl, ?_⟩
    simp only [List.forall_mem_cons, List.not_mem_nil, false_implies, implies_true, and_true]
    simp only [UInt8.toNat_ofNat']
    omega

/-- Text cut at an ASCII byte is text on both sides. -/
theorem Valid.cut {a rest : Bytes} {b : UInt8} (h : Valid (a ++ b :: rest)) (hb : b.toNat < 0x80) :
    Valid a ∧ Valid rest := by
  obtain ⟨cs, hcs⟩ := h
  induction cs generalizing a with
  | nil => simp [encode] at hcs
  | cons c cs ih =>
      rw [encode, List.flatMap_cons] at hcs
      change String.utf8EncodeChar c ++ encode cs = _ at hcs
      rcases List.append_eq_append_iff.mp hcs with ⟨a', rfl, hrest⟩ | ⟨part, hcode, hrest⟩
      · obtain ⟨⟨ds, rfl⟩, hafter⟩ := ih hrest
        exact ⟨⟨c :: ds, rfl⟩, hafter⟩
      · rcases part with _ | ⟨d, part⟩
        · rw [List.append_nil] at hcode
          obtain ⟨-, hafter⟩ := @ih [] hrest.symm
          exact ⟨⟨[c], by rw [← hcode]; exact List.flatMap_singleton _ _⟩, hafter⟩
        · obtain ⟨rfl, rfl⟩ := List.cons.inj hrest
          -- The cut is inside the code of `c`, which is the ASCII byte itself.
          rcases encodeChar_cases c with ⟨d, hone, -⟩ | ⟨d, e, more, hmany, hbeyond⟩
          · rw [hone] at hcode
            rcases List.append_eq_singleton_iff.mp hcode.symm with ⟨rfl, hpart⟩ | ⟨-, hpart⟩
            · cases hpart
              exact ⟨⟨[], rfl⟩, ⟨cs, rfl⟩⟩
            · cases hpart
          · have hmem := hbeyond b (by rw [← hmany, hcode]; simp)
            omega

theorem valid_of_ascii {bs : Bytes} (h : ∀ b ∈ bs, b.toNat < 0x80) : Valid bs := by
  induction bs with
  | nil => exact ⟨[], rfl⟩
  | cons b bs ih =>
      obtain ⟨hb, hbs⟩ := List.forall_mem_cons.mp h
      obtain ⟨cs, rfl⟩ := ih hbs
      exact ⟨Char.ofNat b.toNat :: cs, by rw [encode, List.flatMap_cons, encode_one hb]; rfl⟩

theorem valid_cons_ascii_iff {b : UInt8} {tail : Bytes} (htail : ∀ c ∈ tail, c.toNat < 0x80) :
    Valid (b :: tail) ↔ b.toNat < 0x80 := by
  constructor
  · rintro ⟨cs, hcs⟩
    rcases cs with _ | ⟨c, cs⟩
    · cases hcs
    · rw [encode, List.flatMap_cons] at hcs
      rcases encodeChar_cases c with ⟨d, hcode, hd⟩ | ⟨d, e, rest, hcode, hbeyond⟩
      · rw [hcode] at hcs
        cases hcs
        exact hd
      · rw [hcode, List.cons_append, List.cons_append] at hcs
        obtain ⟨-, rfl⟩ := List.cons.inj hcs
        have he := htail e List.mem_cons_self
        have he' := hbeyond e (by simp)
        omega
  · intro hb
    exact valid_of_ascii (List.forall_mem_cons.mpr ⟨hb, htail⟩)

end Utf8

namespace Byte

theorem isIdentContinue_ascii {b : UInt8} (h : isIdentContinue b = true) : b.toNat < 0x80 := by
  simp only [isIdentContinue, isAlpha, isDigit, isUnderscore, underscore, Bool.or_eq_true,
    Bool.and_eq_true, decide_eq_true_eq, beq_iff_eq, UInt8.le_iff_toNat_le, ← UInt8.toNat_inj,
    UInt8.reduceToNat] at h
  omega

theorem isDigit_ascii {b : UInt8} (h : isDigit b = true) : b.toNat < 0x80 :=
  isIdentContinue_ascii (by simp [isIdentContinue, h])

end Byte

theorem Quote.byte_ascii (q : Quote) : q.byte.toNat < 0x80 := by
  cases q <;> decide

namespace Token

theorem isSome_literalString?_iff {t : Token} {literal : Bytes} (h : t.literal = some literal) :
    t.literalString?.isSome = true ↔ Utf8.Valid literal := by
  rw [literalString?, h, Option.isSome_map, Option.bind_some, Utf8.valid_iff_isSome_decode?]

/-- The literal of the token is text, unless the token is a name that starts with a byte beyond
ASCII. No other byte of a name is beyond ASCII. -/
def Legible (t : Token) : Prop :=
  ∀ literal, t.literal = some literal →
    (t.literalString?.isSome = true ↔
      ¬ (t.kind = .identifier ∧ ∃ b, literal.head? = some b ∧ 0x80 ≤ b)) ∧
    (t.kind = .identifier → ∀ b ∈ literal.tail, b < 0x80)

theorem legible_of_literal_none {t : Token} (h : t.literal = none) : t.Legible := by
  intro literal hliteral
  rw [h] at hliteral
  cases hliteral

theorem legible_of_valid {t : Token} (hkind : t.kind ≠ .identifier) {literal : Bytes}
    (hliteral : t.literal = some literal) (h : Utf8.Valid literal) : t.Legible := by
  rintro literal' hliteral'
  obtain rfl : literal = literal' := Option.some.inj (hliteral.symm.trans hliteral')
  rw [isSome_literalString?_iff hliteral]
  exact ⟨⟨fun _ hboth => hkind hboth.1, fun _ => h⟩, fun heq => absurd heq hkind⟩

theorem legible_name {b : UInt8} {tail : Bytes} (h : ∀ c ∈ tail, Byte.isIdentContinue c = true)
    (start stop : Position) : (withLiteral .identifier (b :: tail) start stop).Legible := by
  intro literal hliteral
  obtain rfl : b :: tail = literal := Option.some.inj hliteral
  have htail : ∀ c ∈ tail, c.toNat < 0x80 := fun c hc => Byte.isIdentContinue_ascii (h c hc)
  rw [isSome_literalString?_iff hliteral, Utf8.valid_cons_ascii_iff htail]
  refine ⟨?_, fun _ c hc => UInt8.lt_iff_toNat_lt.mpr (htail c hc)⟩
  simp [withLiteral, UInt8.le_iff_toNat_le]

theorem literal_of_endOfLine {t : Token} (h : t.shape.WellShaped) (hkind : t.kind = .endOfLine) :
    t.literal = none := by
  obtain ⟨kind, literal, start, stop⟩ := t
  obtain rfl : kind = .endOfLine := hkind
  rcases literal with _ | literal
  · rfl
  · exact absurd h id

theorem legible_of_wellShaped {t : Token} (h : t.shape.WellShaped)
    (hstring : ∀ text, t.shape = (.stringLit, some text) → Utf8.Valid text) : t.Legible := by
  obtain ⟨kind, literal, start, stop⟩ := t
  rcases literal with _ | literal
  · exact legible_of_literal_none rfl
  · unfold Shape.WellShaped shape at h
    dsimp only at h
    split at h
    · obtain ⟨-, hdigits⟩ := h
      have hvalid : Utf8.Valid literal :=
        Utf8.valid_of_ascii fun b hb => Byte.isDigit_ascii (hdigits b hb)
      exact legible_of_valid (by simp) rfl hvalid
    · exact legible_of_valid (by simp) rfl (hstring literal rfl)
    · obtain ⟨⟨b, tail, rfl, -, htail⟩, -⟩ := h
      exact legible_name htail start stop
    · exact absurd h id

end Token

namespace Lexeme

theorem valid_of_quoted {ls : List Lexeme} (h : Utf8.Valid (ls.flatMap bytes)) {q : Quote}
    {text : Bytes} (hmem : .quoted q text ∈ ls) : Utf8.Valid text := by
  obtain ⟨before, after, rfl⟩ := List.append_of_mem hmem
  rw [List.flatMap_append, List.flatMap_cons, bytes, List.cons_append, List.append_assoc] at h
  obtain ⟨-, hopened⟩ := h.cut q.byte_ascii
  exact (hopened.cut q.byte_ascii).1

theorem eq_quoted_of_mem_signals {l : Lexeme} {p q : Position} {t : Token} {text : Bytes}
    (ht : t.shape = (.stringLit, some text)) (h : .token t ∈ l.signals p q) :
    ∃ quote, l = .quoted quote text := by
  obtain ⟨hkind, hliteral⟩ := Prod.mk.inj ht
  cases l with
  | quoted quote content =>
      obtain rfl : t = _ := by simpa [signals] using h
      cases hliteral
      exact ⟨quote, rfl⟩
  | number digits =>
      obtain rfl : t = _ := by simpa [signals] using h
      cases hkind
  | name content =>
      obtain rfl : t = _ := by simpa [signals] using h
      cases hkind
  | lineBreak =>
      obtain rfl : t = _ := by simpa [signals] using h
      cases hliteral
  | symbol k =>
      obtain rfl : t = _ := by simpa [signals] using h
      cases hliteral
  | blockComment content =>
      obtain ⟨r, rfl⟩ := Shape.eq_lineBreakAt_of_mem_lineBreaks h
      cases hliteral
  | openComment content =>
      obtain ⟨r, rfl⟩ := Shape.eq_lineBreakAt_of_mem_lineBreaks (by simpa [signals] using h)
      cases hliteral
  | _ => simp [signals] at h

theorem exists_quoted_of_mem_tokensFrom {ls : List Lexeme} {p : Position} {t : Token}
    {text : Bytes} (ht : t.shape = (.stringLit, some text)) (h : t ∈ tokensFrom p ls) :
    ∃ quote, .quoted quote text ∈ ls := by
  induction ls generalizing p with
  | nil => cases h
  | cons l ls ih =>
      rw [tokensFrom_cons, List.mem_append] at h
      rcases h with h | h
      · obtain ⟨signal, hsignal, heq⟩ := List.mem_filterMap.mp h
        rcases signal with u | _
        · cases heq
          obtain ⟨quote, rfl⟩ := eq_quoted_of_mem_signals ht hsignal
          exact ⟨quote, List.mem_cons_self⟩
        · cases heq
      · obtain ⟨quote, hquoted⟩ := ih h
        exact ⟨quote, List.mem_cons_of_mem _ hquoted⟩

theorem legible_of_mem_tokensFrom {source : Bytes} (h : Utf8.Valid source) {p : Position}
    {t : Token} (ht : t ∈ tokensFrom p (split source)) : t.Legible := by
  apply Token.legible_of_wellShaped (Shape.wellShaped_of_mem_tokensFrom (tiles_split source) ht)
  intro text htext
  obtain ⟨quote, hquoted⟩ := exists_quoted_of_mem_tokensFrom htext ht
  rw [← flatMap_bytes_split source] at h
  exact valid_of_quoted h hquoted

end Lexeme

namespace Terminator

variable {P : Token → Prop}

theorem Progress.Moves.forall_mem {t : Token} {emitted emitted' : List Token}
    (h : Moves t emitted emitted') (ht : P t)
    (hbreak : t.kind = .endOfLine → ∀ p, P ⟨.semicolon, t.literal, p, p⟩)
    (hemitted : ∀ u ∈ emitted, P u) : ∀ u ∈ emitted', P u := by
  cases h with
  | drop hline => exact hemitted
  | insert hline hends => exact List.forall_mem_cons.mpr ⟨hbreak hline _, hemitted⟩
  | replace hsemicolon hlast =>
      exact List.forall_mem_cons.mpr ⟨ht, (List.forall_mem_cons.mp hemitted).2⟩
  | push hline hapart => exact List.forall_mem_cons.mpr ⟨ht, hemitted⟩

theorem Progress.forall_mem_foldl {ts : List Token} {s : Progress} (hts : ∀ t ∈ ts, P t)
    (hbreak : ∀ t ∈ ts, t.kind = .endOfLine → ∀ p, P ⟨.semicolon, t.literal, p, p⟩)
    (hs : ∀ u ∈ s.emitted, P u) : ∀ u ∈ (ts.foldl step s).emitted, P u := by
  induction ts generalizing s with
  | nil => exact hs
  | cons t ts ih =>
      obtain ⟨ht, hts⟩ := List.forall_mem_cons.mp hts
      obtain ⟨hbreak, hbreaks⟩ := List.forall_mem_cons.mp hbreak
      exact ih hts hbreaks ((step_moves s t).forall_mem ht hbreak hs)

theorem forall_mem_terminate {ts : List Token} (hts : ∀ t ∈ ts, P t)
    (hbreak : ∀ t ∈ ts, t.kind = .endOfLine → ∀ p, P ⟨.semicolon, t.literal, p, p⟩)
    (hlast : ∀ p, P (.terminatorAt p)) : ∀ u ∈ terminate ts, P u := by
  intro u hu
  rcases List.mem_append.mp hu with hu | hu
  · have hemitted := @Progress.forall_mem_foldl P ts .start hts hbreak (by simp [Progress.start])
    exact hemitted u (List.mem_reverse.mp hu)
  · rw [Option.mem_toList] at hu
    unfold missing? at hu
    split at hu
    · cases hu
      exact hlast _
    · split at hu
      · cases hu
      · cases hu
        exact hlast _

end Terminator

/-- In a UTF-8 source the literal of every token, raw or final, is text, but for the names that
start with a byte beyond ASCII. -/
theorem literalString?_isSome_iff {source : Bytes} (hadmissible : Admissible source)
    (hvalid : Utf8.Valid source) :
    ∃ raw final, rawTokens source = .ok raw ∧ tokenize source = .ok final ∧
      (∀ t ∈ raw, t.Legible) ∧ ∀ t ∈ final, t.Legible := by
  have hraw : ∀ t ∈ Lexeme.tokensFrom .start (Lexeme.split source), t.Legible :=
    fun t ht => Lexeme.legible_of_mem_tokensFrom hvalid ht
  refine ⟨_, _, rawTokens_of_admissible hadmissible, tokenize_of_admissible hadmissible, hraw, ?_⟩
  apply Terminator.forall_mem_terminate hraw _ fun p => Token.legible_of_literal_none rfl
  intro t ht hkind p
  have hshape := Shape.wellShaped_of_mem_tokensFrom (Lexeme.tiles_split source) ht
  have hnone : t.literal = none := Token.literal_of_endOfLine hshape hkind
  exact Token.legible_of_literal_none hnone

theorem literalString?_isSome_iff_split_character :
    ∃ raw final, rawTokens (Bytes.ofString "é\"é\"é7") = .ok raw ∧
      tokenize (Bytes.ofString "é\"é\"é7") = .ok final ∧
      (∀ t ∈ raw, t.Legible) ∧ (∀ t ∈ final, t.Legible) ∧
      raw.map Token.literalString? = [none, none, some "é", none, none] ∧
      raw.map Token.literal =
        [some [0xC3], some [0xA9], some [0xC3, 0xA9], some [0xC3], some [0xA9, 0x37]] := by
  have hadmissible : Admissible (Bytes.ofString "é\"é\"é7") := admissible_of_length (by decide)
  have hvalid : Utf8.Valid (Bytes.ofString "é\"é\"é7") :=
    ⟨['é', '"', 'é', '"', 'é', '7'], by decide⟩
  have hsplit : Lexeme.split (Bytes.ofString "é\"é\"é7") =
      [.name [0xC3], .name [0xA9], .quoted .double [0xC3, 0xA9], .name [0xC3],
        .name [0xA9, 0x37]] :=
    Lexeme.split_eq_iff.mpr (by decide)
  obtain ⟨raw, final, hraw, hfinal, hlegible⟩ := literalString?_isSome_iff hadmissible hvalid
  rw [rawTokens_of_admissible hadmissible, hsplit] at hraw
  obtain rfl := Except.ok.inj hraw
  refine ⟨_, final, ?_, hfinal, hlegible.1, hlegible.2, by decide +kernel, by decide⟩
  rw [rawTokens_of_admissible hadmissible, hsplit]

end StatementLexer
