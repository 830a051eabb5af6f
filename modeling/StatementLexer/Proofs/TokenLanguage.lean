import StatementLexer.Proofs.Report
import StatementLexer.Proofs.Tiling

namespace StatementLexer

/-- A token without its positions. -/
abbrev Shape := Kind × Option Bytes

def Token.shape (t : Token) : Shape :=
  (t.kind, t.literal)

namespace Shape

/-- The shapes of the tokens that a source can have. -/
def WellShaped (s : Shape) : Prop :=
  match s.2 with
  | none => s.1 = .endOfLine ∨ s.1.spelling?.isSome = true
  | some literal =>
      match s.1 with
      | .intLit => literal ≠ [] ∧ ∀ c ∈ literal, Byte.isDigit c = true
      | .stringLit => ¬ (Byte.doubleQuote ∈ literal ∧ Byte.backquote ∈ literal)
      | .identifier =>
          (∃ b tail, literal = b :: tail ∧ Byte.startsName b = true ∧
            ∀ c ∈ tail, Byte.isIdentContinue c = true) ∧
              ∀ k ∈ Kind.keywords, k.spelling? ≠ some literal
      | _ => False

def quote (text : Bytes) : Quote :=
  if Byte.doubleQuote ∈ text then .back else .double

def spell (s : Shape) : Bytes :=
  match s.2 with
  | none => s.1.spelling?.getD [Byte.lineFeed]
  | some literal =>
      match s.1 with
      | .stringLit => (quote literal).byte :: (literal ++ [(quote literal).byte])
      | _ => literal

/-- The shapes, written one after the other with single spaces between them. -/
def render (ss : List Shape) : Bytes :=
  [Byte.space].intercalate (ss.map spell)

def unit (s : Shape) : Lexeme :=
  match s.2 with
  | none => if s.1 = .endOfLine then .lineBreak else .symbol s.1
  | some literal =>
      match s.1 with
      | .intLit => .number literal
      | .stringLit => .quoted (quote literal) literal
      | _ => .name literal

/-- What a unit of its own is for a shape: it is written as the shape is, it is well-formed, a
space may follow it, and its only token has the shape. -/
structure Stands (s : Shape) (l : Lexeme) : Prop where
  bytes : l.bytes = s.spell
  wellFormed : l.WellFormed
  takes : l.takes Byte.space = false
  tokens : ∀ p q, ((l.signals p q).filterMap Signal.token?).map Token.shape = [s]

theorem quote_not_mem {text : Bytes} (h : ¬ (Byte.doubleQuote ∈ text ∧ Byte.backquote ∈ text)) :
    (quote text).byte ∉ text := by
  unfold quote
  split
  · next hdouble =>
      intro hback
      exact h ⟨hdouble, hback⟩
  · next hdouble => exact hdouble

theorem stands_unit {s : Shape} (h : s.WellShaped) : Stands s s.unit := by
  obtain ⟨kind, literal⟩ := s
  have hblank : Byte.isBlank Byte.space = true := rfl
  rcases literal with _ | literal
  · rcases h with hline | hspelling
    · change kind = _ at hline
      subst hline
      exact ⟨rfl, trivial, rfl, fun p q => rfl⟩
    · change kind.spelling?.isSome = true at hspelling
      have hkind : kind ≠ .endOfLine := by
        rintro rfl
        cases hspelling
      have hunit : unit (kind, none) = .symbol kind := if_neg hkind
      rw [hunit]
      refine ⟨?_, hspelling, Lexeme.takes_of_isBlank rfl hblank ?_, fun p q => rfl⟩
      · obtain ⟨w, hw⟩ := Option.isSome_iff_exists.mp hspelling
        simp [Lexeme.bytes, spell, hw]
      · intro text htext
        cases htext
  · unfold WellShaped at h
    dsimp only at h
    split at h
    · exact ⟨rfl, h, rfl, fun p q => rfl⟩
    · exact ⟨rfl, quote_not_mem h, rfl, fun p q => rfl⟩
    · obtain ⟨⟨b, tail, rfl, hb, htail⟩, hkeyword⟩ := h
      exact ⟨rfl, ⟨hb, htail, hkeyword⟩, rfl, fun p q => rfl⟩
    · exact absurd h id

/-- The units of a rendering: those of the shapes, with a blank between one and the next. -/
def units : List Shape → List Lexeme
  | [] => []
  | [s] => [s.unit]
  | s :: t :: ss => s.unit :: .blank Byte.space :: units (t :: ss)

theorem render_cons_cons (s t : Shape) (ss : List Shape) :
    render (s :: t :: ss) = s.spell ++ Byte.space :: render (t :: ss) := by
  simp [render, List.intercalate]

theorem flatMap_bytes_units {ss : List Shape} (h : ∀ s ∈ ss, s.WellShaped) :
    (units ss).flatMap Lexeme.bytes = render ss := by
  induction ss using units.induct with
  | case1 => rfl
  | case2 s =>
      have hs := stands_unit (h s (by simp))
      simp [units, render, List.intercalate, hs.bytes]
  | case3 s t ss ih =>
      have hs := stands_unit (h s (by simp))
      have hrest := ih fun r hr => h r (List.mem_cons_of_mem _ hr)
      rw [units, List.flatMap_cons, List.flatMap_cons, hs.bytes, hrest, render_cons_cons]
      rfl

theorem tiles_units {ss : List Shape} (h : ∀ s ∈ ss, s.WellShaped) :
    Lexeme.Tiles (units ss) [] := by
  induction ss using units.induct with
  | case1 => trivial
  | case2 s =>
      have hs := stands_unit (h s (by simp))
      exact ⟨hs.wellFormed, ends_nil _, trivial⟩
  | case3 s t ss ih =>
      have hs := stands_unit (h s (by simp))
      have hrest := ih fun r hr => h r (List.mem_cons_of_mem _ hr)
      exact ⟨hs.wellFormed, ends_cons.mpr hs.takes, rfl, fun _ _ => rfl, hrest⟩

theorem shape_tokensFrom_units {ss : List Shape} (h : ∀ s ∈ ss, s.WellShaped) (p : Position) :
    (Lexeme.tokensFrom p (units ss)).map Token.shape = ss := by
  induction ss using units.induct generalizing p with
  | case1 => rfl
  | case2 s =>
      have hs := stands_unit (h s (by simp))
      rw [units, Lexeme.tokensFrom_cons, List.map_append, hs.tokens]
      rfl
  | case3 s t ss ih =>
      have hs := stands_unit (h s (by simp))
      have hrest := ih fun r hr => h r (List.mem_cons_of_mem _ hr)
      rw [units, Lexeme.tokensFrom_cons, List.map_append, hs.tokens, Lexeme.tokensFrom_cons]
      exact congrArg (s :: ·) (hrest _)

theorem eq_lineBreakAt_of_mem_lineBreaks {line : Nat} {text : Bytes} {t : Token}
    (h : Signal.token t ∈ Lexeme.lineBreaks line text) : ∃ p, t = .lineBreakAt p := by
  obtain ⟨i, -, hi⟩ := List.mem_map.mp h
  cases hi
  exact ⟨_, rfl⟩

theorem wellShaped_of_mem_signals {l : Lexeme} (hl : l.WellFormed) {p q : Position} {t : Token}
    (ht : Signal.token t ∈ l.signals p q) : t.shape.WellShaped := by
  rcases l with _ | _ | _ | text | text | ⟨q, text⟩ | _ | digits | k | text
  case lineBreak =>
    obtain rfl : t = _ := by simpa [Lexeme.signals] using ht
    exact .inl rfl
  case quoted =>
    obtain rfl : t = _ := by simpa [Lexeme.signals] using ht
    rintro ⟨hdouble, hback⟩
    rcases q with _ | _
    · exact hl hdouble
    · exact hl hback
  case number =>
    obtain rfl : t = _ := by simpa [Lexeme.signals] using ht
    exact hl
  case symbol =>
    obtain rfl : t = _ := by simpa [Lexeme.signals] using ht
    exact .inr hl
  case name =>
    obtain rfl : t = _ := by simpa [Lexeme.signals] using ht
    rcases text with _ | ⟨b, tail⟩
    · exact absurd hl id
    · exact ⟨⟨b, tail, rfl, hl.1, hl.2.1⟩, hl.2.2⟩
  case blockComment =>
    obtain ⟨r, rfl⟩ := eq_lineBreakAt_of_mem_lineBreaks ht
    exact .inl rfl
  case openComment =>
    obtain ⟨r, rfl⟩ := eq_lineBreakAt_of_mem_lineBreaks (by simpa [Lexeme.signals] using ht)
    exact .inl rfl
  all_goals simp [Lexeme.signals] at ht

theorem wellShaped_of_mem_tokensFrom {ls : List Lexeme} {rest : Bytes} (h : Lexeme.Tiles ls rest)
    {p : Position} {t : Token} (ht : t ∈ Lexeme.tokensFrom p ls) : t.shape.WellShaped := by
  induction ls generalizing p with
  | nil => cases ht
  | cons l ls ih =>
      obtain ⟨hl, -, hls⟩ := h
      rw [Lexeme.tokensFrom_cons, List.mem_append] at ht
      rcases ht with ht | ht
      · obtain ⟨signal, hsignal, heq⟩ := List.mem_filterMap.mp ht
        rcases signal with u | _
        · cases heq
          exact wellShaped_of_mem_signals hl hsignal
        · cases heq
      · exact ih hls ht

/-- The shapes of a scan are well-formed, and every sequence of well-formed shapes is scanned from
its own rendering. -/
theorem rawTokens_shapes :
    (∀ source, Admissible source →
      ∃ ts, rawTokens source = .ok ts ∧ ∀ t ∈ ts, t.shape.WellShaped) ∧
      ∀ ss : List Shape, (∀ s ∈ ss, s.WellShaped) → Admissible (render ss) →
        ∃ ts, rawTokens (render ss) = .ok ts ∧ ts.map Token.shape = ss := by
  constructor
  · intro source hadmissible
    refine ⟨_, rawTokens_of_admissible hadmissible, ?_⟩
    intro t ht
    exact wellShaped_of_mem_tokensFrom (Lexeme.tiles_split source) ht
  · intro ss hss hadmissible
    refine ⟨_, rawTokens_of_admissible hadmissible, ?_⟩
    have hsplit : Lexeme.split (render ss) = units ss :=
      Lexeme.split_eq_iff.mpr ⟨flatMap_bytes_units hss, tiles_units hss⟩
    rw [hsplit]
    exact shape_tokensFrom_units hss .start

theorem rawTokens_shapes_slash_asterisk :
    ∃ ts, rawTokens (Bytes.ofString "/ * `\"` \n @if if") = .ok ts ∧
      (∀ t ∈ ts, t.shape.WellShaped) ∧
        ts.map Token.shape =
          [(.divide, none), (.mul, none), (.stringLit, some (Bytes.ofString "\"")),
            (.endOfLine, none), (.identifier, some (Bytes.ofString "@if")), (.ifWord, none)] := by
  let ss : List Shape :=
    [(.divide, none), (.mul, none), (.stringLit, some (Bytes.ofString "\"")),
      (.endOfLine, none), (.identifier, some (Bytes.ofString "@if")), (.ifWord, none)]
  have hrender : Bytes.ofString "/ * `\"` \n @if if" = render ss := by decide
  have hadmissible : Admissible (render ss) := admissible_of_length (by decide)
  have hstring : ¬ (Byte.doubleQuote ∈ [Byte.doubleQuote] ∧ Byte.backquote ∈ [Byte.doubleQuote]) :=
    by decide
  have hname : WellShaped (.identifier, some (Bytes.ofString "@if")) :=
    ⟨⟨_, _, rfl, by decide, List.all_eq_true.mp rfl⟩, by decide⟩
  have hss : ∀ s ∈ ss, s.WellShaped := by
    simp only [ss, List.forall_mem_cons]
    exact ⟨.inr rfl, .inr rfl, hstring, .inl rfl, hname, .inr rfl, fun s hs => by cases hs⟩
  obtain ⟨ts, hts, hshapes⟩ := rawTokens_shapes.2 ss hss hadmissible
  obtain ⟨us, hus, hwell⟩ := rawTokens_shapes.1 (render ss) hadmissible
  rw [hts] at hus
  cases hus
  exact ⟨ts, hrender ▸ hts, hwell, hshapes⟩

end Shape

end StatementLexer
