import Mathlib.Data.List.Chain
import StatementLexer.Proofs.Report
import StatementLexer.Proofs.Tiling

/-!
Where the tokens of a scan stand in their source. A source map gives every token its two offsets;
what lies between the tokens is described by a grammar of its own.
-/

namespace StatementLexer

def slice (source : Bytes) (i j : Nat) : Bytes :=
  (source.take j).drop i

structure Placed where
  token : Token
  first : Nat
  last : Nat
  deriving DecidableEq, Repr

namespace Placed

/-- The offset at which the bytes of a token begin: a string literal starts behind its opening
delimiter. -/
def left (p : Placed) : Nat :=
  if p.token.kind = .stringLit then p.first - 1 else p.first

def isLineBreak (p : Placed) : Bool :=
  p.token.kind == .endOfLine

/-- What a token says of the bytes between its offsets. -/
def Spells (source : Bytes) (p : Placed) : Prop :=
  match p.token.kind with
  | .endOfLine =>
      p.first = p.last ∧ 0 < p.first ∧ source[p.first - 1]? = some Byte.lineFeed ∧
        p.token.literal = none
  | .stringLit =>
      0 < p.first ∧ p.first < p.last ∧ ∃ q : Quote,
        source[p.first - 1]? = some q.byte ∧ source[p.last - 1]? = some q.byte ∧
          p.token.literal = some (slice source p.first (p.last - 1)) ∧
            q.byte ∉ slice source p.first (p.last - 1)
  | .intLit => p.token.literal = some (slice source p.first p.last)
  | .identifier => p.token.literal = some (slice source p.first p.last)
  | k => k.spelling? = some (slice source p.first p.last) ∧ p.token.literal = none

structure Fits (source : Bytes) (p : Placed) : Prop where
  start : p.token.start = locate source p.first
  stop : p.token.stop = locate source p.last
  spells : p.Spells source

end Placed

def offsets (ps : List Placed) : List Nat :=
  ps.flatMap fun p => [p.first, p.last]

/-- What may stand between tokens, with `after` behind it: blanks, line feeds, and complete
comments. A line comment goes on to a line feed or to the end. -/
inductive Filler : Bytes → Bytes → Prop
  | nil (after : Bytes) : Filler [] after
  | blank {b : UInt8} {rest after : Bytes} :
      Byte.isWhitespace b = true → Filler rest after → Filler (b :: rest) after
  | lineFeed {rest after : Bytes} :
      Filler rest after → Filler (Byte.lineFeed :: rest) after
  | lineComment {text rest after : Bytes} :
      Byte.lineFeed ∉ text → Ends (· != Byte.lineFeed) (rest ++ after) → Filler rest after →
        Filler (Byte.slash :: Byte.slash :: text ++ rest) after
  | blockComment {text rest after : Bytes} :
      ¬ Lexeme.closing <:+: text ++ [Byte.asterisk] → Filler rest after →
        Filler (Byte.slash :: Byte.asterisk :: (text ++ Lexeme.closing) ++ rest) after

inductive Truncated : Bytes → Prop
  | string {q : Quote} {text : Bytes} : q.byte ∉ text → Truncated (q.byte :: text)
  | comment {text : Bytes} :
      ¬ Lexeme.closing <:+: text → Truncated (Byte.slash :: Byte.asterisk :: text)

/-- From offset `k` on, the source consists of the bytes of the tokens with filler before each of
them. After the last one there is filler again, and at most one construct that is never closed. -/
def Covered (source : Bytes) : Nat → List Placed → Prop
  | k, [] => ∃ stretch tail, source.drop k = stretch ++ tail ∧ Filler stretch tail ∧
      (tail = [] ∨ Truncated tail)
  | k, p :: ps => k ≤ p.left ∧ Filler (slice source k p.left) (source.drop p.left) ∧
      Covered source p.last ps

/-- The tokens `ts` stand in the source at the places `ps`, in order and without overlap, and
nothing but filler is left over. -/
structure SourceMap (source : Bytes) (ts : List Token) (ps : List Placed) : Prop where
  tokens : ps.map Placed.token = ts
  ordered : (offsets ps ++ [source.length]).IsChain (· ≤ ·)
  fits : ∀ p ∈ ps, p.Fits source
  covered : Covered source 0 (ps.filter fun p => !p.isLineBreak)

/-- The tokens `ts` stand at the places `ps` among the `n` bytes from offset `k` on. -/
structure Places (source : Bytes) (k n : Nat) (ts : List Token) (ps : List Placed) : Prop where
  tokens : ps.map Placed.token = ts
  ordered : (k :: offsets ps ++ [k + n]).IsChain (· ≤ ·)
  fits : ∀ p ∈ ps, p.Fits source

namespace Places

theorem empty (source : Bytes) (k n : Nat) : Places source k n [] [] := by
  refine ⟨rfl, by simp [offsets], ?_⟩
  intro p hp
  cases hp

theorem single {source : Bytes} {k n : Nat} {p : Placed} (hfirst : k ≤ p.first)
    (hlast : p.first ≤ p.last) (hend : p.last ≤ k + n) (hfits : p.Fits source) :
    Places source k n [p.token] [p] := by
  refine ⟨rfl, ?_, by simpa using hfits⟩
  simp [offsets, List.isChain_cons_cons, hfirst, hlast, hend]

theorem append {source : Bytes} {k n m : Nat} {ts us : List Token} {ps qs : List Placed}
    (h : Places source k n ts ps) (h' : Places source (k + n) m us qs) :
    Places source k (n + m) (ts ++ us) (ps ++ qs) := by
  refine ⟨by rw [List.map_append, h.tokens, h'.tokens], ?_, ?_⟩
  · have hchain := List.isChain_split.mpr ⟨h.ordered, h'.ordered⟩
    have hsublist : (k :: offsets (ps ++ qs) ++ [k + (n + m)]).Sublist
        (k :: offsets ps ++ (k + n) :: (offsets qs ++ [k + n + m])) := by
      rw [offsets, List.flatMap_append, ← Nat.add_assoc, List.cons_append, List.cons_append,
        List.append_assoc]
      exact ((List.sublist_cons_self _ _).append_left _).cons_cons _
    exact ((List.isChain_iff_pairwise.mp hchain).sublist hsublist).isChain
  · intro p hp
    rcases List.mem_append.mp hp with hp | hp
    · exact h.fits p hp
    · exact h'.fits p hp

end Places

theorem locate_length (before rest : Bytes) :
    locate (before ++ rest) before.length = Position.start.past before := by
  rw [← Position.past_take, List.take_left]

theorem locate_length_add (before text rest : Bytes) :
    locate (before ++ text ++ rest) (before.length + text.length) =
      Position.start.past (before ++ text) := by
  rw [← List.length_append, locate_length]

@[simp] theorem slice_append (before text rest : Bytes) :
    slice (before ++ text ++ rest) before.length (before.length + text.length) = text := by
  rw [slice, ← List.length_append, List.take_left, List.drop_left]

namespace Lexeme

/-- The units that stand for a token of their own. -/
def isToken : Lexeme → Bool
  | .quoted .. => true
  | .number _ => true
  | .symbol _ => true
  | .name _ => true
  | _ => false

theorem lineBreaks_lineFeed (line : Nat) (text : Bytes) :
    lineBreaks line (Byte.lineFeed :: text) =
      .token (.lineBreakAt ⟨line + 1, 0⟩) :: lineBreaks (line + 1) text := by
  rw [lineBreaks, List.count_cons_self, List.range_succ_eq_map, List.map_cons, List.map_map,
    lineBreaks]
  refine congrArg₂ _ rfl (List.map_congr_left fun i _ => ?_)
  simp [Nat.add_assoc, Nat.add_comm 1]

theorem lineBreaks_of_ne {b : UInt8} (h : b ≠ Byte.lineFeed) (line : Nat) (text : Bytes) :
    lineBreaks line (b :: text) = lineBreaks line text := by
  rw [lineBreaks, List.count_cons_of_ne h, lineBreaks]

end Lexeme

theorem fits_lineBreak (before rest : Bytes) :
    Placed.Fits (before ++ [Byte.lineFeed] ++ rest)
      ⟨.lineBreakAt ⟨(Position.start.past before).line + 1, 0⟩, before.length + 1,
        before.length + 1⟩ := by
  have hlocate : locate (before ++ [Byte.lineFeed] ++ rest) (before.length + 1) =
      ⟨(Position.start.past before).line + 1, 0⟩ := by
    have := locate_length_add before [Byte.lineFeed] rest
    rw [Position.past_append] at this
    exact this
  refine ⟨hlocate.symm, hlocate.symm, rfl, Nat.succ_pos _, ?_, rfl⟩
  simp

theorem places_lineBreaks (before text rest : Bytes) :
    ∃ ps, Places (before ++ text ++ rest) before.length text.length
      ((Lexeme.lineBreaks (Position.start.past before).line text).filterMap Signal.token?) ps ∧
        ∀ p ∈ ps, p.isLineBreak = true := by
  induction text generalizing before with
  | nil => exact ⟨[], Places.empty _ _ _, fun p hp => absurd hp List.not_mem_nil⟩
  | cons b text ih =>
      have hsource : before ++ b :: text ++ rest = before ++ [b] ++ text ++ rest := by simp
      obtain ⟨ps, hps, hbreaks⟩ := ih (before ++ [b])
      rw [List.length_append, List.length_singleton, Position.past_append] at hps
      rw [hsource, List.length_cons, Nat.add_comm text.length]
      rcases eq_or_ne b Byte.lineFeed with rfl | hb
      · rw [Lexeme.lineBreaks_lineFeed]
        have hfirst : Places (before ++ [Byte.lineFeed] ++ text ++ rest) before.length 1 _ _ :=
          Places.single (Nat.le_succ _) (Nat.le_refl _) (Nat.le_refl _)
            (by simpa using fits_lineBreak before (text ++ rest))
        refine ⟨_, hfirst.append hps, ?_⟩
        intro p hp
        rcases List.mem_append.mp hp with hp | hp
        · rw [List.mem_singleton.mp hp]
          rfl
        · exact hbreaks p hp
      · rw [Lexeme.lineBreaks_of_ne hb]
        rw [Position.past_cons, Position.past_nil, Position.next_of_ne hb] at hps
        exact ⟨ps, (Places.empty _ _ 1).append hps, hbreaks⟩

theorem spells_of_spelling? {source : Bytes} {p : Placed}
    (h : p.token.kind.spelling? = some (slice source p.first p.last))
    (hliteral : p.token.literal = none) : p.Spells source := by
  unfold Placed.Spells
  split
  · next hkind =>
      rw [hkind] at h
      cases h
  · next hkind =>
      rw [hkind] at h
      cases h
  · next hkind =>
      rw [hkind] at h
      cases h
  · next hkind =>
      rw [hkind] at h
      cases h
  · exact ⟨h, hliteral⟩

theorem places_comment (before text close rest : Bytes) :
    ∃ ps, Places (before ++ (Byte.slash :: Byte.asterisk :: (text ++ close)) ++ rest)
      before.length (Byte.slash :: Byte.asterisk :: (text ++ close)).length
      ((Lexeme.lineBreaks (Position.start.past before).line text).filterMap Signal.token?) ps ∧
        ∀ p ∈ ps, p.isLineBreak = true := by
  obtain ⟨ps, hps, hbreaks⟩ :=
    places_lineBreaks (before ++ [Byte.slash, Byte.asterisk]) text (close ++ rest)
  have hline : (Position.start.past (before ++ [Byte.slash, Byte.asterisk])).line =
      (Position.start.past before).line := by
    rw [Position.past_append]
    rfl
  rw [hline, List.length_append] at hps
  have hplaces := ((Places.empty _ before.length 2).append hps).append
    (Places.empty _ _ close.length)
  refine ⟨ps, ?_, hbreaks⟩
  simpa [Nat.add_assoc, Nat.add_comm, Nat.add_left_comm] using hplaces

theorem places_of_not_isToken {l : Lexeme} (h : l.isToken = false) (before rest : Bytes) :
    ∃ ps, Places (before ++ l.bytes ++ rest) before.length l.bytes.length
      ((l.signals (Position.start.past before)
        ((Position.start.past before).past l.bytes)).filterMap Signal.token?) ps ∧
          ∀ p ∈ ps, p.isLineBreak = true := by
  have hnone : ∀ (source : Bytes) (n : Nat), ∃ ps, Places source before.length n [] ps ∧
      ∀ p ∈ ps, p.isLineBreak = true :=
    fun source n => ⟨[], Places.empty _ _ _, fun p hp => absurd hp List.not_mem_nil⟩
  cases l with
  | lineBreak =>
      refine ⟨_, Places.single (Nat.le_succ _) (Nat.le_refl _) (Nat.le_refl _)
        (fits_lineBreak before rest), ?_⟩
      intro p hp
      rw [List.mem_singleton.mp hp]
      rfl
  | blank b => exact hnone _ _
  | lineComment text => exact hnone _ _
  | blockComment text => exact places_comment before text Lexeme.closing rest
  | openComment text =>
      have hsignals : ((Lexeme.openComment text).signals (Position.start.past before)
          ((Position.start.past before).past (Lexeme.openComment text).bytes)).filterMap
            Signal.token? =
          (Lexeme.lineBreaks (Position.start.past before).line text).filterMap Signal.token? := by
        rw [Lexeme.signals, List.filterMap_append]
        exact List.append_nil _
      rw [hsignals]
      simpa [Lexeme.bytes] using places_comment before text [] rest
  | quoted q text => cases h
  | openQuoted q text => exact hnone _ _
  | number digits => cases h
  | symbol k => cases h
  | name text => cases h

theorem places_whole {before text rest : Bytes} {t : Token}
    (hstart : t.start = Position.start.past before)
    (hstop : t.stop = (Position.start.past before).past text)
    (hspells : Placed.Spells (before ++ text ++ rest)
      ⟨t, before.length, before.length + text.length⟩)
    (hstring : t.kind ≠ .stringLit) (hline : t.kind ≠ .endOfLine) :
    ∃ p, Places (before ++ text ++ rest) before.length text.length [t] [p] ∧
      p.isLineBreak = false ∧ p.left = before.length ∧ p.last = before.length + text.length := by
  refine ⟨⟨t, before.length, before.length + text.length⟩,
    Places.single (Nat.le_refl _) (Nat.le_add_right _ _) (Nat.le_refl _) ⟨?_, ?_, hspells⟩,
    ?_, ?_, rfl⟩
  · rw [List.append_assoc, locate_length]
    exact hstart
  · rw [locate_length_add, Position.past_append]
    exact hstop
  · simpa [Placed.isLineBreak] using hline
  · simp [Placed.left, hstring]

theorem fits_quoted {q : Quote} {text : Bytes} (h : q.byte ∉ text) (before rest : Bytes) :
    Placed.Fits (before ++ (Lexeme.quoted q text).bytes ++ rest)
      ⟨.withLiteral .stringLit text
        ⟨(Position.start.past before).line, (Position.start.past before).column + 1⟩
        ((Position.start.past before).past (Lexeme.quoted q text).bytes),
        before.length + 1, before.length + (Lexeme.quoted q text).bytes.length⟩ := by
  have hquote : q.byte ≠ Byte.lineFeed := by cases q <;> decide
  have hsource : before ++ (Lexeme.quoted q text).bytes ++ rest =
      before ++ [q.byte] ++ text ++ q.byte :: rest := by
    simp [Lexeme.bytes]
  have hlast : before.length + (Lexeme.quoted q text).bytes.length - 1 =
      before.length + 1 + text.length := by
    simp only [Lexeme.bytes, List.length_cons, List.length_append, List.length_nil]
    omega
  have hslice : slice (before ++ [q.byte] ++ text ++ q.byte :: rest) (before.length + 1)
      (before.length + 1 + text.length) = text := by
    simpa using slice_append (before ++ [q.byte]) text (q.byte :: rest)
  refine ⟨?_, ?_, Nat.succ_pos _, ?_, q, ?_, ?_, ?_, ?_⟩
  · have hlocate := locate_length_add before [q.byte] (text ++ q.byte :: rest)
    rw [← List.append_assoc, ← hsource, Position.past_append, Position.past_cons,
      Position.past_nil, Position.next_of_ne hquote] at hlocate
    exact hlocate.symm
  · rw [locate_length_add, Position.past_append]
    rfl
  · simp only [Lexeme.bytes, List.length_cons, List.length_append, List.length_nil]
    omega
  · simp [Lexeme.bytes]
  · have hlength : before.length + 1 + text.length = (before ++ [q.byte] ++ text).length := by
      rw [List.length_append, List.length_append, List.length_singleton]
    dsimp only
    rw [hlast, hsource, hlength, List.getElem?_append_right (Nat.le_refl _), Nat.sub_self]
    rfl
  · dsimp only
    rw [hlast, hsource, hslice]
    rfl
  · dsimp only
    rwa [hlast, hsource, hslice]

theorem places_of_isToken {l : Lexeme} (h : l.isToken = true) (hl : l.WellFormed)
    (before rest : Bytes) :
    ∃ p, Places (before ++ l.bytes ++ rest) before.length l.bytes.length
      ((l.signals (Position.start.past before)
        ((Position.start.past before).past l.bytes)).filterMap Signal.token?) [p] ∧
          p.isLineBreak = false ∧ p.left = before.length ∧
            p.last = before.length + l.bytes.length := by
  cases l with
  | lineBreak => cases h
  | blank b => cases h
  | lineComment text => cases h
  | blockComment text => cases h
  | openComment text => cases h
  | quoted q text =>
      refine ⟨_, Places.single (Nat.le_succ _) ?_ (Nat.le_refl _) (fits_quoted hl before rest),
        rfl, rfl, rfl⟩
      simp [Lexeme.bytes]
  | openQuoted q text => cases h
  | number digits =>
      apply places_whole rfl rfl
      · exact congrArg some (slice_append before digits rest).symm
      · intro hkind
        cases hkind
      · intro hkind
        cases hkind
  | symbol k =>
      have hkind : k.spelling?.isSome = true := hl
      obtain ⟨w, hw⟩ := Option.isSome_iff_exists.mp hkind
      apply places_whole rfl rfl
      · apply spells_of_spelling?
        · rw [slice_append, Lexeme.bytes, hw]
          exact hw
        · rfl
      · rintro rfl
        cases hw
      · rintro rfl
        cases hw
  | name text =>
      apply places_whole rfl rfl
      · exact congrArg some (slice_append before text rest).symm
      · intro hkind
        cases hkind
      · intro hkind
        cases hkind

theorem filler_append {l : Lexeme} (hl : l.WellFormed) (htoken : l.isToken = false)
    (hopen : l.isOpen = false) {stretch after : Bytes} (hends : Ends l.takes (stretch ++ after))
    (h : Filler stretch after) : Filler (l.bytes ++ stretch) after := by
  cases l with
  | lineBreak => exact .lineFeed h
  | blank b => exact .blank hl h
  | lineComment text => exact .lineComment hl hends h
  | blockComment text => exact .blockComment hl h
  | openComment text => cases hopen
  | quoted q text => cases htoken
  | openQuoted q text => cases hopen
  | number digits => cases htoken
  | symbol k => cases htoken
  | name text => cases htoken

theorem truncated_of_isOpen {l : Lexeme} (hl : l.WellFormed) (hopen : l.isOpen = true) :
    Truncated l.bytes := by
  cases l with
  | openComment text => exact .comment hl
  | openQuoted q text => exact .string hl
  | _ => cases hopen

theorem slice_append_drop {source : Bytes} {i j : Nat} (h : i ≤ j) :
    slice source i j ++ source.drop j = source.drop i := by
  obtain ⟨d, rfl⟩ := Nat.exists_eq_add_of_le h
  rw [slice, List.drop_take, Nat.add_sub_cancel_left, ← List.drop_drop, List.take_append_drop]

theorem slice_eq_append_slice {source : Bytes} {i j k : Nat} (hij : i ≤ j) (hjk : j ≤ k) :
    slice source i k = slice source i j ++ slice source j k := by
  apply (List.append_left_inj (source.drop k)).mp
  rw [slice_append_drop (Nat.le_trans hij hjk), List.append_assoc, slice_append_drop hjk,
    slice_append_drop hij]

theorem Covered.prepend {source : Bytes} {k n : Nat} {ps : List Placed} {l : Lexeme}
    (h : Covered source (k + n) ps) (hslice : slice source k (k + n) = l.bytes)
    (hl : l.WellFormed) (htoken : l.isToken = false) (hopen : l.isOpen = false)
    (hends : Ends l.takes (source.drop (k + n))) : Covered source k ps := by
  have hle : k ≤ k + n := Nat.le_add_right _ _
  rcases ps with _ | ⟨p, ps⟩
  · obtain ⟨stretch, tail, heq, hfiller, htail⟩ := h
    refine ⟨l.bytes ++ stretch, tail, ?_, ?_, htail⟩
    · rw [← slice_append_drop hle, hslice, heq, List.append_assoc]
    · exact filler_append hl htoken hopen (heq ▸ hends) hfiller
  · obtain ⟨hleft, hfiller, hcovered⟩ := h
    refine ⟨Nat.le_trans hle hleft, ?_, hcovered⟩
    rw [slice_eq_append_slice hle hleft, hslice]
    apply filler_append hl htoken hopen _ hfiller
    rwa [slice_append_drop hleft]

theorem Covered.token {source : Bytes} {p : Placed} {ps : List Placed}
    (h : Covered source p.last ps) : Covered source p.left (p :: ps) := by
  refine ⟨Nat.le_refl _, ?_, h⟩
  rw [slice, List.drop_take, Nat.sub_self, List.take_zero]
  exact .nil _

theorem filter_lineBreaks {ps : List Placed} (h : ∀ p ∈ ps, p.isLineBreak = true) :
    (ps.filter fun p => !p.isLineBreak) = [] := by
  apply List.filter_eq_nil_iff.mpr
  intro p hp
  simp [h p hp]

theorem exists_places {ls : List Lexeme} (h : Lexeme.Tiles ls []) (before : Bytes) :
    ∃ ps, Places (before ++ ls.flatMap Lexeme.bytes) before.length
      (ls.flatMap Lexeme.bytes).length (Lexeme.tokensFrom (Position.start.past before) ls) ps ∧
        Covered (before ++ ls.flatMap Lexeme.bytes) before.length
          (ps.filter fun p => !p.isLineBreak) := by
  induction ls generalizing before with
  | nil =>
      refine ⟨[], Places.empty _ _ _, [], [], ?_, .nil _, .inl rfl⟩
      simp
  | cons l ls ih =>
      have hopen := fun hopen => Lexeme.eq_nil_of_isOpen h hopen
      obtain ⟨hl, hends, htiles⟩ := h
      obtain ⟨qs, hqs, hcovered⟩ := ih htiles (before ++ l.bytes)
      rw [List.length_append, Position.past_append] at hqs
      rw [List.length_append] at hcovered
      rw [Lexeme.tokensFrom_cons, List.flatMap_cons, ← List.append_assoc, List.length_append]
      cases htoken : l.isToken with
      | true =>
          obtain ⟨p, hp, hbreak, hleft, hlast⟩ :=
            places_of_isToken htoken hl before (ls.flatMap Lexeme.bytes)
          refine ⟨[p] ++ qs, hp.append hqs, ?_⟩
          rw [← hlast] at hcovered
          rw [List.filter_append, List.filter_singleton, hbreak, ← hleft]
          exact hcovered.token
      | false =>
          obtain ⟨ps, hps, hbreaks⟩ :=
            places_of_not_isToken htoken before (ls.flatMap Lexeme.bytes)
          refine ⟨ps ++ qs, hps.append hqs, ?_⟩
          rw [List.filter_append, filter_lineBreaks hbreaks, List.nil_append]
          cases hcut : l.isOpen with
          | true =>
              obtain rfl := hopen hcut
              obtain rfl : qs = [] := List.map_eq_nil_iff.mp hqs.tokens
              refine ⟨[], l.bytes, ?_, .nil _, .inr (truncated_of_isOpen hl hcut)⟩
              simp
          | false =>
              apply hcovered.prepend (slice_append before l.bytes _) hl htoken hcut
              rw [← List.length_append, List.drop_left]
              rwa [List.append_nil] at hends

/-- Every token of a scan stands where its positions say, in the order of the source, and spells
the bytes there; the bytes that are left over are blanks, line feeds and comments, but for one
construct at the end that is never closed. -/
theorem exists_sourceMap (source : Bytes) (h : Admissible source) :
    ∃ ts ps, rawTokens source = .ok ts ∧ SourceMap source ts ps := by
  obtain ⟨ps, hplaces, hcovered⟩ := exists_places (Lexeme.tiles_split source) []
  rw [List.nil_append, Lexeme.flatMap_bytes_split] at hplaces hcovered
  refine ⟨_, ps, rawTokens_of_admissible h, hplaces.tokens, ?_, hplaces.fits, hcovered⟩
  have hchain := hplaces.ordered.tail
  rwa [List.length_nil, Nat.zero_add] at hchain

theorem exists_sourceMap_twoLines :
    ∃ ts ps, rawTokens (Bytes.ofString "a\n`b\nc`<=/*\n*/\"d") = .ok ts ∧
      SourceMap (Bytes.ofString "a\n`b\nc`<=/*\n*/\"d") ts ps :=
  exists_sourceMap _ (admissible_of_length (by decide))

end StatementLexer
