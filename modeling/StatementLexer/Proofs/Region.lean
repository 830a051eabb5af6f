import StatementLexer.Proofs.Comment
import StatementLexer.Proofs.Padding

/-!
Where strings and comments are, told byte by byte. A machine of six states reads a source without
cutting it into units; at the end of every unit it is ready to read the next one as if it started
there (`ready_run`).
-/

namespace StatementLexer

/-- What a byte stands in. A slash may open a comment, and an asterisk may close one. -/
inductive Region where
  | code
  | slash
  | lineComment
  | blockComment
  | asterisk
  | string (q : Quote)
  deriving DecidableEq, Repr

namespace Region

/-- The region behind a byte of code. -/
def enter (b : UInt8) : Region :=
  if b = Byte.slash then .slash
  else if b = Byte.doubleQuote then .string .double
  else if b = Byte.backquote then .string .back
  else .code

def step : Region → UInt8 → Region
  | .code, b => enter b
  | .slash, b =>
      if b = Byte.slash then .lineComment
      else if b = Byte.asterisk then .blockComment
      else enter b
  | .lineComment, b => if b = Byte.lineFeed then .code else .lineComment
  | .blockComment, b => if b = Byte.asterisk then .asterisk else .blockComment
  | .asterisk, b =>
      if b = Byte.slash then .code else if b = Byte.asterisk then .asterisk else .blockComment
  | .string q, b => if b = q.byte then .code else .string q

def run (r : Region) (text : Bytes) : Region :=
  text.foldl step r

def isString : Region → Bool
  | .string _ => true
  | _ => false

/-- The region that the byte at offset `k` stands in. -/
def atOffset (source : Bytes) (k : Nat) : Region :=
  run .code (source.take k)

@[simp] theorem run_nil (r : Region) : r.run [] = r := rfl

@[simp] theorem run_cons (r : Region) (b : UInt8) (text : Bytes) :
    r.run (b :: text) = (r.step b).run text := rfl

theorem run_append (r : Region) (a b : Bytes) : r.run (a ++ b) = (r.run a).run b :=
  List.foldl_append

theorem enter_of_not_opens {b : UInt8} (h : Byte.opens b = false) : enter b = .code := by
  simp only [Byte.opens, Bool.or_eq_false_iff, beq_eq_false_iff_ne] at h
  obtain ⟨⟨hslash, hdouble⟩, hback⟩ := h
  rw [enter, if_neg hslash, if_neg hdouble, if_neg hback]

theorem enter_quote (q : Quote) : enter q.byte = .string q := by
  cases q <;> rfl

theorem run_code {text : Bytes} (h : ∀ c ∈ text, Byte.opens c = false) : run .code text = .code := by
  induction text with
  | nil => rfl
  | cons b text ih =>
      rw [List.forall_mem_cons] at h
      rw [run_cons, step, enter_of_not_opens h.1, ih h.2]

theorem run_lineComment {text : Bytes} (h : Byte.lineFeed ∉ text) :
    run .lineComment text = .lineComment := by
  induction text with
  | nil => rfl
  | cons b text ih =>
      rw [List.mem_cons, not_or] at h
      rw [run_cons, step, if_neg (Ne.symm h.1), ih h.2]

theorem run_string {q : Quote} {text : Bytes} (h : q.byte ∉ text) :
    run (.string q) text = .string q := by
  induction text with
  | nil => rfl
  | cons b text ih =>
      rw [List.mem_cons, not_or] at h
      rw [run_cons, step, if_neg (Ne.symm h.1), ih h.2]

/-- Inside a block comment, with what may be the first half of its closing mark. -/
def HoldsComment (r : Region) (mark : Bytes) : Prop :=
  r = .blockComment ∧ mark = [] ∨ r = .asterisk ∧ mark = [Byte.asterisk]

theorem HoldsComment.step {r : Region} {mark : Bytes} (h : r.HoldsComment mark) {b : UInt8}
    {text : Bytes} (hclosing : ¬ Lexeme.closing <:+: mark ++ b :: text) :
    ∃ mark', (r.step b).HoldsComment mark' ∧ ¬ Lexeme.closing <:+: mark' ++ text := by
  have hsuffix : mark ++ b :: text = mark ++ [b] ++ text := by simp
  have htext : ¬ Lexeme.closing <:+: text := by
    intro hfound
    rw [hsuffix] at hclosing
    exact hclosing (hfound.trans (List.suffix_append _ _).isInfix)
  rcases eq_or_ne b Byte.asterisk with rfl | hb
  · refine ⟨[Byte.asterisk], .inr ⟨?_, rfl⟩, ?_⟩
    · rcases h with ⟨rfl, rfl⟩ | ⟨rfl, rfl⟩ <;> rfl
    · intro hfound
      exact hclosing (hfound.trans (List.suffix_append _ _).isInfix)
  · refine ⟨[], .inl ⟨?_, rfl⟩, htext⟩
    rcases h with ⟨rfl, rfl⟩ | ⟨rfl, rfl⟩
    · rw [Region.step, if_neg hb]
    · have hslash : b ≠ Byte.slash := by
        rintro rfl
        exact hclosing (List.prefix_append Lexeme.closing text).isInfix
      rw [Region.step, if_neg hslash, if_neg hb]

theorem HoldsComment.run {r : Region} {mark text : Bytes} (h : r.HoldsComment mark)
    (hclosing : ¬ Lexeme.closing <:+: mark ++ text) : ∃ mark', (r.run text).HoldsComment mark' := by
  induction text generalizing r mark with
  | nil => exact ⟨mark, h⟩
  | cons b text ih =>
      obtain ⟨mark', hmark, hrest⟩ := h.step hclosing
      exact ih hmark hrest

/-- The bytes `rest` are read from `r` as from code. -/
def Ready (r : Region) (rest : Bytes) : Prop :=
  ∀ b, rest.head? = some b → r.isString = false ∧ r.step b = enter b

theorem ready_of_eq_code {r : Region} (h : r = .code) (rest : Bytes) : r.Ready rest := by
  subst h
  intro b _
  exact ⟨rfl, rfl⟩

end Region

namespace Lexeme

theorem opens_of_class {p : UInt8 → Bool} (hslash : p Byte.slash = false)
    (hdouble : p Byte.doubleQuote = false) (hback : p Byte.backquote = false) {c : UInt8}
    (hc : p c = true) : Byte.opens c = false := by
  apply Bool.eq_false_iff.mpr
  intro hopens
  simp only [Byte.opens, Bool.or_eq_true, beq_iff_eq] at hopens
  rcases hopens with (rfl | rfl) | rfl
  · simp [hslash] at hc
  · simp [hdouble] at hc
  · simp [hback] at hc

theorem opens_of_startsName {b : UInt8} (h : Byte.startsName b = true) : Byte.opens b = false := by
  obtain ⟨hword, -⟩ := startsName_iff.mp h
  exact opens_of_class rfl rfl rfl hword

theorem run_code_bytes {l : Lexeme} (hl : l.WellFormed) (hstring : l.isString = false)
    (hcomment : l.isComment = false) (hdivide : l ≠ .symbol .divide) :
    Region.run .code l.bytes = .code := by
  apply Region.run_code
  cases l with
  | lineBreak => exact List.forall_mem_singleton.mpr rfl
  | blank b => exact List.forall_mem_singleton.mpr (opens_of_class rfl rfl rfl hl)
  | number digits =>
      intro c hc
      exact opens_of_class rfl rfl rfl (hl.2 c hc)
  | symbol k =>
      intro c hc
      rcases mem_operators_or_mem_keywords hl with hk | hk
      · exact Kind.tables.operator_opens k hk (fun h => hdivide (congrArg symbol h)) c hc
      · exact opens_of_class rfl rfl rfl (Kind.tables.keyword_bytes k hk c hc)
  | name text =>
      rcases text with _ | ⟨b, tail⟩
      · exact absurd hl id
      · obtain ⟨hb, htail, -⟩ := hl
        intro c hc
        rcases List.mem_cons.mp hc with rfl | hc
        · exact opens_of_startsName hb
        · exact opens_of_class rfl rfl rfl (htail c hc)
  | lineComment text => cases hcomment
  | blockComment text => cases hcomment
  | openComment text => cases hcomment
  | quoted q text => cases hstring
  | openQuoted q text => cases hstring

theorem run_code_blockComment {text : Bytes} (h : (blockComment text).WellFormed) :
    Region.run .code (blockComment text).bytes = .code := by
  have htext : ¬ closing <:+: text := by
    intro hfound
    exact h (hfound.trans (List.prefix_append _ _).isInfix)
  have hholds : Region.HoldsComment .blockComment [] := .inl ⟨rfl, rfl⟩
  obtain ⟨mark, hmark⟩ := hholds.run htext
  have hrun : Region.run .code (blockComment text).bytes =
      (Region.run .blockComment text).run closing :=
    Region.run_append .blockComment text closing
  rw [hrun]
  rcases hmark with ⟨hregion, -⟩ | ⟨hregion, -⟩
  · rw [hregion]
    rfl
  · rw [hregion]
    rfl

theorem run_code_quoted {q : Quote} {text : Bytes} (h : q.byte ∉ text) :
    Region.run .code (quoted q text).bytes = .code := by
  rw [bytes, Region.run_cons, Region.step, Region.enter_quote, Region.run_append,
    Region.run_string h, Region.run_cons, Region.step, if_pos rfl, Region.run_nil]

/-- Behind a unit the next one is read as from code. -/
theorem ready_run {l : Lexeme} (hl : l.WellFormed) {rest : Bytes} (hends : Ends l.takes rest) :
    (Region.run .code l.bytes).Ready rest := by
  by_cases hdivide : l = .symbol .divide
  · subst hdivide
    -- A slash that is an operator has no slash or asterisk behind it.
    have hrun : Region.run .code (symbol .divide).bytes = .slash := by decide
    rw [hrun]
    intro b hb
    have htakes := hends b hb
    simp only [takes, Kind.isKeyword, Bool.false_eq_true, if_false, Bool.or_eq_false_iff,
      beq_self_eq_true, Bool.true_and, beq_eq_false_iff_ne] at htakes
    obtain ⟨-, hslash, hasterisk⟩ := htakes
    refine ⟨rfl, ?_⟩
    rw [Region.step, if_neg hslash, if_neg hasterisk]
  · cases l with
    | lineComment text =>
        have hrun : Region.run .code (lineComment text).bytes = .lineComment :=
          Region.run_lineComment hl
        rw [hrun]
        intro b hb
        obtain rfl : b = Byte.lineFeed := by simpa [takes] using hends b hb
        exact ⟨rfl, rfl⟩
    | blockComment text => exact Region.ready_of_eq_code (run_code_blockComment hl) rest
    | quoted q text => exact Region.ready_of_eq_code (run_code_quoted hl) rest
    | openComment text =>
        obtain rfl := eq_nil_of_ends (fun _ => rfl) hends
        intro b hb
        cases hb
    | openQuoted q text =>
        obtain rfl := eq_nil_of_ends (fun _ => rfl) hends
        intro b hb
        cases hb
    | lineBreak => exact Region.ready_of_eq_code rfl rest
    | blank b => exact Region.ready_of_eq_code (run_code_bytes hl rfl rfl hdivide) rest
    | number digits => exact Region.ready_of_eq_code (run_code_bytes hl rfl rfl hdivide) rest
    | symbol k => exact Region.ready_of_eq_code (run_code_bytes hl rfl rfl hdivide) rest
    | name text => exact Region.ready_of_eq_code (run_code_bytes hl rfl rfl hdivide) rest

end Lexeme

end StatementLexer
