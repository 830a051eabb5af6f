import StatementLexer.Proofs.OutOfRange

namespace StatementLexer

namespace Kind

/-- The operator `k` has the text `w` and stands at the head of the input. -/
structure OperatorAt (k : Kind) (w input : Bytes) : Prop where
  mem : k ∈ operators
  spelling : k.spelling? = some w
  head : w <+: input

structure LongestOperator (k : Kind) (w input : Bytes) : Prop extends OperatorAt k w input where
  longest : ∀ j v, OperatorAt j v input → v.length ≤ w.length

theorem OperatorAt.length {k : Kind} {w input : Bytes} (h : OperatorAt k w input) :
    w.length = 1 ∨ w.length = 2 := by
  obtain ⟨v, hv, hlength⟩ := operator_length k h.mem
  rw [h.spelling, Option.some.injEq] at hv
  rwa [hv]

theorem exists_operatorAt_iff {b : UInt8} {rest : Bytes} :
    (∃ k w, OperatorAt k w (b :: rest)) ↔ startsOperator b = true := by
  constructor
  · rintro ⟨k, w, h⟩
    have hlength := h.length
    rcases w with _ | ⟨x, w⟩
    · simp at hlength
    · obtain ⟨rfl, -⟩ := List.cons_prefix_cons.mp h.head
      exact List.any_eq_true.mpr ⟨k, h.mem, by simp [h.spelling]⟩
  · intro h
    obtain ⟨k, hk, hw⟩ := exists_operator_of_startsOperator h
    exact ⟨k, [b], hk, hw, by simp⟩

end Kind

namespace Lexeme

/-- The operator that is read is the longest: a longer one would have two bytes, and the second of
them would stand behind the only byte read. -/
theorem longestOperator_of_operator? {b : UInt8} {rest rest' : Bytes} {k : Kind}
    (h : operator? b rest = some (k, rest')) : ∃ w, Kind.LongestOperator k w (b :: rest) := by
  obtain ⟨hk, hends, w, hw, hbytes⟩ := operator?_eq_some_iff.mp h
  have hat : Kind.OperatorAt k w (b :: rest) := ⟨hk, hw, ⟨rest', hbytes⟩⟩
  refine ⟨w, hat, ?_⟩
  intro j v hj
  apply Nat.le_of_not_lt
  intro hlonger
  have hwlength := hat.length
  have hvlength := hj.length
  obtain ⟨u, rfl⟩ := List.prefix_of_prefix_length_le hat.head hj.head (by omega)
  rw [List.length_append] at hlonger hvlength
  obtain ⟨c, rfl⟩ := List.length_eq_one_iff.mp (show u.length = 1 by omega)
  have hnext : rest'.head? = some c := by
    have hhead := hj.head
    rw [← hbytes, List.prefix_append_right_inj] at hhead
    obtain ⟨more, rfl⟩ := hhead
    rfl
  have hnone := (pairs_eq_false_iff hw c).mp (hends c hnext)
  exact Vocabulary.kindOf?_ofKinds_eq_none_iff.mp hnone j hj.mem hj.spelling

end Lexeme

namespace Scan

/-- Reads one more unit behind what has been read. -/
def step (s : Scan) (l : Lexeme) : Except Fault Scan :=
  l.read s.finish >>= fun r => .ok ⟨s.signals ++ r.1, r.2⟩

theorem foldlM_step (s : Scan) (ls : List Lexeme) :
    ls.foldlM step s = (run s.finish ls).map fun r => ⟨s.signals ++ r.signals, r.finish⟩ := by
  induction ls generalizing s with
  | nil =>
      rw [List.foldlM_nil, run]
      simp [Except.map, pure, Except.pure]
  | cons l ls ih =>
      rw [List.foldlM_cons, run, step]
      rcases l.read s.finish with f | r
      · rfl
      · change ls.foldlM step ⟨s.signals ++ r.1, r.2⟩ = _
        rw [ih]
        change _ = Except.map _ (run r.2 ls >>= _)
        rcases run r.2 ls with f | t
        · rfl
        · simp [Except.map, bind, Except.bind]

/-- No count over the bytes `w` ahead of the cursor leaves its range. -/
def Fits (s : Scan) (w : Bytes) : Prop :=
  ∀ before, before <+: w → (s.finish.location.past before).InRange

/-- The bytes `w` ahead of the cursor have become one token. -/
def accept (s : Scan) (w : Bytes) (token : Position → Position → Token) : Scan where
  signals := s.signals ++ [.token (token s.finish.location (s.finish.location.past w))]
  finish := ⟨w.reverse ++ s.finish.passed, s.finish.rest.drop w.length, s.finish.location.past w⟩

theorem step_eq_walk {s : Scan} {l : Lexeme} {rest : Bytes}
    (h : s.finish.rest = l.bytes ++ rest) :
    s.step l = (s.finish.location.walk l.bytes).map fun stop =>
      ⟨s.signals ++ l.signals s.finish.location stop,
        ⟨l.bytes.reverse ++ s.finish.passed, rest, stop⟩⟩ := by
  obtain ⟨signals, passed, ahead, p⟩ := s
  obtain rfl : ahead = l.bytes ++ rest := h
  rw [step, Lexeme.read, Cursor.advanceBy_append]
  cases p.walk l.bytes <;> rfl

theorem rest_of_step {s s' : Scan} {l : Lexeme} {rest : Bytes}
    (hrest : s.finish.rest = l.bytes ++ rest) (h : s.step l = .ok s') : s'.finish.rest = rest := by
  rw [step_eq_walk hrest] at h
  rcases hwalk : s.finish.location.walk l.bytes with f | stop
  · rw [hwalk] at h
    cases h
  · rw [hwalk] at h
    cases h
    rfl

theorem step_eq_accept {s : Scan} {l : Lexeme} {token : Position → Position → Token}
    (hsignals : ∀ p q, l.signals p q = [.token (token p q)])
    (hbytes : l.bytes <+: s.finish.rest) (hfits : s.Fits l.bytes) :
    s.step l = .ok (s.accept l.bytes token) := by
  obtain ⟨rest, hrest⟩ := hbytes
  rw [step_eq_walk hrest.symm, Position.walk_of_inRange hfits, accept, ← hrest, List.drop_left,
    ← hsignals]
  rfl

end Scan

theorem scan_eq_foldlM (source : Bytes) :
    scan source = (Lexeme.split source).foldlM Scan.step ⟨[], .start source⟩ := by
  rw [Scan.foldlM_step, scan]
  cases Scan.run (.start source) (Lexeme.split source) <;> rfl

open Lexeme

theorem Scan.step_word_operator {s : Scan} {b : UInt8} {rest : Bytes}
    (h : s.finish.rest = b :: rest) (hb : Kind.startsOperator b = true) :
    ∃ k w, Kind.LongestOperator k w (b :: rest) ∧
      (s.Fits w → s.step (word b rest).1 = .ok (s.accept w (.plain k))) := by
  rcases hop : operator? b rest with _ | ⟨k, rest'⟩
  · rw [operator?_eq_none_iff.mp hop] at hb
    cases hb
  · obtain ⟨w, hw⟩ := longestOperator_of_operator? hop
    obtain rfl : (symbol k).bytes = w := by rw [bytes, hw.spelling, Option.getD_some]
    refine ⟨k, _, hw, ?_⟩
    intro hfits
    rw [word_of_operator? hop]
    apply step_eq_accept (fun _ _ => rfl) _ hfits
    rw [h]
    exact hw.head

theorem Scan.step_word_name {s : Scan} {b : UInt8} {rest : Bytes}
    (h : s.finish.rest = b :: rest) (hb : Kind.startsOperator b = false)
    (hfits : s.Fits (b :: rest.takeWhile Byte.isIdentContinue)) :
    s.step (word b rest).1 =
      .ok (s.accept (b :: rest.takeWhile Byte.isIdentContinue)
        ((Vocabulary.keywords.kindOf? (b :: rest.takeWhile Byte.isIdentContinue)).elim
          (.withLiteral .identifier (b :: rest.takeWhile Byte.isIdentContinue)) .plain)) := by
  have hhead : b :: rest.takeWhile Byte.isIdentContinue <+: s.finish.rest := by
    rw [h, List.prefix_cons_inj]
    exact List.takeWhile_prefix _
  rw [word_of_not_startsOperator hb]
  rcases hkind : Vocabulary.keywords.kindOf? (b :: rest.takeWhile Byte.isIdentContinue) with _ | k
  · exact step_eq_accept (l := .name _) (fun _ _ => rfl) hhead hfits
  · have htext : (symbol k).bytes = b :: rest.takeWhile Byte.isIdentContinue :=
      bytes_symbol_of_kindOf? hkind
    rw [← htext] at hhead hfits ⊢
    exact step_eq_accept (fun _ _ => rfl) hhead hfits

/-- A word read at any point of a scan is the longest operator that stands there or, where none
stands, the first byte and the name bytes behind it: a keyword if these spell one, and otherwise a
name. Short of a count that leaves its range, it becomes one token behind those reported, and the
cursor moves past its bytes, to where the next unit is looked for. -/
theorem step_word_longestMatch (s : Scan) {b : UInt8} {rest : Bytes}
    (h : s.finish.rest = b :: rest) :
    ((∃ k w, Kind.OperatorAt k w (b :: rest)) →
      ∃ k w, Kind.LongestOperator k w (b :: rest) ∧
        (s.Fits w → s.step (word b rest).1 = .ok (s.accept w (.plain k)))) ∧
      ((¬ ∃ k w, Kind.OperatorAt k w (b :: rest)) →
        let w := b :: rest.takeWhile Byte.isIdentContinue
        s.Fits w →
          (∀ k ∈ Kind.keywords, k.spelling? = some w →
            s.step (word b rest).1 = .ok (s.accept w (.plain k))) ∧
          ((∀ k ∈ Kind.keywords, k.spelling? ≠ some w) →
            s.step (word b rest).1 = .ok (s.accept w (.withLiteral .identifier w)))) ∧
      ∀ s', s.step (word b rest).1 = .ok s' → s'.finish.rest = (word b rest).2 := by
  refine ⟨?_, ?_, ?_⟩
  · intro hoperator
    exact Scan.step_word_operator h (Kind.exists_operatorAt_iff.mp hoperator)
  · intro hnone w hfits
    rw [Kind.exists_operatorAt_iff, Bool.not_eq_true] at hnone
    have hstep := Scan.step_word_name h hnone hfits
    constructor
    · intro k hk hw
      have hkind : Vocabulary.keywords.kindOf? w = some k :=
        Vocabulary.kindOf?_ofKinds_eq_some_iff.mpr ⟨hk, hw⟩
      rw [hstep, hkind]
      rfl
    · intro hkeyword
      have hkind : Vocabulary.keywords.kindOf? w = none :=
        Vocabulary.kindOf?_ofKinds_eq_none_iff.mpr hkeyword
      rw [hstep, hkind]
      rfl
  · intro s' hs'
    apply Scan.rest_of_step _ hs'
    rw [h, (word_bytes b rest).2]

theorem step_word_longestMatch_behind :
    let s : Bytes → Scan := fun rest =>
      ⟨[.token (.withLiteral .identifier (Bytes.ofString "x") ⟨1, 0⟩ ⟨1, 1⟩)],
        ⟨Bytes.ofString "x", rest, ⟨1, 1⟩⟩⟩
    (∃ k w, Kind.LongestOperator k w (Bytes.ofString "<<=") ∧
      (s (Bytes.ofString "<<=")).step (word 0x3C (Bytes.ofString "<=")).1 =
        .ok ((s (Bytes.ofString "<<=")).accept w (.plain k))) ∧
      (s (Bytes.ofString "if(")).step (word 0x69 (Bytes.ofString "f(")).1 =
        .ok ⟨(s []).signals ++ [.token (.plain .ifWord ⟨1, 1⟩ ⟨1, 3⟩)],
          ⟨Bytes.ofString "fix", Bytes.ofString "(", ⟨1, 3⟩⟩⟩ ∧
      (s (Bytes.ofString "iffy")).step (word 0x69 (Bytes.ofString "ffy")).1 =
        .ok ⟨(s []).signals ++
            [.token (.withLiteral .identifier (Bytes.ofString "iffy") ⟨1, 1⟩ ⟨1, 5⟩)],
          ⟨Bytes.ofString "yffix", [], ⟨1, 5⟩⟩⟩ ∧
      (s (Bytes.ofString "@a+")).step (word 0x40 (Bytes.ofString "a+")).1 =
        .ok ⟨(s []).signals ++
            [.token (.withLiteral .identifier (Bytes.ofString "@a") ⟨1, 1⟩ ⟨1, 3⟩)],
          ⟨Bytes.ofString "a@x", Bytes.ofString "+", ⟨1, 3⟩⟩⟩ := by
  intro s
  have hnone : ∀ {b : UInt8} {rest : Bytes}, Kind.startsOperator b = false →
      ¬ ∃ k w, Kind.OperatorAt k w (b :: rest) := by
    intro b rest hb
    rw [Kind.exists_operatorAt_iff, hb]
    exact Bool.false_ne_true
  have hfits : ∀ {w : Bytes} (rest : Bytes), w.length ≤ 4 → Byte.lineFeed ∉ w →
      (s rest).Fits w := by
    intro w rest hlength hfree before hbefore
    have hle := hbefore.length_le
    have hbound : Position.bound = 0x100000000 := rfl
    change (Position.past ⟨1, 1⟩ before).InRange
    rw [Position.past_of_not_mem fun hmem => hfree (hbefore.subset hmem)]
    constructor
    · show 1 < Position.bound
      decide
    · show 1 + before.length < Position.bound
      omega
  refine ⟨?_, ?_, ?_, ?_⟩
  · obtain ⟨k, w, hw, hstep⟩ := (step_word_longestMatch (s (Bytes.ofString "<<=")) rfl).1
      ⟨.leftShift, Bytes.ofString "<<", by decide, by decide, by decide⟩
    refine ⟨k, w, hw, hstep (hfits _ (Nat.le_trans hw.head.length_le (by decide)) ?_)⟩
    exact fun hmem => absurd (hw.head.subset hmem) (by decide)
  · exact ((step_word_longestMatch (s (Bytes.ofString "if(")) rfl).2.1 (hnone (by decide))
      (hfits _ (by decide) (by decide))).1 .ifWord (by decide) (by decide)
  · exact ((step_word_longestMatch (s (Bytes.ofString "iffy")) rfl).2.1 (hnone (by decide))
      (hfits _ (by decide) (by decide))).2 (by decide)
  · exact ((step_word_longestMatch (s (Bytes.ofString "@a+")) rfl).2.1 (hnone (by decide))
      (hfits _ (by decide) (by decide))).2 (by decide)

end StatementLexer
