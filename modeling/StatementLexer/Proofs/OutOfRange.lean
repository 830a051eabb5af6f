import StatementLexer.Proofs.SourceMap

namespace StatementLexer

/-- A line or a column number of the source leaves its range: there are `bound - 1` line feeds, or
`bound` bytes without a line feed follow one another. -/
def OutOfRange (source : Bytes) : Prop :=
  Position.bound - 1 ≤ source.count Byte.lineFeed ∨
    ∃ run, run <:+: source ∧ Byte.lineFeed ∉ run ∧ Position.bound ≤ run.length

theorem outOfRange_iff {source : Bytes} : OutOfRange source ↔ ¬ Admissible source := by
  have hbound : 2 ≤ Position.bound := by decide
  constructor
  · rintro (hlines | ⟨run, hrun, hfree, hlength⟩) ⟨hlines', hruns⟩
    · omega
    · have := hruns run hrun hfree
      omega
  · intro h
    by_contra hrange
    obtain ⟨hlines, hruns⟩ := not_or.mp hrange
    apply h
    refine ⟨by omega, ?_⟩
    intro run hrun hfree
    by_contra hlength
    exact hruns ⟨run, hrun, hfree, by omega⟩

namespace Position

def InRange (p : Position) : Prop :=
  p.line < bound ∧ p.column < bound

theorem step_eq_ok {p q : Position} {b : UInt8} (h : p.step b = .ok q) :
    q = p.next b ∧ (p.InRange → q.InRange) := by
  have hbound : 0 < bound := by decide
  rcases eq_or_ne b Byte.lineFeed with rfl | hb
  · rw [step, if_pos rfl, nextLine] at h
    split at h
    · next hline =>
        cases h
        exact ⟨rfl, fun _ => ⟨hline, hbound⟩⟩
    · cases h
  · rw [step, if_neg hb, offsetColumns] at h
    split at h
    · next hcolumn =>
        cases h
        exact ⟨(next_of_ne hb p).symm, fun hp => ⟨hp.1, hcolumn⟩⟩
    · cases h

theorem walk_eq_ok {p q : Position} {text : Bytes} (h : p.walk text = .ok q) :
    q = p.past text ∧
      (p.InRange → ∀ before, before <+: text → (p.past before).InRange) := by
  induction text generalizing p with
  | nil =>
      cases h
      refine ⟨rfl, ?_⟩
      intro hp before hbefore
      rwa [List.prefix_nil.mp hbefore]
  | cons b text ih =>
      rw [walk_cons] at h
      rcases hstep : p.step b with f | r
      · rw [hstep] at h
        cases h
      · rw [hstep] at h
        obtain ⟨rfl, hnext⟩ := step_eq_ok hstep
        obtain ⟨hpast, hrange⟩ := ih h
        refine ⟨hpast, ?_⟩
        intro hp before hbefore
        rcases before with _ | ⟨c, before⟩
        · exact hp
        · obtain ⟨rfl, htail⟩ := List.cons_prefix_cons.mp hbefore
          exact hrange (hnext hp) before htail

theorem walk_of_inRange {p : Position} {text : Bytes}
    (h : ∀ before, before <+: text → (p.past before).InRange) : p.walk text = .ok (p.past text) := by
  induction text generalizing p with
  | nil => rfl
  | cons b text ih =>
      have hnext := h [b] (List.prefix_append [b] text)
      rw [walk_cons, step_of_lt_bound hnext.1 hnext.2]
      apply ih
      intro before hbefore
      exact h (b :: before) (List.cons_prefix_cons.mpr ⟨rfl, hbefore⟩)

theorem admissible_of_walk {source : Bytes} {q : Position} (h : start.walk source = .ok q) :
    Admissible source :=
  admissible_iff.mpr ((walk_eq_ok h).2 ⟨by decide, by decide⟩)

end Position

open Lexeme

theorem Scan.run_eq_walk (passed : Bytes) (p : Position) (ls : List Lexeme) :
    Scan.run ⟨passed, ls.flatMap bytes, p⟩ ls =
      (p.walk (ls.flatMap bytes)).map fun q =>
        ⟨report p ls, ⟨(ls.flatMap bytes).reverse ++ passed, [], q⟩⟩ := by
  induction ls generalizing passed p with
  | nil => rfl
  | cons l ls ih =>
      rw [Scan.run, Lexeme.read, List.flatMap_cons, Cursor.advanceBy_append, Position.walk_append]
      rcases hwalk : p.walk l.bytes with f | q
      · rfl
      · obtain ⟨rfl, -⟩ := Position.walk_eq_ok hwalk
        change (Scan.run ⟨_, ls.flatMap bytes, p.past l.bytes⟩ ls >>= _) =
          Except.map _ ((p.past l.bytes).walk (ls.flatMap bytes))
        rw [ih, report, List.reverse_append, List.append_assoc]
        cases (p.past l.bytes).walk (ls.flatMap bytes) <;> rfl

theorem scan_eq_walk (source : Bytes) :
    scan source = (Position.start.walk source).map fun q =>
      ⟨report .start (split source), ⟨source.reverse, [], q⟩⟩ := by
  have hrun := Scan.run_eq_walk [] .start (split source)
  rwa [flatMap_bytes_split, List.append_nil] at hrun

theorem exists_scan_iff {source : Bytes} : (∃ s, scan source = .ok s) ↔ Admissible source := by
  constructor
  · rintro ⟨s, hs⟩
    rw [scan_eq_walk] at hs
    rcases hwalk : Position.start.walk source with f | q
    · rw [hwalk] at hs
      cases hs
    · exact Position.admissible_of_walk hwalk
  · intro h
    exact ⟨_, scan_of_admissible h⟩

theorem scan_eq_error_iff {source : Bytes} :
    (∃ f, scan source = .error f) ↔ OutOfRange source := by
  rw [outOfRange_iff, ← exists_scan_iff]
  cases scan source <;> simp

theorem exists_map_eq_error_iff {α β : Type} (r : Except Fault α) (g : α → β) :
    (∃ f, r.map g = .error f) ↔ ∃ f, r = .error f := by
  cases r <;> simp [Except.map]

theorem tokenizeWith_tokens (settings : Settings) (source : Bytes) :
    (tokenizeWith settings source).map Tokenized.tokens =
      (rawTokens source).map fun raw =>
        if settings.insertTerminators then Terminator.terminate raw else raw := by
  rw [tokenizeWith, rawTokens]
  rcases scan source with f | s
  · rfl
  · cases hinsert : settings.insertTerminators <;> rfl

namespace Cursor

theorem advanceBy_start {source : Bytes} (h : Admissible source) {k : Nat}
    (hk : k ≤ source.length) :
    (start source).advanceBy k =
      .ok ⟨(source.take k).reverse, source.drop k, locate source k⟩ := by
  have htake : (source.take k).length = k := List.length_take_of_le hk
  have hadvance := advanceBy_append [] (source.take k) (source.drop k) .start
  have hwalk := @Position.walk_of_admissible [] (source.take k)
    (h.of_infix (List.take_prefix k source).isInfix)
  rw [List.take_append_drop, htake, List.append_nil] at hadvance
  rw [List.nil_append, Position.past_take] at hwalk
  rw [start, hadvance]
  change (Position.start.past []).walk _ >>= _ = _
  rw [hwalk]
  rfl

theorem exists_advanceBy_start {source : Bytes} (h : Admissible source)
    (hlength : source.length < Bytes.capacity) {k : Nat} (hk : k ≤ source.length) :
    ∃ c, (start source).advanceBy k = .ok c ∧ c.offset = k ∧
      (∀ n < Bytes.capacity, c.peek n = .ok source[k + n]?) ∧
      ∀ i ≤ k, c.sliceFrom i = .ok (slice source i k) := by
  have hoffset : (source.take k).reverse.length = k := by
    rw [List.length_reverse, List.length_take_of_le hk]
  have hbound : offsetBound = Bytes.capacity + Bytes.capacity := by decide
  refine ⟨_, advanceBy_start h hk, hoffset, ?_, ?_⟩
  · intro n hn
    rw [peek, offset, hoffset, if_pos (by omega), List.getElem?_drop]
  · intro i hi
    rw [sliceFrom, offset, hoffset, if_pos hi, List.reverse_reverse]
    rfl

end Cursor

namespace Terminator

theorem Progress.step_le (s : Progress) (t : Token) :
    (s.step t).inserted ≤ s.inserted + 1 ∧ (s.step t).emitted.length ≤ s.emitted.length + 1 := by
  unfold step
  split
  · next hnil => split <;> simp [hnil]
  · next hcons => (repeat' split) <;> simp [hcons]

theorem Progress.foldl_step_le (ts : List Token) (s : Progress) :
    (ts.foldl step s).inserted ≤ s.inserted + ts.length ∧
      (ts.foldl step s).emitted.length ≤ s.emitted.length + ts.length := by
  induction ts generalizing s with
  | nil => exact ⟨le_refl _, le_refl _⟩
  | cons t ts ih =>
      obtain ⟨hinserted, hemitted⟩ := step_le s t
      obtain ⟨hinserted', hemitted'⟩ := ih (s.step t)
      rw [List.foldl_cons, List.length_cons]
      omega

theorem infer_le (ts : List Token) :
    (infer ts).inserted ≤ ts.length ∧ (inferBoundaries ts).length ≤ ts.length ∧
      (terminateFinal ts).length ≤ ts.length + 1 := by
  obtain ⟨hinserted, hemitted⟩ := Progress.foldl_step_le ts .start
  have hmissing : (missing? ts).toList.length ≤ 1 := by
    cases missing? ts <;> simp
  refine ⟨?_, ?_, ?_⟩
  · simpa [infer, Progress.start] using hinserted
  · simpa [inferBoundaries, infer, Progress.start] using hemitted
  · rw [terminateFinal, List.length_append]
    omega

end Terminator

end StatementLexer
