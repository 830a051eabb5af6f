import Mathlib.Data.List.Induction
import Mathlib.Data.List.TakeWhile
import StatementLexer.Position

namespace StatementLexer

/-- Byte strings in memory are shorter than this. -/
def Bytes.capacity : Nat := 0x8000000000000000

/-- Line and column numbers of the source stay in range: it has at most `bound - 2` line feeds,
and at most `bound - 1` bytes without a line feed follow one another. -/
def Admissible (source : Bytes) : Prop :=
  source.count Byte.lineFeed ≤ Position.bound - 2 ∧
    ∀ run, run <:+: source → Byte.lineFeed ∉ run → run.length ≤ Position.bound - 1

/-- The position of the offset `k`: one line for each line feed before it, and the number of bytes
since the last of them. -/
def locate (source : Bytes) (k : Nat) : Position :=
  ⟨1 + (source.take k).count Byte.lineFeed,
    ((source.take k).reverse.takeWhile (· != Byte.lineFeed)).length⟩

theorem Admissible.of_infix {source part : Bytes} (h : Admissible source)
    (hpart : part <:+: source) : Admissible part := by
  obtain ⟨hlines, hruns⟩ := h
  refine ⟨Nat.le_trans (hpart.sublist.count_le _) hlines, ?_⟩
  intro run hrun hfree
  exact hruns run (hrun.trans hpart) hfree

theorem admissible_of_length {source : Bytes} (h : source.length ≤ Position.bound - 2) :
    Admissible source := by
  refine ⟨Nat.le_trans List.count_le_length h, ?_⟩
  intro run hrun _
  have hlength := hrun.length_le
  omega

namespace Position

def next (p : Position) (b : UInt8) : Position :=
  if b = Byte.lineFeed then ⟨p.line + 1, 0⟩ else ⟨p.line, p.column + 1⟩

/-- The position after a byte string, without a bound. -/
def past (p : Position) (text : Bytes) : Position :=
  text.foldl next p

@[simp] theorem past_nil (p : Position) : p.past [] = p := rfl

@[simp] theorem past_cons (p : Position) (b : UInt8) (text : Bytes) :
    p.past (b :: text) = (p.next b).past text := rfl

theorem past_append (p : Position) (a b : Bytes) : p.past (a ++ b) = (p.past a).past b :=
  List.foldl_append

@[simp] theorem next_lineFeed (p : Position) : p.next Byte.lineFeed = ⟨p.line + 1, 0⟩ := rfl

theorem next_of_ne {b : UInt8} (h : b ≠ Byte.lineFeed) (p : Position) :
    p.next b = ⟨p.line, p.column + 1⟩ := if_neg h

theorem past_line (p : Position) (text : Bytes) :
    (p.past text).line = p.line + text.count Byte.lineFeed := by
  induction text generalizing p with
  | nil => rfl
  | cons b text ih =>
      rw [past_cons, ih]
      rcases eq_or_ne b Byte.lineFeed with rfl | hb
      · rw [next_lineFeed, List.count_cons_self]
        dsimp only
        omega
      · rw [next_of_ne hb, List.count_cons_of_ne hb]

theorem past_of_not_mem {text : Bytes} (h : Byte.lineFeed ∉ text) (p : Position) :
    p.past text = ⟨p.line, p.column + text.length⟩ := by
  induction text generalizing p with
  | nil => rfl
  | cons b text ih =>
      have hb : b ≠ Byte.lineFeed := fun hb => h (hb ▸ List.mem_cons_self)
      rw [past_cons, ih (fun hmem => h (List.mem_cons_of_mem _ hmem)), next_of_ne hb,
        List.length_cons, Nat.add_assoc, Nat.add_comm 1]

theorem past_start (text : Bytes) :
    start.past text =
      ⟨1 + text.count Byte.lineFeed,
        (text.reverse.takeWhile (· != Byte.lineFeed)).length⟩ := by
  induction text using List.reverseRecOn with
  | nil => rfl
  | append_singleton text b ih =>
      rw [past_append, ih]
      rcases eq_or_ne b Byte.lineFeed with rfl | hb
      · simp [Nat.add_assoc]
      · simp [next_of_ne hb, hb]

theorem past_take (source : Bytes) (k : Nat) : start.past (source.take k) = locate source k :=
  past_start _

theorem past_lt_bound {source : Bytes} (h : Admissible source) :
    (start.past source).line < bound ∧ (start.past source).column < bound := by
  obtain ⟨hlines, hruns⟩ := h
  have hbound : 2 ≤ bound := by decide
  rw [past_start]
  dsimp only
  constructor
  · omega
  · let run := (source.reverse.takeWhile (· != Byte.lineFeed)).reverse
    have hsuffix : run <:+ source := by
      rw [← List.reverse_prefix, List.reverse_reverse]
      exact List.takeWhile_prefix _
    have hfree : Byte.lineFeed ∉ run := by
      intro hmem
      simpa using List.mem_takeWhile_imp (List.mem_reverse.mp hmem)
    have hlength := hruns run hsuffix.isInfix hfree
    simp only [run, List.length_reverse] at hlength
    omega

theorem admissible_iff {source : Bytes} :
    Admissible source ↔
      ∀ before, before <+: source →
        (start.past before).line < bound ∧
          (start.past before).column < bound := by
  constructor
  · intro h before hbefore
    exact past_lt_bound (h.of_infix hbefore.isInfix)
  · intro h
    constructor
    · have hline := (h source (List.prefix_refl _)).1
      rw [past_line] at hline
      have hstart : start.line = 1 := rfl
      omega
    · rintro run ⟨before, after, rfl⟩ hrun
      have hcolumn := (h (before ++ run) (List.prefix_append _ _)).2
      rw [past_append, past_of_not_mem hrun] at hcolumn
      dsimp only at hcolumn
      omega

theorem past_of_lineFeeds {s t : Bytes}
    (h : s.map (· == Byte.lineFeed) = t.map (· == Byte.lineFeed)) (p : Position) :
    p.past s = p.past t := by
  induction s generalizing t p with
  | nil => rw [List.map_eq_nil_iff.mp h.symm]
  | cons b s ih =>
      rcases t with _ | ⟨c, t⟩
      · cases h
      · obtain ⟨hhead, htail⟩ := List.cons.inj h
        have hnext : p.next b = p.next c := by
          rw [Bool.eq_iff_iff, beq_iff_eq, beq_iff_eq] at hhead
          simp only [next, hhead]
        rw [past_cons, past_cons, hnext, ih htail]

theorem admissible_of_lineFeeds {s t : Bytes}
    (h : s.map (· == Byte.lineFeed) = t.map (· == Byte.lineFeed)) (hs : Admissible s) :
    Admissible t := by
  apply admissible_iff.mpr
  intro before hbefore
  rw [List.prefix_iff_eq_take.mp hbefore]
  have htake : (s.take before.length).map (· == Byte.lineFeed) =
      (t.take before.length).map (· == Byte.lineFeed) := by
    rw [List.map_take, List.map_take, h]
  rw [← past_of_lineFeeds htake]
  exact admissible_iff.mp hs _ (List.take_prefix _ _)

theorem step_of_lt_bound {p : Position} {b : UInt8} (hline : (p.next b).line < bound)
    (hcolumn : (p.next b).column < bound) : p.step b = .ok (p.next b) := by
  rcases eq_or_ne b Byte.lineFeed with rfl | hb
  · rw [next_lineFeed] at hline ⊢
    rw [step, if_pos rfl, nextLine, if_pos hline]
  · rw [next_of_ne hb] at hcolumn ⊢
    rw [step, if_neg hb, offsetColumns, if_pos hcolumn]

theorem walk_of_admissible {before text : Bytes} (h : Admissible (before ++ text)) :
    (start.past before).walk text = .ok (start.past (before ++ text)) := by
  induction text generalizing before with
  | nil => rw [walk_nil, List.append_nil]
  | cons b text ih =>
      have hsplit : before ++ b :: text = before ++ [b] ++ text := by simp
      rw [hsplit] at h ⊢
      have hfits := past_lt_bound (h.of_infix (List.prefix_append _ _).isInfix)
      have hnext : (start.past before).next b = start.past (before ++ [b]) := by
        rw [past_append]
        rfl
      rw [← hnext] at hfits
      rw [walk_cons, step_of_lt_bound hfits.1 hfits.2, hnext]
      exact ih h

end Position

end StatementLexer
