import StatementLexer.Proofs.OutOfRange

namespace StatementLexer

theorem Position.fault_of_walk {p : Position} {text : Bytes} {f : Fault}
    (h : p.walk text = .error f) : f = .line ∨ f = .column := by
  induction text generalizing p with
  | nil => cases h
  | cons b text ih =>
      rw [walk_cons] at h
      rcases hstep : p.step b with g | q
      · rw [hstep] at h
        cases h
        unfold step nextLine offsetColumns at hstep
        split at hstep
        · split at hstep
          · cases hstep
          · cases hstep
            exact .inl rfl
        · split at hstep
          · cases hstep
          · cases hstep
            exact .inr rfl
      · rw [hstep] at h
        exact ih h

namespace Cursor

section Predicate

variable {σ : Type} (ask : σ → UInt8 → Bool × σ)

/-- The answers of a predicate that is asked about the bytes of a text one after the other. -/
def replies : σ → Bytes → List Bool
  | _, [] => []
  | s, b :: text => (ask s b).1 :: replies (ask s b).2 text

/-- The state of a predicate after it was asked about every byte of a text, in order. -/
def stateAfter (s : σ) (text : Bytes) : σ :=
  text.foldl (fun s b => (ask s b).2) s

/-- The longest beginning of a text on which every answer is yes has `n` bytes. -/
structure Longest (s : σ) (text : Bytes) (n : Nat) : Prop where
  le_length : n ≤ text.length
  yes_iff : ∀ m ≤ text.length, (∀ reply ∈ replies ask s (text.take m), reply = true) ↔ m ≤ n

theorem longest_nil (s : σ) : Longest ask s [] 0 :=
  ⟨Nat.le_refl 0, fun m hm => by simp [replies, Nat.le_zero.mp hm]⟩

theorem longest_cons_no {s : σ} {b : UInt8} (h : (ask s b).1 = false) (text : Bytes) :
    Longest ask s (b :: text) 0 := by
  refine ⟨Nat.zero_le _, ?_⟩
  rintro (_ | m) hm
  · simp [replies]
  · simp [replies, h]

theorem longest_cons_yes {s : σ} {b : UInt8} (h : (ask s b).1 = true) {text : Bytes} {n : Nat}
    (hn : Longest ask (ask s b).2 text n) : Longest ask s (b :: text) (n + 1) := by
  refine ⟨Nat.succ_le_succ hn.le_length, ?_⟩
  rintro (_ | m) hm
  · simp [replies]
  · have hyes := hn.yes_iff m (Nat.le_of_succ_le_succ hm)
    rw [List.take_succ_cons, replies, List.forall_mem_cons, hyes]
    simp [h]

theorem accepted_spec (s : σ) (text : Bytes) :
    Longest ask s text (accepted ask s text).1 ∧
      (accepted ask s text).2 = stateAfter ask s (text.take ((accepted ask s text).1 + 1)) := by
  induction text generalizing s with
  | nil => exact ⟨longest_nil ask s, rfl⟩
  | cons b text ih =>
      rw [accepted]
      split
      · next s' hask =>
          obtain ⟨hlongest, hstate⟩ := ih s'
          have hyes : (ask s b).1 = true := by rw [hask]
          have hnext : (ask s b).2 = s' := by rw [hask]
          subst hnext
          exact ⟨longest_cons_yes ask hyes hlongest, hstate⟩
      · next s' hask =>
          have hno : (ask s b).1 = false := by rw [hask]
          refine ⟨longest_cons_no ask hno text, ?_⟩
          simp [stateAfter, hask]

end Predicate

theorem advanceBy_eq_walk (c : Cursor) (n : Nat) :
    c.advanceBy n = (c.location.walk (c.rest.take n)).map fun q =>
      ⟨(c.rest.take n).reverse ++ c.passed, c.rest.drop n, q⟩ := by
  induction n generalizing c with
  | zero => rfl
  | succ n ih =>
      obtain ⟨passed, rest, p⟩ := c
      rcases rest with _ | ⟨b, rest⟩
      · rfl
      · rw [advanceBy_cons, List.take_succ_cons, List.drop_succ_cons, Position.walk_cons]
        cases p.step b with
        | error f => rfl
        | ok q =>
            change advanceBy ⟨b :: passed, rest, q⟩ n = Except.map _ (q.walk _)
            rw [ih, List.reverse_cons, List.append_assoc]
            rfl

/-- The cursor at the offset `k` of a source. -/
def place (source : Bytes) (k : Nat) : Cursor :=
  ⟨(source.take k).reverse, source.drop k, locate source k⟩

section Place

variable {source : Bytes} {k : Nat}

theorem source_place (source : Bytes) (k : Nat) : (place source k).source = source := by
  rw [Cursor.source, place, List.reverse_reverse, List.take_append_drop]

@[simp] theorem location_place (source : Bytes) (k : Nat) :
    (place source k).location = locate source k := rfl

@[simp] theorem rest_place (source : Bytes) (k : Nat) : (place source k).rest = source.drop k := rfl

theorem offset_place (hk : k ≤ source.length) : (place source k).offset = k := by
  rw [offset, place, List.length_reverse, List.length_take_of_le hk]

theorem current_place (source : Bytes) (k : Nat) : (place source k).current = source[k]? :=
  List.head?_drop

theorem isAtEnd_place (hk : k ≤ source.length) :
    (place source k).isAtEnd = decide (k = source.length) := by
  rw [Bool.eq_iff_iff, isAtEnd, place, List.isEmpty_iff, List.drop_eq_nil_iff, decide_eq_true_iff]
  omega

theorem peek_place (hk : k ≤ source.length) (n : Nat) :
    (place source k).peek n =
      if k + n < offsetBound then .ok source[k + n]? else .error .offset := by
  rw [peek, offset_place hk, place, List.getElem?_drop]

theorem sliceFrom_place (hk : k ≤ source.length) (n : Nat) :
    (place source k).sliceFrom n =
      if n ≤ k then .ok (slice source n k) else .error .slice := by
  rw [sliceFrom, offset_place hk, place, List.reverse_reverse]
  rfl

theorem eq_place_of_advanceBy {n : Nat} {d : Cursor}
    (h : (place source k).advanceBy n = .ok d) :
    d = place source (k + min n (source.length - k)) := by
  have htake : (source.drop k).take n = (source.drop k).take (min n (source.length - k)) := by
    rw [List.take_eq_take_min, List.length_drop]
  have hdrop : (source.drop k).drop n = (source.drop k).drop (min n (source.length - k)) := by
    rw [List.drop_eq_drop_min, List.length_drop]
  rw [advanceBy_eq_walk] at h
  change Except.map _ ((locate source k).walk ((source.drop k).take n)) = _ at h
  rcases hwalk : (locate source k).walk ((source.drop k).take n) with f | q
  · rw [hwalk] at h
    cases h
  · rw [hwalk] at h
    cases h
    obtain ⟨rfl, -⟩ := Position.walk_eq_ok hwalk
    rw [htake, place, place]
    dsimp only
    rw [htake, hdrop, ← Position.past_take, ← Position.past_append, ← List.reverse_append,
      ← List.take_add, Position.past_take, List.drop_drop]

theorem fault_of_advanceBy {c : Cursor} {n : Nat} {f : Fault} (h : c.advanceBy n = .error f) :
    f = .line ∨ f = .column := by
  rw [advanceBy_eq_walk] at h
  rcases hwalk : c.location.walk (c.rest.take n) with g | q
  · rw [hwalk] at h
    cases h
    exact Position.fault_of_walk hwalk
  · rw [hwalk] at h
    cases h

end Place

/-- A call on a cursor. The predicate of `eatWhile` comes with the state it is in. -/
inductive Call : Type 1 where
  | current
  | peek (n : Nat)
  | advance
  | advanceBy (n : Nat)
  | eatWhile {σ : Type} (ask : σ → UInt8 → Bool × σ) (s : σ)
  | isAtEnd
  | location
  | sliceFrom (n : Nat)
  | remaining

inductive Answer where
  | nothing
  | byte (b : Option UInt8)
  | bytes (text : Bytes)
  | flag (b : Bool)
  | position (p : Position)

/-- What a call comes to: its answer, or the fault that stops it, and the cursor after it. -/
structure Outcome where
  answer : Except Fault Answer
  cursor : Cursor

/-- A call that a fault stops leaves the cursor as it was. -/
def Outcome.settle (c : Cursor) : Except Fault (Answer × Cursor) → Outcome
  | .ok (a, d) => ⟨.ok a, d⟩
  | .error f => ⟨.error f, c⟩

def perform (c : Cursor) : Call → Outcome
  | .current => ⟨.ok (.byte c.current), c⟩
  | .peek n => ⟨(c.peek n).map .byte, c⟩
  | .advance => .settle c (c.advance.map fun r => (.byte r.1, r.2))
  | .advanceBy n => .settle c ((c.advanceBy n).map fun d => (.nothing, d))
  | .eatWhile ask s => .settle c ((c.eatWhile ask s).map fun r => (.bytes r.1, r.2.2))
  | .isAtEnd => ⟨.ok (.flag c.isAtEnd), c⟩
  | .location => ⟨.ok (.position c.location), c⟩
  | .sliceFrom n => ⟨(c.sliceFrom n).map .bytes, c⟩
  | .remaining => ⟨.ok (.bytes c.rest), c⟩

def after (c : Cursor) (calls : List Call) : Cursor :=
  calls.foldl (fun c call => (c.perform call).cursor) c

/-- The answer does not report a line or a column number that left its range. -/
def Outcome.Counted (o : Outcome) : Prop :=
  o.answer ≠ .error .line ∧ o.answer ≠ .error .column

/-- No line or column number leaves its range while the calls are made. -/
def Counts : Cursor → List Call → Prop
  | _, [] => True
  | c, call :: calls => (c.perform call).Counted ∧ Counts (c.perform call).cursor calls

/-- What a call at the offset `k` of a source answers, and the offset `j` it moves to. -/
def Call.Meets (source : Bytes) (k : Nat) : Call → Except Fault Answer → Nat → Prop
  | .current, r, j => r = .ok (.byte source[k]?) ∧ j = k
  | .peek n, r, j =>
      r = (if k + n < offsetBound then .ok (.byte source[k + n]?) else .error .offset) ∧ j = k
  | .advance, r, j => r = .ok (.byte source[k]?) ∧ j = k + min 1 (source.length - k)
  | .advanceBy n, r, j => r = .ok .nothing ∧ j = k + min n (source.length - k)
  | .eatWhile ask s, r, j =>
      ∃ n, Longest ask s (source.drop k) n ∧ r = .ok (.bytes ((source.drop k).take n)) ∧ j = k + n
  | .isAtEnd, r, j => r = .ok (.flag (decide (k = source.length))) ∧ j = k
  | .location, r, j => r = .ok (.position (locate source k)) ∧ j = k
  | .sliceFrom n, r, j =>
      r = (if n ≤ k then .ok (.bytes (slice source n k)) else .error .slice) ∧ j = k
  | .remaining, r, j => r = .ok (.bytes (source.drop k)) ∧ j = k

theorem counted_ok (a : Answer) (c : Cursor) : Outcome.Counted ⟨.ok a, c⟩ := by
  constructor <;> simp

theorem perform_advance (c : Cursor) :
    c.perform .advance = .settle c ((c.advanceBy 1).map fun d => (.byte c.current, d)) := by
  rw [perform, advance]
  cases c.advanceBy 1 <;> rfl

theorem perform_eatWhile {σ : Type} (c : Cursor) (ask : σ → UInt8 → Bool × σ) (s : σ) :
    c.perform (.eatWhile ask s) =
      .settle c ((c.advanceBy (accepted ask s c.rest).1).map fun d =>
        (.bytes (c.rest.take (accepted ask s c.rest).1), d)) := by
  rw [perform, eatWhile]
  cases c.advanceBy (accepted ask s c.rest).1 <;> rfl

theorem cursor_of_error {c : Cursor} {call : Call} {f : Fault}
    (h : (c.perform call).answer = .error f) : (c.perform call).cursor = c := by
  have hsettle : ∀ r : Except Fault (Answer × Cursor), (Outcome.settle c r).answer = .error f →
      (Outcome.settle c r).cursor = c := by
    rintro (g | r) hr
    · rfl
    · cases hr
  cases call with
  | advance => exact hsettle _ h
  | advanceBy n => exact hsettle _ h
  | eatWhile ask s => exact hsettle _ h
  | _ => rfl

section Step

variable {source : Bytes} {k : Nat}

theorem settle_advanceBy_place {n : Nat} {a : Answer} {o : Outcome}
    (ho : o = .settle (place source k) (((place source k).advanceBy n).map fun d => (a, d)))
    (h : o.Counted) : o = ⟨.ok a, place source (k + min n (source.length - k))⟩ := by
  rcases hadvance : (place source k).advanceBy n with f | d
  · rw [hadvance] at ho
    subst ho
    rcases fault_of_advanceBy hadvance with rfl | rfl
    · exact absurd rfl h.1
    · exact absurd rfl h.2
  · rw [ho, hadvance, ← eq_place_of_advanceBy hadvance]
    rfl

/-- A call at a place answers from the source and the offset alone, and leads to a place that is
not further back. -/
theorem perform_place (hk : k ≤ source.length) {call : Call}
    (h : ((place source k).perform call).Counted) :
    ∃ j, k ≤ j ∧ j ≤ source.length ∧ ((place source k).perform call).cursor = place source j ∧
      call.Meets source k ((place source k).perform call).answer j := by
  have hmove : ∀ n, k ≤ k + min n (source.length - k) ∧
      k + min n (source.length - k) ≤ source.length := by
    omega
  cases call with
  | current => exact ⟨k, le_refl k, hk, rfl, by rw [perform, current_place], rfl⟩
  | peek n =>
      refine ⟨k, le_refl k, hk, rfl, ?_, rfl⟩
      rw [perform, peek_place hk]
      split <;> rfl
  | advance =>
      have hresult := settle_advanceBy_place (perform_advance _) h
      rw [current_place] at hresult
      rw [hresult]
      exact ⟨_, (hmove 1).1, (hmove 1).2, rfl, rfl, rfl⟩
  | advanceBy n =>
      have hresult : (place source k).perform (.advanceBy n) = _ := settle_advanceBy_place rfl h
      rw [hresult]
      exact ⟨_, (hmove n).1, (hmove n).2, rfl, rfl, rfl⟩
  | eatWhile ask s =>
      have hresult := settle_advanceBy_place (perform_eatWhile _ ask s) h
      rw [rest_place] at hresult
      obtain ⟨hlongest, -⟩ := accepted_spec ask s (source.drop k)
      have hle := hlongest.le_length
      rw [List.length_drop] at hle
      rw [hresult, Nat.min_eq_left hle]
      exact ⟨_, Nat.le_add_right _ _, by omega, rfl, _, hlongest, rfl, rfl⟩
  | isAtEnd => exact ⟨k, le_refl k, hk, rfl, by rw [perform, isAtEnd_place hk], rfl⟩
  | location => exact ⟨k, le_refl k, hk, rfl, rfl, rfl⟩
  | sliceFrom n =>
      refine ⟨k, le_refl k, hk, rfl, ?_, rfl⟩
      rw [perform, sliceFrom_place hk]
      split <;> rfl
  | remaining => exact ⟨k, le_refl k, hk, rfl, rfl, rfl⟩

theorem counted_place (h : Admissible source) (k : Nat) (call : Call) :
    ((place source k).perform call).Counted := by
  have hadvance : ∀ n a, (Outcome.settle (place source k)
      (((place source k).advanceBy n).map fun d => (a, d))).Counted := by
    intro n a
    have hwalk := @Position.walk_of_admissible (source.take k) ((source.drop k).take n) (by
      rw [← List.take_add]
      exact h.of_infix (List.take_prefix _ _).isInfix)
    rw [Position.past_take] at hwalk
    rw [advanceBy_eq_walk, location_place, rest_place, hwalk]
    exact counted_ok _ _
  cases call with
  | advance => exact perform_advance (place source k) ▸ hadvance _ _
  | advanceBy n => exact hadvance n _
  | eatWhile ask s => exact perform_eatWhile (place source k) ask s ▸ hadvance _ _
  | peek n =>
      rw [perform, peek]
      split
      · exact counted_ok _ _
      · constructor <;> simp [Except.map]
  | sliceFrom n =>
      rw [perform, sliceFrom]
      split
      · exact counted_ok _ _
      · constructor <;> simp [Except.map]
  | _ => exact counted_ok _ _

end Step

theorem counts_append {c : Cursor} {calls more : List Call} :
    Counts c (calls ++ more) ↔ Counts c calls ∧ Counts (c.after calls) more := by
  induction calls generalizing c with
  | nil => simp [Counts, after]
  | cons call calls ih =>
      rw [List.cons_append, Counts, Counts, ih, and_assoc]
      rfl

/-- However many calls are made, the cursor is at a place of its source. -/
theorem after_start {source : Bytes} {calls : List Call} (h : Counts (start source) calls) :
    ∃ k ≤ source.length, (start source).after calls = place source k := by
  have hplace : ∀ k ≤ source.length, Counts (place source k) calls →
      ∃ j ≤ source.length, (place source k).after calls = place source j := by
    clear h
    induction calls with
    | nil => exact fun k hk _ => ⟨k, hk, rfl⟩
    | cons call calls ih =>
        rintro k hk ⟨hcounted, hrest⟩
        obtain ⟨j, -, hj, hcursor, -⟩ := perform_place hk hcounted
        rw [hcursor] at hrest
        obtain ⟨i, hi, hafter⟩ := ih j hj hrest
        exact ⟨i, hi, by rw [← hafter, ← hcursor]; rfl⟩
  exact hplace 0 (Nat.zero_le _) h

theorem counts_of_admissible {source : Bytes} (h : Admissible source) (calls : List Call) :
    Counts (start source) calls := by
  induction calls using List.reverseRecOn with
  | nil => trivial
  | append_singleton calls call ih =>
      obtain ⟨k, -, hk⟩ := after_start ih
      refine counts_append.mpr ⟨ih, ?_, trivial⟩
      rw [hk]
      exact counted_place h k call

/-- The cursor stands in the source, and its position tells how many line feeds and how many bytes
of the last line are behind it. -/
structure StandsIn (source : Bytes) (c : Cursor) : Prop where
  source_eq : c.source = source
  offset_le : c.offset ≤ source.length
  line_eq : c.location.line = 1 + (source.take c.offset).count Byte.lineFeed
  column_eq : c.location.column =
    ((source.take c.offset).reverse.takeWhile (· != Byte.lineFeed)).length

theorem standsIn_place {source : Bytes} {k : Nat} (hk : k ≤ source.length) :
    StandsIn source (place source k) := by
  refine ⟨source_place source k, ?_, ?_, ?_⟩
  · rwa [offset_place hk]
  · rw [offset_place hk]
    rfl
  · rw [offset_place hk]
    rfl

theorem eatWhile_eq_ok {σ : Type} {c d : Cursor} {ask : σ → UInt8 → Bool × σ} {s s' : σ}
    {text : Bytes} (h : c.eatWhile ask s = .ok (text, s', d)) :
    s' = stateAfter ask s (c.rest.take (text.length + 1)) := by
  obtain ⟨hlongest, hstate⟩ := accepted_spec ask s c.rest
  rw [eatWhile] at h
  rcases hadvance : c.advanceBy (accepted ask s c.rest).1 with f | e
  · rw [hadvance] at h
    cases h
  · rw [hadvance] at h
    cases h
    rwa [List.length_take_of_le hlongest.le_length]

/-- Whatever calls are made on a cursor, as long as it can count, it stands in its source. The next
call answers from the source and the offset, moves the cursor forwards or not at all, and not at
all if it fails. -/
theorem calls_keep_place {source : Bytes} {calls : List Call} {call : Call}
    (h : Counts (start source) (calls ++ [call])) :
    let c := (start source).after calls
    let o := c.perform call
    StandsIn source c ∧ StandsIn source o.cursor ∧ c.offset ≤ o.cursor.offset ∧
      call.Meets source c.offset o.answer o.cursor.offset ∧
      (∀ f, o.answer = .error f → o.cursor = c) ∧
      (∀ n ≤ c.offset, ∃ text, c.sliceFrom n = .ok text ∧ text ++ c.rest = source.drop n) ∧
      ∀ (σ : Type) (ask : σ → UInt8 → Bool × σ) (s s' : σ) (text : Bytes) (d : Cursor),
        c.eatWhile ask s = .ok (text, s', d) →
          s' = stateAfter ask s ((source.drop c.offset).take (text.length + 1)) := by
  obtain ⟨hcalls, hcounted, -⟩ := counts_append.mp h
  obtain ⟨k, hk, hc⟩ := after_start hcalls
  rw [hc] at hcounted ⊢
  obtain ⟨j, hle, hj, hcursor, hmeets⟩ := perform_place hk hcounted
  intro c o
  have hoffset : c.offset = k := offset_place hk
  have hoffset' : o.cursor.offset = j := by
    change ((place source k).perform call).cursor.offset = j
    rw [hcursor, offset_place hj]
  rw [hoffset, hoffset']
  refine ⟨standsIn_place hk, hcursor ▸ standsIn_place hj, hle, hmeets, ?_, ?_, ?_⟩
  · exact fun f hf => cursor_of_error hf
  · intro n hn
    refine ⟨slice source n k, ?_, slice_append_drop hn⟩
    exact (sliceFrom_place hk n).trans (if_pos hn)
  · intro σ ask s s' text d heat
    exact eatWhile_eq_ok heat

theorem calls_keep_place_counter :
    let source := Bytes.ofString "a\nbb\nc"
    let ask : Nat → UInt8 → Bool × Nat := fun n _ => (decide (0 < n), n - 1)
    let c := (start source).after [.advanceBy 1, .peek (offsetBound - 1), .sliceFrom 2]
    let o := c.perform (.eatWhile ask 3)
    c.offset = 1 ∧ (c.perform (.peek (offsetBound - 1))).answer = .error .offset ∧
      StandsIn source o.cursor ∧ o.cursor.location = ⟨2, 2⟩ ∧
      (Call.eatWhile ask 3).Meets source 1 o.answer 4 ∧
      ∃ text, c.sliceFrom 0 = .ok text ∧ text ++ c.rest = source := by
  intro source ask c o
  have hadmissible : Admissible source := admissible_of_length (by decide)
  have hoffset : c.offset = 1 := rfl
  have hcounts := counts_of_admissible hadmissible
    ([.advanceBy 1, .peek (offsetBound - 1), .sliceFrom 2] ++ [.peek (offsetBound - 1)])
  have hcounts' := counts_of_admissible hadmissible
    ([.advanceBy 1, .peek (offsetBound - 1), .sliceFrom 2] ++ [.eatWhile ask 3])
  obtain ⟨-, -, -, ⟨hpeek, -⟩, -⟩ := calls_keep_place hcounts
  obtain ⟨-, hstands, -, hmeets, -, hslice, -⟩ := calls_keep_place hcounts'
  refine ⟨hoffset, ?_, hstands, rfl, hmeets, hslice 0 (Nat.zero_le _)⟩
  change _ = (if c.offset + (offsetBound - 1) < offsetBound then _ else _) at hpeek
  rwa [hoffset, if_neg (by decide)] at hpeek

end Cursor

end StatementLexer
