import StatementLexer.Proofs.Location
import StatementLexer.Tokenize.Basic

namespace StatementLexer

namespace Chunk

/-- More may come after this answer: it brought bytes, or the reader was interrupted. -/
def goesOn : Chunk → Bool
  | .bytes data => !data.isEmpty
  | .failure e => e.kind == .interrupted

def data : Chunk → Bytes
  | .bytes data => data
  | .failure _ => []

def failure? : Chunk → Option IoError
  | .bytes _ => none
  | .failure e => some e

end Chunk

namespace Source

/-- The bytes that a reader brings before it ends or fails. -/
def content (chunks : List Chunk) : Bytes :=
  (chunks.takeWhile Chunk.goesOn).flatMap Chunk.data

/-- The failure that stops a reader, if it does not end before. -/
def failure? (chunks : List Chunk) : Option IoError :=
  (chunks.dropWhile Chunk.goesOn).head?.bind Chunk.failure?

/-- What a reader comes to that is read to its end. -/
def outcome (chunks : List Chunk) : Except IoError Bytes :=
  match failure? chunks with
  | some e => .error e
  | none => .ok (content chunks)

theorem content_cons {c : Chunk} (h : c.goesOn = true) (chunks : List Chunk) :
    content (c :: chunks) = c.data ++ content chunks := by
  rw [content, List.takeWhile_cons_of_pos h, List.flatMap_cons]
  rfl

theorem outcome_cons {c : Chunk} (h : c.goesOn = true) (chunks : List Chunk) :
    outcome (c :: chunks) = (outcome chunks).map (c.data ++ ·) := by
  have hfailure : failure? (c :: chunks) = failure? chunks := by
    rw [failure?, List.dropWhile_cons_of_pos h]
    rfl
  rw [outcome, outcome, hfailure, content_cons h]
  cases failure? chunks <;> rfl

theorem content_of_stop {c : Chunk} (h : c.goesOn = false) (chunks : List Chunk) :
    content (c :: chunks) = [] := by
  rw [content, List.takeWhile_cons_of_neg (by simp [h])]
  rfl

theorem outcome_of_stop {c : Chunk} (h : c.goesOn = false) (chunks : List Chunk) :
    outcome (c :: chunks) = match c.failure? with
      | some e => .error e
      | none => .ok [] := by
  have hfailure : failure? (c :: chunks) = c.failure? := by
    rw [failure?, List.dropWhile_cons_of_neg (by simp [h])]
    rfl
  rw [outcome, hfailure, content_of_stop h]

/-- The budget is used up by so many bytes. -/
def exhausts (budget : Option Nat) (data : Bytes) : Bool :=
  budget.any (· ≤ data.length)

theorem exhausts_nil {budget : Option Nat} (h : budget ≠ some 0) : exhausts budget [] = false := by
  rcases budget with _ | n
  · rfl
  · simpa [exhausts] using h

theorem exhausts_append (budget : Option Nat) (a b : Bytes) :
    exhausts (budget.map (· - a.length)) b = exhausts budget (a ++ b) := by
  rcases budget with _ | n
  · rfl
  · simp only [exhausts, Option.map_some, Option.any_some, List.length_append, decide_eq_decide]
    omega

theorem cut_append (budget : Option Nat) (a b : Bytes) :
    cut budget a ++ cut (budget.map (· - a.length)) b = cut budget (a ++ b) := by
  rcases budget with _ | n
  · rfl
  · exact List.take_append.symm

/-- Collecting stops where the budget is used up; a failure behind that place has no effect. -/
theorem collect_eq (budget : Option Nat) (chunks : List Chunk) :
    collect budget chunks =
      if exhausts budget (content chunks) then .ok (cut budget (content chunks))
      else outcome chunks := by
  fun_induction collect budget chunks with
  | case1 chunks => simp [exhausts, cut]
  | case2 budget hbudget =>
      have hnil : content [] = [] := rfl
      rw [hnil, exhausts_nil hbudget]
      rfl
  | case3 budget e chunks hbudget hkind ih =>
      have hgoes : (Chunk.failure e).goesOn = true := by simp [Chunk.goesOn, hkind]
      have houtcome : outcome (.failure e :: chunks) = outcome chunks := by
        rw [outcome_cons hgoes]
        cases outcome chunks <;> rfl
      rw [ih, content_cons hgoes, houtcome]
      rfl
  | case4 budget e chunks hbudget hkind =>
      have hstop : (Chunk.failure e).goesOn = false := by simp [Chunk.goesOn, hkind]
      rw [content_of_stop hstop, exhausts_nil hbudget, outcome_of_stop hstop]
      rfl
  | case5 budget chunks hbudget =>
      have hstop : (Chunk.bytes []).goesOn = false := rfl
      rw [content_of_stop hstop, exhausts_nil hbudget, outcome_of_stop hstop]
      rfl
  | case6 budget data chunks hbudget hdata ih =>
      have hgoes : (Chunk.bytes data).goesOn = true := by
        simpa [Chunk.goesOn] using hdata
      rw [ih, exhausts_append, content_cons hgoes, outcome_cons hgoes]
      change Except.map (cut budget data ++ ·) _ = if exhausts budget (data ++ content chunks) then
        _ else (outcome chunks).map (data ++ ·)
      cases hexhausts : exhausts budget (data ++ content chunks) with
      | true => exact congrArg Except.ok (cut_append budget data (content chunks))
      | false =>
          -- The budget has room for the whole chunk, so nothing of it is cut off.
          have hcut : cut budget data = data := by
            rcases budget with _ | n
            · rfl
            · simp only [exhausts, Option.any_some, decide_eq_false_iff_not, List.length_append]
                at hexhausts
              exact List.take_of_length_le (by omega)
          rw [hcut]
          rfl

theorem read_none (chunks : List Chunk) : read none chunks = (outcome chunks).mapError .io := by
  rw [read, collect_eq]
  rfl

theorem read_some {chunks : List Chunk} (h : (content chunks).length < Bytes.capacity) (limit : Nat) :
    read (some limit) chunks =
      if limit < (content chunks).length then .error (.tooLarge limit)
      else (outcome chunks).mapError .io := by
  have hcapacity : Bytes.capacity ≤ maxLimit := by decide
  rw [read, collect_eq]
  split
  · next hexhausts =>
      simp only [exhausts, Option.any_some, decide_eq_true_eq] at hexhausts
      have hlimit : limit < (content chunks).length := by omega
      have hlength : limit < (cut (some (min (limit + 1) maxLimit)) (content chunks)).length := by
        rw [cut, List.length_take]
        omega
      rw [if_pos hlimit]
      exact if_pos hlength
  · next hexhausts =>
      simp only [exhausts, Option.any_some, decide_eq_true_eq] at hexhausts
      have hlimit : ¬ limit < (content chunks).length := by omega
      rw [if_neg hlimit, outcome]
      cases failure? chunks with
      | some e => rfl
      | none => exact if_neg hlimit

theorem read_eq_tooLarge_iff {chunks : List Chunk} (h : (content chunks).length < Bytes.capacity)
    (limit : Option Nat) (n : Nat) :
    read limit chunks = .error (.tooLarge n) ↔ limit = some n ∧ n < (content chunks).length := by
  have hio : (outcome chunks).mapError Error.io ≠ .error (.tooLarge n) := by
    intro heq
    cases houtcome : outcome chunks <;> rw [houtcome] at heq <;> cases heq
  rcases limit with _ | limit
  · rw [read_none]
    simp [hio]
  · rw [read_some h]
    split
    · next hlimit =>
        simp only [Except.error.injEq, Error.tooLarge.injEq, Option.some.injEq]
        constructor
        · rintro rfl
          exact ⟨rfl, hlimit⟩
        · exact And.left
    · next hlimit =>
        constructor
        · intro heq
          exact absurd heq hio
        · rintro ⟨heq, hn⟩
          cases heq
          exact absurd hn hlimit

theorem read_of_le {chunks : List Chunk} (h : (content chunks).length < Bytes.capacity)
    {limit : Option Nat} (hlimit : ∀ n, limit = some n → (content chunks).length ≤ n) :
    read limit chunks = (outcome chunks).mapError .io := by
  rcases limit with _ | limit
  · exact read_none chunks
  · rw [read_some h, if_neg (Nat.not_lt.mpr (hlimit limit rfl))]

theorem read_congr {chunks others : List Chunk} (h : (content chunks).length < Bytes.capacity)
    (hcontent : content others = content chunks) (hfailure : failure? others = failure? chunks)
    (limit : Option Nat) : read limit others = read limit chunks := by
  have houtcome : outcome others = outcome chunks := by
    rw [outcome, outcome, hfailure, hcontent]
  rcases limit with _ | limit
  · rw [read_none, read_none, houtcome]
  · rw [read_some h, read_some (hcontent ▸ h), houtcome, hcontent]

theorem eq_content_of_read {chunks : List Chunk} (h : (content chunks).length < Bytes.capacity)
    {limit : Option Nat} {data : Bytes} (hread : read limit chunks = .ok data) :
    data = content chunks := by
  have houtcome : (outcome chunks).mapError Error.io = .ok data := by
    rcases limit with _ | limit
    · rwa [read_none] at hread
    · rw [read_some h] at hread
      split at hread
      · cases hread
      · exact hread
  rw [outcome] at houtcome
  cases hfailure : failure? chunks <;> rw [hfailure] at houtcome <;> cases houtcome
  rfl

/-- A source is too large exactly if more bytes than the limit come before the reader ends or
fails; otherwise the failure counts, or else all the bytes. Only these bytes and the failure
matter, not the chunks, and what is tokenized is the content. -/
theorem read_decides_limit {chunks : List Chunk} (h : (content chunks).length < Bytes.capacity) :
    (∀ limit n, read limit chunks = .error (.tooLarge n) ↔
      limit = some n ∧ n < (content chunks).length) ∧
      (∀ limit, (∀ n, limit = some n → (content chunks).length ≤ n) →
        read limit chunks = match failure? chunks with
          | some e => .error (.io e)
          | none => .ok (content chunks)) ∧
      (∀ n, read (some maxLimit) chunks ≠ .error (.tooLarge n)) ∧
      (∀ settings : Settings,
        (∀ e, read settings.maxSourceBytes chunks = .error e →
          tokenizeChunks settings chunks = .error e) ∧
        ∀ data, read settings.maxSourceBytes chunks = .ok data → data = content chunks ∧
          (tokenizeChunks settings chunks).map Tokenized.tokens =
            ((tokenizeWith settings (content chunks)).map Tokenized.tokens).mapError .fault) ∧
      ∀ others, content others = content chunks → failure? others = failure? chunks →
        (∀ limit, read limit others = read limit chunks) ∧
          ∀ settings, tokenizeChunks settings others = tokenizeChunks settings chunks := by
  refine ⟨read_eq_tooLarge_iff h, ?_, ?_, ?_, ?_⟩
  · intro limit hlimit
    rw [read_of_le h hlimit, outcome]
    cases failure? chunks <;> rfl
  · intro n heq
    obtain ⟨hn, hlength⟩ := (read_eq_tooLarge_iff h _ n).mp heq
    cases hn
    have hcapacity : Bytes.capacity ≤ maxLimit := by decide
    omega
  · intro settings
    refine ⟨?_, ?_⟩
    · intro e
      exact tokenizeChunks_of_error
    · intro data hread
      obtain rfl := eq_content_of_read h hread
      refine ⟨rfl, ?_⟩
      rw [tokenizeChunks_of_ok hread]
      cases tokenizeWith settings (content chunks) <;> rfl
  · intro others hcontent hfailure
    have hread := read_congr h hcontent hfailure
    refine ⟨hread, ?_⟩
    intro settings
    rw [tokenizeChunks, tokenizeChunks, tokenizeLogged, tokenizeLogged, hread]

theorem read_decides_limit_failure :
    let chunks : List Chunk :=
      [.bytes (Bytes.ofString "x="), .failure ⟨.interrupted, "again"⟩, .bytes (Bytes.ofString "1"),
        .failure ⟨.other, "broken"⟩, .bytes (Bytes.ofString ";")]
    read (some 2) chunks = .error (.tooLarge 2) ∧
      read (some 3) chunks = .error (.io ⟨.other, "broken"⟩) ∧
      tokenizeChunks ⟨true, true, some 3⟩ chunks = .error (.io ⟨.other, "broken"⟩) ∧
      read (some 2) [.bytes (Bytes.ofString "x=1"), .failure ⟨.other, "broken"⟩] =
        .error (.tooLarge 2) := by
  intro chunks
  obtain ⟨hlarge, hsmall, -, htokens, hothers⟩ :=
    @read_decides_limit chunks (by decide)
  have htwo := (hlarge (some 2) 2).mpr ⟨rfl, by decide⟩
  have hthree := hsmall (some 3) (by rintro n ⟨⟩; decide)
  refine ⟨htwo, hthree, (htokens ⟨true, true, some 3⟩).1 _ hthree, ?_⟩
  rw [(hothers _ (by decide) (by decide)).1]
  exact htwo

end Source

end StatementLexer
