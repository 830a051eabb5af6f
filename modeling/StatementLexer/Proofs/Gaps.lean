import Mathlib.Data.List.Induction
import StatementLexer.Terminator

/-!
What inferring statement boundaries means, gap by gap. A stream is cut at its content tokens; the
line breaks and semicolons between two of them are a gap, and every gap is replaced by at most one
terminator.
-/

namespace StatementLexer.Terminator

/-- Line breaks and semicolons; all other tokens are content. -/
def isSeparator (t : Token) : Bool :=
  t.kind == .endOfLine || t.kind == .semicolon

/-- The tokens that a gap behind `previous` leaves: its last semicolon, or else the terminator that
its first line break becomes when the token before the gap can end a statement. -/
def separators (previous : Option Token) (gap : List Token) : List Token :=
  match (gap.filter fun t => t.kind == .semicolon).getLast? with
  | some t => [t]
  | none =>
      match previous, gap.find? fun t => t.kind == .endOfLine with
      | some p, some t =>
          if p.kind.endsStatement then [⟨.semicolon, t.literal, p.stop, p.stop⟩] else []
      | _, _ => []

/-- A stream as a gap at its start and content tokens, each with the gap behind it. -/
@[ext] structure Gapped where
  lead : List Token
  items : List (Token × List Token)
  lead_separator : ∀ t ∈ lead, isSeparator t = true
  item_content : ∀ i ∈ items, isSeparator i.1 = false
  item_separator : ∀ i ∈ items, ∀ t ∈ i.2, isSeparator t = true

namespace Gapped

def stream (g : Gapped) : List Token :=
  g.lead ++ g.items.flatMap fun i => i.1 :: i.2

/-- The stream in which every gap is replaced by the terminator it leaves. -/
def terminated (g : Gapped) : List Token :=
  separators none g.lead ++ g.items.flatMap fun i => i.1 :: separators (some i.1) i.2

end Gapped

theorem separators_nil (previous : Option Token) : separators previous [] = [] := by
  cases previous <;> rfl

theorem length_separators_le (previous : Option Token) (gap : List Token) :
    (separators previous gap).length ≤ 1 := by
  unfold separators
  split
  · exact Nat.le_refl _
  · split
    · split <;> simp
    · exact Nat.zero_le _

theorem reverse_separators (previous : Option Token) (gap : List Token) :
    (separators previous gap).reverse = separators previous gap := by
  have hlength := length_separators_le previous gap
  match separators previous gap, hlength with
  | [], _ => rfl
  | [t], _ => rfl

theorem kind_of_mem_separators {previous : Option Token} {gap : List Token} {t : Token}
    (h : t ∈ separators previous gap) : t.kind = .semicolon := by
  unfold separators at h
  split at h
  · next hlast =>
      rw [List.mem_singleton] at h
      subst h
      simpa using (List.mem_filter.mp (List.mem_of_getLast? hlast)).2
  · split at h
    · split at h
      · rw [List.mem_singleton] at h
        rw [h]
      · cases h
    · cases h

theorem separators_concat_semicolon (previous : Option Token) (gap : List Token) {t : Token}
    (h : t.kind = .semicolon) : separators previous (gap ++ [t]) = [t] := by
  simp [separators, h]

theorem exists_endOfLine_of_no_semicolon {gap : List Token} (hne : gap ≠ [])
    (hgap : ∀ u ∈ gap, isSeparator u = true)
    (hnone : (gap.filter fun u => u.kind == .semicolon).getLast? = none) :
    ∃ u rest, gap = u :: rest ∧ u.kind = .endOfLine := by
  rcases gap with _ | ⟨u, rest⟩
  · exact absurd rfl hne
  · refine ⟨u, rest, rfl, ?_⟩
    rw [List.getLast?_eq_none_iff, List.filter_eq_nil_iff] at hnone
    have hu := hgap u List.mem_cons_self
    have hsemicolon := hnone u List.mem_cons_self
    simpa [isSeparator, hsemicolon] using hu

theorem separators_concat_endOfLine (previous : Option Token) {gap : List Token}
    (hne : gap ≠ []) (hgap : ∀ u ∈ gap, isSeparator u = true) {t : Token}
    (h : t.kind = .endOfLine) : separators previous (gap ++ [t]) = separators previous gap := by
  have hfilter : (gap ++ [t]).filter (fun u => u.kind == .semicolon) =
      gap.filter fun u => u.kind == .semicolon := by
    simp [h]
  unfold separators
  rw [hfilter]
  split
  · rfl
  · next hnone =>
      obtain ⟨u, rest, rfl, hu⟩ := exists_endOfLine_of_no_semicolon hne hgap hnone
      simp [hu]

theorem endsStatement_of_separators_eq_nil {p : Token} {gap : List Token} (hne : gap ≠ [])
    (hgap : ∀ u ∈ gap, isSeparator u = true) (h : separators (some p) gap = []) :
    p.kind.endsStatement = false := by
  unfold separators at h
  split at h
  · cases h
  · next hnone =>
      obtain ⟨u, rest, rfl, hu⟩ := exists_endOfLine_of_no_semicolon hne hgap hnone
      simpa [hu] using h

theorem isSeparator_eq_false_iff {t : Token} :
    isSeparator t = false ↔ t.kind ≠ .endOfLine ∧ t.kind ≠ .semicolon := by
  simp [isSeparator]

namespace Progress

theorem emitted_step_content (s : Progress) {t : Token} (h : isSeparator t = false) :
    (s.step t).emitted = t :: s.emitted := by
  obtain ⟨hline, hsemicolon⟩ := isSeparator_eq_false_iff.mp h
  unfold step
  split
  · next hnil => simp [hline, hnil]
  · next hcons => simp [hline, hsemicolon, hcons]

theorem emitted_step_semicolon_semicolon {s : Progress} {t last : Token} {before : List Token}
    (hs : s.emitted = last :: before) (hlast : last.kind = .semicolon)
    (h : t.kind = .semicolon) : (s.step t).emitted = t :: before := by
  simp [step, hs, hlast, h]

theorem emitted_step_semicolon {s : Progress} {t : Token} (h : t.kind = .semicolon)
    (hs : ∀ last, s.emitted.head? = some last → last.kind ≠ .semicolon) :
    (s.step t).emitted = t :: s.emitted := by
  unfold step
  split
  · next hnil => simp [h, hnil]
  · next last before hcons =>
      have hlast := hs last (by rw [hcons]; rfl)
      simp [h, hlast, hcons]

theorem emitted_step_endOfLine {s : Progress} {t : Token} (h : t.kind = .endOfLine)
    (hs : ∀ last, s.emitted.head? = some last → last.kind.endsStatement = false) :
    (s.step t).emitted = s.emitted := by
  unfold step
  split
  · simp [h]
  · next last before hcons =>
      have hlast := hs last (by rw [hcons]; rfl)
      simp [h, hlast]

theorem emitted_step_first_endOfLine (s : Progress) {t : Token} (h : t.kind = .endOfLine) :
    (s.step t).emitted = separators s.emitted.head? [t] ++ s.emitted := by
  rcases hs : s.emitted with _ | ⟨last, before⟩
  · simp [step, hs, h, separators]
  · cases hlast : last.kind.endsStatement <;> simp [step, hs, h, hlast, separators]

/-- The tokens that a gap adds are those it leaves. The last token emitted before the gap is the
content token before it, and what the gap has added so far decides what the next one does. -/
theorem emitted_foldl_gap (s : Progress)
    (hs : ∀ last, s.emitted.head? = some last → isSeparator last = false) {gap : List Token}
    (hgap : ∀ t ∈ gap, isSeparator t = true) :
    (gap.foldl step s).emitted = separators s.emitted.head? gap ++ s.emitted := by
  induction gap using List.reverseRecOn with
  | nil => rw [separators_nil]; rfl
  | append_singleton gap t ih =>
      have hgap' : ∀ u ∈ gap, isSeparator u = true :=
        fun u hu => hgap u (List.mem_append_left _ hu)
      have ht : t.kind = .endOfLine ∨ t.kind = .semicolon := by
        simpa [isSeparator] using hgap t (by simp)
      have ih := ih hgap'
      have hlength := length_separators_le s.emitted.head? gap
      have hkind : ∀ u ∈ separators s.emitted.head? gap, u.kind = .semicolon :=
        fun u hu => kind_of_mem_separators hu
      rw [List.foldl_append, List.foldl_cons, List.foldl_nil]
      rcases ht with ht | ht
      · by_cases hne : gap = []
        · subst hne
          exact emitted_step_first_endOfLine s ht
        · rw [separators_concat_endOfLine _ hne hgap' ht, ← ih]
          apply emitted_step_endOfLine ht
          intro last hlast
          rw [ih] at hlast
          rcases hsep : separators s.emitted.head? gap with _ | ⟨u, rest⟩
          · rw [hsep, List.nil_append] at hlast
            rw [hlast] at hsep
            exact endsStatement_of_separators_eq_nil hne hgap' hsep
          · rw [hsep] at hlast hkind
            cases hlast
            rw [hkind last List.mem_cons_self]
            rfl
      · rw [separators_concat_semicolon _ _ ht]
        rcases hsep : separators s.emitted.head? gap with _ | ⟨u, rest⟩
        · rw [hsep, List.nil_append] at ih
          rw [emitted_step_semicolon ht, ih]
          · rfl
          · intro last hlast
            rw [ih] at hlast
            exact (isSeparator_eq_false_iff.mp (hs last hlast)).2
        · rw [hsep] at hlength hkind ih
          obtain rfl : rest = [] := List.eq_nil_of_length_eq_zero (Nat.le_zero.mp
            (Nat.le_of_succ_le_succ hlength))
          exact emitted_step_semicolon_semicolon ih (hkind u List.mem_cons_self) ht

theorem emitted_foldl_items (s : Progress) {items : List (Token × List Token)}
    (hcontent : ∀ i ∈ items, isSeparator i.1 = false)
    (hgap : ∀ i ∈ items, ∀ t ∈ i.2, isSeparator t = true) :
    ((items.flatMap fun i => i.1 :: i.2).foldl step s).emitted =
      (items.flatMap fun i => i.1 :: separators (some i.1) i.2).reverse ++ s.emitted := by
  induction items generalizing s with
  | nil => rfl
  | cons i items ih =>
      have hi := hcontent i List.mem_cons_self
      have hemitted := emitted_step_content s hi
      have hfold := emitted_foldl_gap (s.step i.1)
        (fun last hlast => by rw [hemitted] at hlast; cases hlast; exact hi)
        (hgap i List.mem_cons_self)
      rw [hemitted] at hfold
      rw [List.flatMap_cons, List.foldl_append, List.foldl_cons,
        ih _ (fun j hj => hcontent j (List.mem_cons_of_mem _ hj))
          (fun j hj => hgap j (List.mem_cons_of_mem _ hj)),
        hfold, List.flatMap_cons, List.reverse_append, List.append_assoc, List.reverse_cons,
        reverse_separators, List.append_assoc]
      rfl

end Progress

theorem inferBoundaries_stream (g : Gapped) : inferBoundaries g.stream = g.terminated := by
  have hlead := Progress.emitted_foldl_gap .start (fun last hlast => by cases hlast)
    g.lead_separator
  rw [inferBoundaries, infer, Gapped.stream, List.foldl_append]
  dsimp only
  rw [Progress.emitted_foldl_items _ g.item_content g.item_separator, hlead, List.reverse_append,
    List.reverse_reverse]
  change (separators none g.lead ++ []).reverse ++ _ = _
  rw [List.append_nil, reverse_separators]
  rfl

theorem takeWhile_isSeparator {lead : List Token} {items : List (Token × List Token)}
    (hlead : ∀ t ∈ lead, isSeparator t = true) (hcontent : ∀ i ∈ items, isSeparator i.1 = false) :
    (lead ++ items.flatMap fun i => i.1 :: i.2).takeWhile isSeparator = lead := by
  rw [List.takeWhile_append_of_pos hlead]
  rcases items with _ | ⟨i, items⟩
  · simp
  · simp [hcontent i List.mem_cons_self]

theorem cut_injective {lead lead' : List Token} {items items' : List (Token × List Token)}
    (hlead : ∀ t ∈ lead, isSeparator t = true) (hlead' : ∀ t ∈ lead', isSeparator t = true)
    (hcontent : ∀ i ∈ items, isSeparator i.1 = false)
    (hcontent' : ∀ i ∈ items', isSeparator i.1 = false)
    (hgap : ∀ i ∈ items, ∀ t ∈ i.2, isSeparator t = true)
    (hgap' : ∀ i ∈ items', ∀ t ∈ i.2, isSeparator t = true)
    (h : lead ++ (items.flatMap fun i => i.1 :: i.2) =
      lead' ++ items'.flatMap fun i => i.1 :: i.2) : lead = lead' ∧ items = items' := by
  have hsame : lead = lead' := by
    rw [← takeWhile_isSeparator hlead hcontent, h, takeWhile_isSeparator hlead' hcontent']
  refine ⟨hsame, ?_⟩
  subst hsame
  have hitems := List.append_cancel_left h
  clear h hlead hlead'
  induction items generalizing items' with
  | nil =>
      rcases items' with _ | ⟨j, items'⟩
      · rfl
      · cases hitems
  | cons i items ih =>
      rcases items' with _ | ⟨j, items'⟩
      · cases hitems
      · rw [List.flatMap_cons, List.flatMap_cons, List.cons_append, List.cons_append,
          List.cons.injEq] at hitems
        obtain ⟨htoken, hrest⟩ := hitems
        rw [List.forall_mem_cons] at hcontent hcontent' hgap hgap'
        have hgaps : i.2 = j.2 := by
          rw [← takeWhile_isSeparator hgap.1 hcontent.2, hrest,
            takeWhile_isSeparator hgap'.1 hcontent'.2]
        rw [hgaps] at hrest
        rw [Prod.ext htoken hgaps,
          ih hcontent.2 hcontent'.2 hgap.2 hgap'.2 (List.append_cancel_left hrest)]

theorem Gapped.stream_injective {g g' : Gapped} (h : g.stream = g'.stream) : g = g' := by
  obtain ⟨hlead, hitems⟩ := cut_injective g.lead_separator g'.lead_separator g.item_content
    g'.item_content g.item_separator g'.item_separator h
  exact Gapped.ext hlead hitems

theorem Gapped.exists_stream (ts : List Token) : ∃ g : Gapped, g.stream = ts := by
  induction ts with
  | nil => exact ⟨⟨[], [], by simp, by simp, by simp⟩, rfl⟩
  | cons t ts ih =>
      obtain ⟨g, rfl⟩ := ih
      cases ht : isSeparator t with
      | true =>
          refine ⟨⟨t :: g.lead, g.items, ?_, g.item_content, g.item_separator⟩, rfl⟩
          intro u hu
          rcases List.mem_cons.mp hu with rfl | hu
          · exact ht
          · exact g.lead_separator u hu
      | false =>
          refine ⟨⟨[], (t, g.lead) :: g.items, by simp, ?_, ?_⟩, rfl⟩
          · intro i hi
            rcases List.mem_cons.mp hi with rfl | hi
            · exact ht
            · exact g.item_content i hi
          · intro i hi
            rcases List.mem_cons.mp hi with rfl | hi
            · exact g.lead_separator
            · exact g.item_separator i hi

theorem filter_separators (previous : Option Token) (gap : List Token) :
    ((separators previous gap).filter fun t => !isSeparator t) = [] := by
  apply List.filter_eq_nil_iff.mpr
  intro t ht
  simp [isSeparator, kind_of_mem_separators ht]

theorem filter_items {items : List (Token × List Token)}
    (h : ∀ i ∈ items, isSeparator i.1 = false) :
    ((items.flatMap fun i => i.1 :: separators (some i.1) i.2).filter fun t => !isSeparator t) =
      items.map Prod.fst := by
  induction items with
  | nil => rfl
  | cons i items ih =>
      rw [List.forall_mem_cons] at h
      rw [List.flatMap_cons, List.filter_append, List.filter_cons, h.1, filter_separators, ih h.2]
      rfl

theorem Gapped.filter_terminated (g : Gapped) :
    (g.terminated.filter fun t => !isSeparator t) = g.items.map Prod.fst := by
  rw [terminated, List.filter_append, filter_separators, filter_items g.item_content]
  rfl

/-- A stream is cut at its content tokens in one way, and inferring boundaries replaces each gap
by what it leaves: the content tokens stay as they are, with at most one terminator between two of
them. -/
theorem inferBoundaries_eq_terminated :
    (∀ ts : List Token, ∃! g : Gapped, g.stream = ts) ∧
      (∀ g : Gapped, inferBoundaries g.stream = g.terminated ∧
        ((inferBoundaries g.stream).filter fun t => !isSeparator t) = g.items.map Prod.fst) ∧
      ∀ previous gap, (separators previous gap).length ≤ 1 := by
  refine ⟨?_, ?_, length_separators_le⟩
  · intro ts
    obtain ⟨g, hg⟩ := Gapped.exists_stream ts
    exact ⟨g, hg, fun g' hg' => Gapped.stream_injective (hg'.trans hg.symm)⟩
  · intro g
    exact ⟨inferBoundaries_stream g, (inferBoundaries_stream g).symm ▸ g.filter_terminated⟩

end StatementLexer.Terminator
