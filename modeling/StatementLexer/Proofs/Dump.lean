import StatementLexer.Proofs.Tables
import StatementLexer.Proofs.Utf8
import StatementLexer.Token.Display

namespace StatementLexer

namespace Text

section Words

variable {a b s t : List Char} {x : Char}

def IsWord (cs : List Char) : Prop :=
  ∀ c ∈ cs, c.isAlphanum = true

theorem IsWord.takeWhile_append (ha : IsWord a) (hx : x.isAlphanum = false) :
    (a ++ x :: s).takeWhile Char.isAlphanum = a := by
  rw [List.takeWhile_append_of_pos ha, List.takeWhile_cons_of_neg (by simp [hx]), List.append_nil]

theorem IsWord.append_cancel (ha : IsWord a) (hb : IsWord b) (hx : x.isAlphanum = false)
    (h : a ++ x :: s = b ++ x :: t) : a = b ∧ s = t := by
  have hword : a = b := by
    rw [← ha.takeWhile_append hx, h, hb.takeWhile_append hx]
  rw [hword] at h
  exact ⟨hword, List.tail_eq_of_cons_eq (List.append_cancel_left h)⟩

end Words

section Digits

variable {base m n : Nat}

theorem digitChar_injective : ∀ i < 16, ∀ j < 16, i.digitChar = j.digitChar → i = j := by
  decide

theorem isAlphanum_digitChar : ∀ i < 16, i.digitChar.isAlphanum = true := by
  decide

theorem isWord_toDigits (hbase : 1 < base) (hsixteen : base ≤ 16) (n : Nat) :
    IsWord (Nat.toDigits base n) := by
  induction n using Nat.strongRecOn with
  | ind n ih =>
      rw [Nat.toDigits_eq_if hbase]
      split
      · exact List.forall_mem_singleton.mpr (isAlphanum_digitChar n (by omega))
      · have hmod : n % base < base := Nat.mod_lt n (by omega)
        refine List.forall_mem_append.mpr ⟨ih (n / base) (Nat.div_lt_self (by omega) hbase), ?_⟩
        exact List.forall_mem_singleton.mpr (isAlphanum_digitChar _ (by omega))

theorem toDigits_injective (hbase : 1 < base) (hsixteen : base ≤ 16)
    (h : Nat.toDigits base m = Nat.toDigits base n) : m = n := by
  induction m using Nat.strongRecOn generalizing n with
  | ind m ih =>
      rw [Nat.toDigits_eq_if hbase, @Nat.toDigits_eq_if base n hbase] at h
      split at h
      · next hm =>
          split at h
          · next hn => exact digitChar_injective m (by omega) n (by omega) (List.singleton_inj.mp h)
          · exact absurd (List.append_eq_singleton_iff.mp h.symm) (by simp [Nat.toDigits_ne_nil])
      · next hm =>
          split at h
          · exact absurd (List.append_eq_singleton_iff.mp h) (by simp [Nat.toDigits_ne_nil])
          · obtain ⟨hdiv, hmod⟩ := List.append_singleton_inj.mp h
            have hdiv := ih (m / base) (Nat.div_lt_self (by omega) hbase) hdiv
            have hm' : m % base < base := Nat.mod_lt m (by omega)
            have hn' : n % base < base := Nat.mod_lt n (by omega)
            have hmod := digitChar_injective _ (by omega) _ (by omega) hmod
            rw [← Nat.div_add_mod m base, hdiv, hmod, Nat.div_add_mod]

end Digits

section Escapes

/-- The characters escaped by one mark behind the backslash. -/
def marks : List (Char × Char) :=
  [('\x00', '0'), ('\t', 't'), ('\r', 'r'), ('\n', 'n'), ('"', '"'), ('\\', '\\')]

/-- What may stand for the character `c` between quotes. -/
inductive Escaped (c : Char) : List Char → Prop
  | plain (hslash : c ≠ '\\') (hquote : c ≠ '"') (hcontrol : isControl c = false) : Escaped c [c]
  | mark {m : Char} (h : (c, m) ∈ marks) : Escaped c ['\\', m]
  | number : Escaped c (escapeNumber c)

theorem isControl_of_isPrintable {c : Char} (h : isPrintable c = true) : isControl c = false := by
  unfold isPrintable at h
  split at h
  · simpa using h
  · simp only [Bool.and_eq_true, Bool.not_eq_true'] at h
    exact h.1.1

theorem escaped_escape (c : Char) : Escaped c (escape c) := by
  unfold escape
  iterate 6
    split
    · next hc =>
        subst hc
        exact .mark (by decide)
  next hquote hslash =>
  split
  · next hprint => exact .plain hslash hquote (isControl_of_isPrintable hprint)
  · exact .number

theorem marks_injective : ∀ p ∈ marks, ∀ q ∈ marks, p.2 = q.2 → p.1 = q.1 := by
  decide

theorem marks_ne_number : ∀ p ∈ marks, p.2 ≠ 'u' := by
  decide

theorem isControl_marks : ∀ p ∈ marks, isControl p.2 = false := by
  decide

theorem escapeNumber_append (c : Char) (s : List Char) :
    escapeNumber c ++ s =
      '\\' :: 'u' :: '\x7b' :: (Nat.toDigits 16 c.toNat ++ '\x7d' :: s) := by
  simp [escapeNumber]

namespace Escaped

variable {c d : Char} {u v s t : List Char}

theorem append_cancel (hu : Escaped c u) (hv : Escaped d v) (h : u ++ s = v ++ t) :
    c = d ∧ s = t := by
  cases hu with
  | plain hslash =>
      cases hv with
      | plain => exact List.cons.inj h
      | mark => exact absurd (List.head_eq_of_cons_eq h) hslash
      | number => exact absurd (List.head_eq_of_cons_eq h) hslash
  | mark hm =>
      cases hv with
      | plain hslash => exact absurd (List.head_eq_of_cons_eq h).symm hslash
      | mark hm' =>
          obtain ⟨hmark, hrest⟩ := List.cons.inj (List.tail_eq_of_cons_eq h)
          exact ⟨marks_injective _ hm _ hm' hmark, hrest⟩
      | number =>
          rw [escapeNumber_append] at h
          obtain ⟨hmark, -⟩ := List.cons.inj (List.tail_eq_of_cons_eq h)
          exact absurd hmark (marks_ne_number _ hm)
  | number =>
      rw [escapeNumber_append] at h
      cases hv with
      | plain hslash => exact absurd (List.head_eq_of_cons_eq h).symm hslash
      | mark hm =>
          obtain ⟨hmark, -⟩ := List.cons.inj (List.tail_eq_of_cons_eq h)
          exact absurd hmark.symm (marks_ne_number _ hm)
      | number =>
          rw [escapeNumber_append] at h
          have hbraces := List.tail_eq_of_cons_eq (List.tail_eq_of_cons_eq h)
          have hword := isWord_toDigits (by decide : 1 < 16) (Nat.le_refl 16)
          obtain ⟨hdigits, hrest⟩ := (hword _).append_cancel (hword _) (by decide)
            (List.tail_eq_of_cons_eq hbraces)
          have hnumber := toDigits_injective (by decide) (Nat.le_refl 16) hdigits
          exact ⟨Char.toNat_inj.mp hnumber, hrest⟩

theorem ne_quote_cons (hu : Escaped c u) : '"' :: s ≠ u ++ t := by
  intro h
  cases hu with
  | plain _ hquote => exact hquote (List.head_eq_of_cons_eq h).symm
  | mark => exact absurd (List.head_eq_of_cons_eq h) (by decide)
  | number => exact absurd (List.head_eq_of_cons_eq h) (by decide)

end Escaped

/-- Quoted text ends where it says: what is quoted and what comes behind can be told apart. -/
theorem quoted_append_cancel {cs ds s t : List Char} (h : quoted cs ++ s = quoted ds ++ t) :
    cs = ds ∧ s = t := by
  have hinner : cs.flatMap escape ++ '"' :: s = ds.flatMap escape ++ '"' :: t := by
    simpa [quoted] using h
  clear h
  induction cs generalizing ds with
  | nil =>
      cases ds with
      | nil => exact ⟨rfl, List.tail_eq_of_cons_eq hinner⟩
      | cons d ds =>
          rw [List.flatMap_cons, List.append_assoc] at hinner
          exact absurd hinner (escaped_escape d).ne_quote_cons
  | cons c cs ih =>
      rw [List.flatMap_cons, List.append_assoc] at hinner
      cases ds with
      | nil => exact absurd hinner.symm (escaped_escape c).ne_quote_cons
      | cons d ds =>
          rw [List.flatMap_cons, List.append_assoc] at hinner
          obtain ⟨rfl, hbehind⟩ := (escaped_escape c).append_cancel (escaped_escape d) hinner
          obtain ⟨rfl, hrest⟩ := ih hbehind
          exact ⟨rfl, hrest⟩

end Escapes

section Controls

/-- No character of the text is a control. -/
def Visible (cs : List Char) : Prop :=
  ∀ c ∈ cs, isControl c = false

instance (cs : List Char) : Decidable (Visible cs) :=
  List.decidableBAll (fun c => isControl c = false) cs

theorem visible_append {a b : List Char} (ha : Visible a) (hb : Visible b) : Visible (a ++ b) :=
  List.forall_mem_append.mpr ⟨ha, hb⟩

theorem visible_cons {c : Char} {cs : List Char} (hc : isControl c = false) (hcs : Visible cs) :
    Visible (c :: cs) :=
  List.forall_mem_cons.mpr ⟨hc, hcs⟩

theorem isControl_eq_false_iff {c : Char} :
    isControl c = false ↔ ¬ c.toNat ≤ 0x1F ∧ ¬ (0x7F ≤ c.toNat ∧ c.toNat ≤ 0x9F) := by
  simp only [isControl, Bool.or_eq_false_iff, decide_eq_false_iff_not, Bool.and_eq_false_imp,
    decide_eq_true_eq]
  omega

theorem isControl_of_isAlphanum {c : Char} (h : c.isAlphanum = true) : isControl c = false := by
  delta Char.isAlphanum Char.isAlpha Char.isUpper Char.isLower Char.isDigit at h
  simp only [Char.reduceVal, ge_iff_le, UInt32.le_iff_toNat_le, UInt32.reduceToNat,
    Char.toNat_val, Bool.or_eq_true, Bool.and_eq_true, decide_eq_true_eq] at h
  rw [isControl_eq_false_iff]
  omega

theorem IsWord.visible {cs : List Char} (h : IsWord cs) : Visible cs :=
  fun c hc => isControl_of_isAlphanum (h c hc)

theorem Escaped.visible {c : Char} {u : List Char} (h : Escaped c u) : Visible u := by
  cases h with
  | plain _ _ hcontrol => exact List.forall_mem_singleton.mpr hcontrol
  | mark hm => exact visible_cons (by decide) (List.forall_mem_singleton.mpr (isControl_marks _ hm))
  | number =>
      have hdigits := (isWord_toDigits (by decide) (Nat.le_refl 16) c.toNat).visible
      exact visible_append (visible_append (by decide) hdigits) (by decide)

theorem visible_quoted (cs : List Char) : Visible (quoted cs) := by
  refine visible_cons (by decide) (visible_append ?_ (by decide))
  intro x hx
  obtain ⟨c, -, hx⟩ := List.mem_flatMap.mp hx
  exact (escaped_escape c).visible x hx

end Controls

end Text

namespace Kind

theorem isWord_name (k : Kind) : Text.IsWord k.name.toList := by
  intro c hc
  have hletter := List.all_eq_true.mp (tables.name_letters k (mem_all k)) c hc
  rw [Char.isAlphanum, hletter, Bool.true_or]

theorem name_injective {j k : Kind} (h : j.name = k.name) : j = k := by
  have hj := tables.named j (mem_all j)
  rw [h, tables.named k (mem_all k)] at hj
  exact (Option.some.inj hj).symm

end Kind

namespace Position

theorem toList_display (p : Position) : p.display.toList =
    'L' :: (Nat.toDigits 10 p.line ++ ',' :: ' ' :: 'C' :: Nat.toDigits 10 p.column) := by
  simp [display]

theorem display_append_ne_quoted {p : Position} {cs s t : List Char} :
    p.display.toList ++ s ≠ Text.quoted cs ++ t := by
  rw [toList_display]
  intro h
  exact absurd (List.head_eq_of_cons_eq h) (by decide)

theorem display_append_cancel {p q : Position} {s t : List Char}
    (h : p.display.toList ++ ')' :: s = q.display.toList ++ ')' :: t) : p = q := by
  have hword := Text.isWord_toDigits (by decide : 1 < 10) (by decide)
  simp only [toList_display, List.cons_append, List.append_assoc] at h
  obtain ⟨hline, hrest⟩ :=
    (hword _).append_cancel (hword _) (by decide) (List.tail_eq_of_cons_eq h)
  obtain ⟨hcolumn, -⟩ := (hword _).append_cancel (hword _) (by decide)
    (List.tail_eq_of_cons_eq (List.tail_eq_of_cons_eq hrest))
  have hline := Text.toDigits_injective (by decide) (by decide) hline
  have hcolumn := Text.toDigits_injective (by decide) (by decide) hcolumn
  cases p
  cases q
  congr

theorem visible_display (p : Position) : Text.Visible p.display.toList := by
  have hdigits : ∀ n, Text.Visible (Nat.toDigits 10 n) :=
    fun n => (Text.isWord_toDigits (by decide) (by decide) n).visible
  rw [toList_display]
  exact Text.visible_cons (by decide) (Text.visible_append (hdigits _)
    (Text.visible_append (show Text.Visible [',', ' ', 'C'] by decide) (hdigits _)))

end Position

namespace Token

/-- What stands behind the name of the kind in the line of a token. -/
def behindName : Option Bytes → Position → List Char
  | none, p => p.display.toList ++ [')']
  | some bs, p => Text.quoted (Utf8.lossy bs) ++ ',' :: ' ' :: (p.display.toList ++ [')'])

theorem toList_display (t : Token) : t.display.toList =
    '(' :: (t.kind.name.toList ++ ',' :: ' ' :: behindName t.literal t.start) := by
  rcases t with ⟨k, _ | bs, start, stop⟩
  · simp [display, displayLiteral, behindName]
  · simp [display, displayLiteral, behindName]

theorem behindName_injective {a b : Option Bytes} {p q : Position}
    (ha : ∀ bs ∈ a, Utf8.Valid bs) (hb : ∀ bs ∈ b, Utf8.Valid bs)
    (h : behindName a p = behindName b q) : a = b ∧ p = q := by
  rcases a with _ | a
  · rcases b with _ | b
    · exact ⟨rfl, Position.display_append_cancel h⟩
    · exact absurd h Position.display_append_ne_quoted
  · rcases b with _ | b
    · exact absurd h.symm Position.display_append_ne_quoted
    · obtain ⟨cs, rfl⟩ := ha a rfl
      obtain ⟨ds, rfl⟩ := hb b rfl
      rw [behindName, behindName, Utf8.lossy_encode, Utf8.lossy_encode] at h
      obtain ⟨rfl, hrest⟩ := Text.quoted_append_cancel h
      have hposition := List.tail_eq_of_cons_eq (List.tail_eq_of_cons_eq hrest)
      exact ⟨rfl, Position.display_append_cancel hposition⟩

theorem visible_behindName (a : Option Bytes) (p : Position) :
    Text.Visible (behindName a p) := by
  have hposition : Text.Visible (p.display.toList ++ [')']) :=
    Text.visible_append (Position.visible_display p) (by decide)
  rcases a with _ | bs
  · exact hposition
  · rw [behindName]
    exact Text.visible_append (Text.visible_quoted _)
      (Text.visible_cons (by decide) (Text.visible_cons (by decide) hposition))

theorem visible_display (t : Token) : Text.Visible t.display.toList := by
  rw [toList_display]
  have hbehind := visible_behindName t.literal t.start
  exact Text.visible_cons (by decide) (Text.visible_append (Kind.isWord_name t.kind).visible
    (Text.visible_cons (by decide) (Text.visible_cons (by decide) hbehind)))

/-- The line of a token says its kind, its literal and its start, and it is one line: whatever the
bytes of the literal are, it has no control. -/
theorem display_unambiguous :
    (∀ t u : Token, (∀ bs ∈ t.literal, Utf8.Valid bs) → (∀ bs ∈ u.literal, Utf8.Valid bs) →
      t.display = u.display → t.kind = u.kind ∧ t.literal = u.literal ∧ t.start = u.start) ∧
    ∀ t : Token, '\n' ∉ t.display.toList ∧
      ∀ c ∈ t.display.toList, ¬ c.toNat ≤ 0x1F ∧ ¬ (0x7F ≤ c.toNat ∧ c.toNat ≤ 0x9F) := by
  constructor
  · intro t u ht hu h
    have hlist := congrArg String.toList h
    rw [toList_display, toList_display] at hlist
    obtain ⟨hname, hbehind⟩ := (Kind.isWord_name _).append_cancel (Kind.isWord_name _) (by decide)
      (List.tail_eq_of_cons_eq hlist)
    have hkind := Kind.name_injective (String.toList_injective hname)
    exact ⟨hkind, behindName_injective ht hu (List.tail_eq_of_cons_eq hbehind)⟩
  · intro t
    constructor
    · intro hfeed
      exact absurd (visible_display t '\n' hfeed) (by decide)
    · intro c hc
      exact Text.isControl_eq_false_iff.mp (visible_display t c hc)

theorem display_unambiguous_quote :
    (withLiteral .stringLit (Bytes.ofString "\"é\n") ⟨2, 3⟩ ⟨2, 8⟩).display =
      (withLiteral .stringLit [0x22, 0xC3, 0xA9, 0x0A] ⟨2, 3⟩ ⟨3, 1⟩).display ∧
    some (Bytes.ofString "\"é\n") = some [0x22, 0xC3, 0xA9, 0x0A] ∧
    '\n' ∉ (withLiteral .stringLit [0x22, 0xC3, 0xA9, 0x0A] ⟨2, 3⟩ ⟨3, 1⟩).display.toList ∧
    'é' ∈ (withLiteral .stringLit [0x22, 0xC3, 0xA9, 0x0A] ⟨2, 3⟩ ⟨3, 1⟩).display.toList ∧
    ¬ 'é'.toNat ≤ 0x1F ∧ ¬ (0x7F ≤ 'é'.toNat ∧ 'é'.toNat ≤ 0x9F) := by
  have hdisplay : (withLiteral .stringLit (Bytes.ofString "\"é\n") ⟨2, 3⟩ ⟨2, 8⟩).display =
      (withLiteral .stringLit [0x22, 0xC3, 0xA9, 0x0A] ⟨2, 3⟩ ⟨3, 1⟩).display := by
    decide +kernel
  have hstring : ∀ bs ∈ some (Bytes.ofString "\"é\n"), Utf8.Valid bs := by
    rintro bs ⟨⟩
    exact ⟨['"', 'é', '\n'], by decide +kernel⟩
  have hbytes : ∀ bs ∈ some [0x22, 0xC3, 0xA9, 0x0A], Utf8.Valid bs := by
    rintro bs ⟨⟩
    exact ⟨['"', 'é', '\n'], by decide +kernel⟩
  have hmem : 'é' ∈
      (withLiteral .stringLit [0x22, 0xC3, 0xA9, 0x0A] ⟨2, 3⟩ ⟨3, 1⟩).display.toList := by
    decide +kernel
  obtain ⟨-, hliteral, -⟩ := display_unambiguous.1 _ _ hstring hbytes hdisplay
  obtain ⟨hfeed, hcontrol⟩ := display_unambiguous.2
    (withLiteral .stringLit [0x22, 0xC3, 0xA9, 0x0A] ⟨2, 3⟩ ⟨3, 1⟩)
  exact ⟨hdisplay, hliteral, hfeed, hmem, hcontrol 'é' hmem⟩

end Token

end StatementLexer
