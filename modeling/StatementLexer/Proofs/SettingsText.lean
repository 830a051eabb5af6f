import StatementLexer.Proofs.TomlCodec
import StatementLexer.Settings.Document

namespace StatementLexer.Settings

/-- A setting with the value that a document gives to it. -/
inductive Assignment where
  | insertTerminators (b : Bool)
  | warnUnterminated (b : Bool)
  | maxSourceBytes (n : Nat)
  deriving DecidableEq, Repr

namespace Assignment

def key : Assignment → String
  | .insertTerminators _ => insertTerminatorsKey
  | .warnUnterminated _ => warnUnterminatedKey
  | .maxSourceBytes _ => maxSourceBytesKey

def scalar : Assignment → Toml.Scalar
  | .insertTerminators b => .boolean b
  | .warnUnterminated b => .boolean b
  | .maxSourceBytes n => .natural n

def entry (a : Assignment) : String × Toml.Scalar := (a.key, a.scalar)

def apply (s : Settings) : Assignment → Settings
  | .insertTerminators b => { s with insertTerminators := b }
  | .warnUnterminated b => { s with warnUnterminated := b }
  | .maxSourceBytes n => { s with maxSourceBytes := some n }

end Assignment

/-- The settings with the values assigned, and the defaults where none is. -/
def assigned : List Assignment → Settings
  | [] => {}
  | a :: as => a.apply (assigned as)

/-- A text of assignments, each on a line of its own. -/
def Written (as : List Assignment) (text : List Char) : Prop :=
  Toml.Written (as.map Assignment.entry) text

theorem bare_key {key : String} (h : key ∈ fields.map Field.key) : Toml.Bare key.toList := by
  have hkeys : ∀ key ∈ fields.map Field.key,
      key.toList ≠ [] ∧ key.toList.all Toml.isBareKey = true := by
    decide
  obtain ⟨hne, hbare⟩ := hkeys key h
  exact ⟨hne, List.all_eq_true.mp hbare⟩

theorem ofData?_data (s : Settings) : ofData? s.data = some s := rfl

theorem gets_fields {as : List Assignment} {t : Toml.Table}
    (h : Toml.table? (as.map Assignment.entry) = some t) :
    List.Forall₂ (Field.Gets t) fields (assigned as).data := by
  have hinsertWarn : insertTerminatorsKey ≠ warnUnterminatedKey := by decide
  have hinsertMax : insertTerminatorsKey ≠ maxSourceBytesKey := by decide
  have hwarnMax : warnUnterminatedKey ≠ maxSourceBytesKey := by decide
  simp only [fields, data, List.forall₂_cons, List.forall₂_nil_left_iff, and_true]
  induction as generalizing t with
  | nil =>
      cases h
      exact ⟨.absent rfl, .absent rfl, .absent rfl⟩
  | cons a as ih =>
      obtain ⟨v, hv, hrest⟩ := Option.bind_eq_some_iff.mp h
      obtain ⟨t, ht, rfl⟩ := Option.map_eq_some_iff.mp hrest
      obtain ⟨hinsert, hwarn, hmax⟩ := ih ht
      cases a with
      | insertTerminators b =>
          cases hv
          exact ⟨.flag (t.set_self _ _), hwarn.set_of_ne hinsertWarn.symm _,
            hmax.set_of_ne hinsertMax.symm _⟩
      | warnUnterminated b =>
          cases hv
          exact ⟨hinsert.set_of_ne hinsertWarn _, .flag (t.set_self _ _),
            hmax.set_of_ne hwarnMax.symm _⟩
      | maxSourceBytes n =>
          obtain ⟨-, hv⟩ := Option.ite_none_right_eq_some.mp hv
          cases hv
          exact ⟨hinsert.set_of_ne hinsertMax _, hwarn.set_of_ne hwarnMax _,
            .limit (t.set_self _ _)⟩

theorem exists_outOfRange_iff {as : List Assignment} :
    (∃ a ∈ as.map Assignment.entry, a.2.value? = none) ↔
      ∃ n, .maxSourceBytes n ∈ as ∧ 0x8000000000000000 ≤ n := by
  constructor
  · rintro ⟨e, hmem, hvalue⟩
    obtain ⟨a, ha, rfl⟩ := List.mem_map.mp hmem
    cases a with
    | insertTerminators b => cases hvalue
    | warnUnterminated b => cases hvalue
    | maxSourceBytes n =>
        refine ⟨n, ha, ?_⟩
        simpa [Assignment.entry, Assignment.scalar, Toml.Scalar.value?] using hvalue
  · rintro ⟨n, hmem, hn⟩
    exact ⟨_, List.mem_map_of_mem hmem, if_neg (Nat.not_lt.mpr hn)⟩

/-- What is written for settings: every switch, and a limit if there is one. -/
def assignments (s : Settings) : List Assignment :=
  [.insertTerminators s.insertTerminators, .warnUnterminated s.warnUnterminated] ++
    (s.maxSourceBytes.map .maxSourceBytes).toList

theorem mem_assignments {s : Settings} {n : Nat} :
    .maxSourceBytes n ∈ s.assignments ↔ s.maxSourceBytes = some n := by
  simp [assignments]

theorem assigned_assignments (s : Settings) : assigned s.assignments = s := by
  obtain ⟨insertTerminators, warnUnterminated, _ | n⟩ := s <;> rfl

theorem scalars_data (s : Settings) :
    Codec.scalars ((fields.map Field.key).zip s.data) = s.assignments.map Assignment.entry := by
  obtain ⟨insertTerminators, warnUnterminated, _ | n⟩ := s <;> rfl

theorem nodup_keys_assignments (s : Settings) : (s.assignments.map Assignment.key).Nodup := by
  obtain ⟨insertTerminators, warnUnterminated, _ | n⟩ := s
  · change [insertTerminatorsKey, warnUnterminatedKey].Nodup
    decide
  · change [insertTerminatorsKey, warnUnterminatedKey, maxSourceBytesKey].Nodup
    decide

section Codec

variable {codec : Codec} (h : codec.Documented)

include h

theorem read_written {as : List Assignment} {text : List Char} (hwritten : Written as text)
    (hkeys : (as.map Assignment.key).Nodup) :
    codec.read text = Toml.table? (as.map Assignment.entry) := by
  apply h.read_written hwritten
  rwa [List.map_map]

theorem parse_written {as : List Assignment} {text : List Char} (hwritten : Written as text)
    (hkeys : (as.map Assignment.key).Nodup)
    (hlimit : ∀ n, .maxSourceBytes n ∈ as → n ≤ 0x7FFFFFFFFFFFFFFF) :
    parse text codec = .ok (assigned as) := by
  rcases ht : Toml.table? (as.map Assignment.entry) with _ | t
  · obtain ⟨n, hmem, hn⟩ := exists_outOfRange_iff.mp (Toml.table?_eq_none_iff.mp ht)
    have hle := hlimit n hmem
    omega
  · rw [parse, read_written h hwritten hkeys, ht, Option.bind_some,
      h.decode_of_forall₂ (gets_fields ht), Option.bind_some, ofData?_data]

theorem parse_written_outOfRange {as : List Assignment} {text : List Char}
    (hwritten : Written as text) (hkeys : (as.map Assignment.key).Nodup) {n : Nat}
    (hmem : .maxSourceBytes n ∈ as) (hn : 0x8000000000000000 ≤ n) :
    parse text codec = .error .malformed := by
  have hnone := Toml.table?_eq_none_iff.mpr (exists_outOfRange_iff.mpr ⟨n, hmem, hn⟩)
  rw [parse, read_written h hwritten hkeys, hnone, Option.bind_none, Option.bind_none]

theorem render_cases (s : Settings) :
    (∃ text, s.render codec = .ok text ∧ Written s.assignments text.toList ∧
      ∀ n, s.maxSourceBytes = some n → n ≤ 0x7FFFFFFFFFFFFFFF) ∨
    (∃ e, s.render codec = .error e) ∧ ∃ n, s.maxSourceBytes = some n ∧ 0x8000000000000000 ≤ n := by
  have hbare : ∀ d ∈ (fields.map Field.key).zip s.data, Toml.Bare d.1.toList := fun d hd =>
    bare_key (List.of_mem_zip hd).1
  have hkeys : (((fields.map Field.key).zip s.data).map Prod.fst).Nodup := by
    change (fields.map Field.key).Nodup
    decide
  rcases h.write_cases hbare hkeys with ⟨text, htext, hwritten, hrange⟩ | ⟨⟨reason, hreason⟩, hout⟩
  · rw [scalars_data] at hwritten hrange
    have hrender : s.render codec = .ok text := by
      rw [render, htext]
      rfl
    refine .inl ⟨text, hrender, hwritten, ?_⟩
    intro n hn
    by_contra hlarge
    obtain ⟨a, ha, hnone⟩ :=
      exists_outOfRange_iff.mpr ⟨n, mem_assignments.mpr hn, show 0x8000000000000000 ≤ n by omega⟩
    have hsome := hrange a ha
    rw [hnone] at hsome
    cases hsome
  · rw [scalars_data, exists_outOfRange_iff] at hout
    obtain ⟨n, hn, hlarge⟩ := hout
    refine .inr ⟨⟨.unwritable reason, ?_⟩, n, mem_assignments.mp hn, hlarge⟩
    rw [render, hreason]
    rfl

theorem exists_render_iff {s : Settings} :
    (∃ text, s.render codec = .ok text) ↔
      ∀ n, s.maxSourceBytes = some n → n ≤ 0x7FFFFFFFFFFFFFFF := by
  rcases render_cases h s with ⟨text, htext, -, hlimit⟩ | ⟨⟨e, herror⟩, n, hmax, hn⟩
  · exact ⟨fun _ => hlimit, fun _ => ⟨text, htext⟩⟩
  · constructor
    · rintro ⟨text, htext⟩
      rw [herror] at htext
      cases htext
    · intro hlimit
      have hle := hlimit n hmax
      omega

theorem parse_render {s : Settings} {text : String} (hrender : s.render codec = .ok text) :
    parse text.toList codec = .ok s := by
  rcases render_cases h s with ⟨text', htext, hwritten, hlimit⟩ | ⟨⟨e, herror⟩, -⟩
  · rw [hrender] at htext
    cases htext
    rw [parse_written h hwritten (nodup_keys_assignments s), assigned_assignments]
    exact fun n hmem => hlimit n (mem_assignments.mp hmem)
  · rw [herror] at hrender
    cases hrender

end Codec

/-- Settings can be written exactly if their limit has 63 bits at most, and are read back from what
is written. Whatever lines assign to different settings, in whatever order, is read as it stands,
with the defaults for the other settings, unless a limit is out of range. -/
theorem parse_inverts_render {codec : Codec} (h : codec.Documented) :
    (∀ s : Settings,
      ((∃ text, s.render codec = .ok text) ↔
        ∀ n, s.maxSourceBytes = some n → n ≤ 0x7FFFFFFFFFFFFFFF) ∧
      ∀ text, s.render codec = .ok text → parse text.toList codec = .ok s) ∧
    ∀ (as : List Assignment) (text : List Char), Written as text →
      (as.map Assignment.key).Nodup →
        ((∀ n, .maxSourceBytes n ∈ as → n ≤ 0x7FFFFFFFFFFFFFFF) →
          parse text codec = .ok (assigned as)) ∧
        ∀ n, .maxSourceBytes n ∈ as → 0x8000000000000000 ≤ n →
          parse text codec = .error .malformed := by
  refine ⟨fun s => ⟨exists_render_iff h, fun text => parse_render h⟩, ?_⟩
  intro as text hwritten hkeys
  refine ⟨parse_written h hwritten hkeys, ?_⟩
  intro n
  exact parse_written_outOfRange h hwritten hkeys

theorem parse_inverts_render_reordered :
    let text := "max_source_bytes\t=9223372036854775807 \r\ninsert_terminators = false".toList
    let large := "max_source_bytes = 9223372036854775808".toList
    Toml.codec.Documented ∧
      Written [.maxSourceBytes 9223372036854775807, .insertTerminators false] text ∧
      parse text =
        .ok { insertTerminators := false, maxSourceBytes := some 9223372036854775807 } ∧
      Written [.maxSourceBytes 9223372036854775808] large ∧
      parse large = .error .malformed ∧
      (∃ text, render { maxSourceBytes := some 9223372036854775807 } = .ok text) ∧
      ¬ ∃ text, render { maxSourceBytes := some 9223372036854775808 } = .ok text := by
  intro text large
  have hnil : Toml.AllBlank [] := List.forall_mem_nil _
  have hspace : Toml.AllBlank [' '] := List.forall_mem_singleton.mpr rfl
  have htab : Toml.AllBlank ['\t'] := List.forall_mem_singleton.mpr rfl
  have hinsert : Written [.insertTerminators false] _ :=
    .cons (bare_key (by decide)) (.line hnil hspace hspace hnil) .last .nil
  have hboth : Written [.maxSourceBytes 9223372036854775807, .insertTerminators false] text :=
    .cons (bare_key (by decide)) (.line hnil htab hnil hspace) (.returnFeed _) hinsert
  have hlarge : Written [.maxSourceBytes 9223372036854775808] large :=
    .cons (bare_key (by decide)) (.line hnil hspace hspace hnil) .last .nil
  obtain ⟨hrender, hparse⟩ := parse_inverts_render Toml.documented_codec
  refine ⟨Toml.documented_codec, hboth, (hparse _ _ hboth (by decide)).1 ?_, hlarge,
    (hparse _ _ hlarge (by decide)).2 9223372036854775808 List.mem_cons_self (Nat.le_refl _),
    (hrender _).1.mpr ?_, mt (hrender _).1.mp ?_⟩
  · intro n hmem
    obtain rfl : n = 9223372036854775807 := by simpa using hmem
    exact Nat.le_refl _
  · rintro n ⟨⟩
    exact Nat.le_refl _
  · intro hlimit
    exact absurd (hlimit _ rfl) (by decide)

end StatementLexer.Settings
