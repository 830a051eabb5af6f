import StatementLexer.Proofs.TomlAssignment
import StatementLexer.Toml.Record

namespace StatementLexer.Toml

theorem Scalar.reads_text (v : Scalar) : Reads v.text.toList v.value? := by
  cases v with
  | boolean b => exact reads_boolean b
  | natural n => exact reads_integer n

/-- The entries of a document of assignments, unless one of them is out of range. -/
def entries? : List (String × Scalar) → Option Entries
  | [] => some []
  | (key, v) :: as =>
      v.value?.bind fun value => (entries? as).map ((key.toList, .value value) :: ·)

theorem lines_written {as : List (String × Scalar)} {text : List Char} (h : Written as text)
    (hkeys : (as.map Prod.fst).Nodup) {es : Entries}
    (hnew : ∀ a ∈ as, es.lookup a.1.toList = none) :
    Document.lines ⟨es, []⟩ text = (entries? as).map fun new => ⟨es ++ new, []⟩ := by
  induction h generalizing es with
  | nil =>
      rw [Document.lines]
      simp [skipBlanks, entries?]
  | @cons key v as line ending next hkey hline hending hnext ih =>
      obtain ⟨hkey', hkeys⟩ := List.nodup_cons.mp hkeys
      obtain ⟨ha, has⟩ := List.forall_mem_cons.mp hnew
      rw [Document.lines_assigns hkey ha v.reads_text hline hending, entries?]
      rcases v.value? with _ | value
      · rfl
      · have hrest : ∀ b ∈ as,
            (es ++ [(key.toList, Item.value value)]).lookup b.1.toList = none := by
          intro b hb
          have hne : b.1.toList ≠ key.toList := by
            intro heq
            exact hkey' (List.mem_map.mpr ⟨b, hb, String.toList_injective heq⟩)
          rw [List.lookup_append, has b hb, List.lookup_cons, beq_false_of_ne hne]
          rfl
        rw [Option.bind_some, Option.bind_some, ih hkeys hrest, Option.map_map]
        congr 1
        funext new
        simp

theorem read_written {as : List (String × Scalar)} {text : List Char} (h : Written as text)
    (hkeys : (as.map Prod.fst).Nodup) : read text = entries? as := by
  have hmark : skipMark text = text := by
    cases h with
    | nil => rfl
    | cons hkey hline hending hnext => exact skipMark_assigns hkey hline _
  have hlines := @lines_written as text h hkeys [] fun a _ => rfl
  rw [read, hmark, Document.start, hlines, Option.map_map]
  exact Option.map_id'

theorem table_cons (key : String) (v : Value) (es : Entries) :
    Entries.table ((key.toList, .value v) :: es) = es.table.set key v := by
  funext k
  rw [Entries.table, List.lookup_cons]
  rcases eq_or_ne k key with rfl | hne
  · rw [beq_self_eq_true, Table.set_self]
    rfl
  · rw [beq_false_of_ne fun heq => hne (String.toList_injective heq), Table.set_of_ne hne]
    rfl

theorem decode_cons {t : Table} {f : Field} {d : Datum} (h : f.Gets t d) (fs : List Field) :
    decode (f :: fs) t = (decode fs t).map (d :: ·) := by
  rw [decode]
  cases h with
  | absent h =>
      rw [h]
      rfl
  | flag h =>
      rw [h]
      rfl
  | limit h =>
      rw [h]
      rfl

theorem exists_line (key value : String) :
    ∃ cs, Assigns key.toList value.toList cs ∧
      ∀ text, line key value ++ text = String.ofList (cs ++ '\n' :: text.toList) := by
  have hspace : AllBlank [' '] := List.forall_mem_singleton.mpr rfl
  have hnil : AllBlank [] := List.forall_mem_nil _
  refine ⟨_, .line hnil hspace hspace hnil, ?_⟩
  intro text
  apply String.toList_injective
  simp [line]

theorem write_cons {d : Datum} {v : Scalar} (h : d.scalar? = some v) (key : String)
    (ds : List (String × Datum)) :
    write ((key, d) :: ds) =
      if v.value?.isSome then (write ds).map (line key v.text ++ ·)
      else .error "out-of-range value for u64 type" := by
  rcases d with b | _ | n
  · cases h
    rfl
  · cases h
  · cases h
    rw [write, Scalar.value?, limitBound]
    split <;> rfl

/-- The documents that are read and written here keep records as documented. -/
theorem documented_codec : codec.Documented where
  read_nil := by
    change (read []).map _ = _
    rw [read_written .nil List.nodup_nil]
    rfl
  read_assigns {key v as line ending next} hkey hline hending hnext hkeys := by
    have hwritten := Written.cons hkey hline hending hnext
    change (read _).map _ = Option.bind _ fun value => ((read next).map _).map _
    rw [read_written hwritten hkeys, read_written hnext (List.nodup_cons.mp hkeys).2, entries?]
    rcases v.value? with _ | value
    · rfl
    · simp only [Option.bind_some, Option.map_map]
      congr 1
      funext es
      exact table_cons key value es
  decode_nil _ := rfl
  decode_cons := decode_cons
  write_nil := rfl
  write_absent _ _ := rfl
  write_scalar {key d v ds text} _ _ hd hv htext := by
    obtain ⟨cs, hline, heq⟩ := exists_line key v.text
    refine ⟨cs, hline, ?_⟩
    change write _ = _
    rw [write_cons hd, if_pos hv, show write ds = .ok text from htext, ← heq]
    rfl
  write_outOfRange {d v} hd hv key ds := by
    refine ⟨_, (write_cons hd key ds).trans (if_neg ?_)⟩
    simp [hv]
  write_error {ds reason} h key d := by
    rcases hscalar : d.scalar? with _ | v
    · obtain rfl := Datum.eq_of_scalar?_eq_none hscalar
      exact ⟨reason, h⟩
    · change ∃ reason', write _ = _
      rw [write_cons hscalar, show write ds = .error reason from h]
      split <;> exact ⟨_, rfl⟩

end StatementLexer.Toml
