import Mathlib.Data.List.Induction
import StatementLexer.FileTree.Access

/-!
What a file tree holds, place by place, and what the ways of changing it leave alone. A place holds
a file with its data, a directory or nothing, and is told apart from what lies below it: to put a
node somewhere then changes one place (`item?_put`). Creating directories adds directories on the
way of the path, whether it succeeds or not (`untouched_createDirectories`). Writing changes the
place that the steps of the path lead to (`write_eq_ok`), and what is written is found there
(`Writable.find_eq`).
-/

namespace StatementLexer.FileTree

/-- What a place holds. -/
inductive Item where
  | file (data : Bytes)
  | directory
  deriving DecidableEq, Repr

def Node.item : Node → Item
  | .file data => .file data
  | .directory _ => .directory

def item? (t : FileTree) (place : Place) : Option Item :=
  (t.node? place).map Node.item

/-- What is below a node. A file has nothing below it. -/
def Node.item? : Node → Place → Option Item
  | .file data, [] => some (.file data)
  | .file _, _ :: _ => none
  | .directory inside, names => inside.item? names

section Items

variable {t : FileTree} {here place : Place} {name : String} {node : Node}

@[simp] theorem item?_nil (t : FileTree) : t.item? [] = some .directory := by
  simp [item?, node?, Node.item]

@[simp] theorem Node.item?_nil (node : Node) : node.item? [] = some node.item := by
  cases node with
  | file data => rfl
  | directory inside => exact FileTree.item?_nil inside

theorem item?_cons (t : FileTree) (name : String) (names : Place) :
    t.item? (name :: names) = (t.child? name).bind (·.item? names) := by
  rcases h : t.child? name with _ | data | inside
  · simp [item?, node?, h]
  · cases names <;> simp [item?, node?, h, Node.item?, Node.item]
  · simp [item?, node?, h, Node.item?]

theorem item?_eq_directory_iff :
    t.item? place = some .directory ↔ ∃ inside, t.node? place = some (.directory inside) := by
  constructor
  · intro h
    obtain ⟨data | inside, hnode, hitem⟩ := Option.map_eq_some_iff.mp h
    · cases hitem
    · exact ⟨inside, hnode⟩
  · rintro ⟨inside, hnode⟩
    simp [item?, hnode, Node.item]

theorem node?_eq_file {data : Bytes} (h : t.item? place = some (.file data)) :
    t.node? place = some (.file data) := by
  obtain ⟨_ | _, hnode, hitem⟩ := Option.map_eq_some_iff.mp h
  · cases hitem
    exact hnode
  · cases hitem

theorem directory_of_isSome_append {names : Place} (hnames : names ≠ [])
    (h : (t.item? (here ++ names)).isSome) : t.item? here = some .directory := by
  induction here generalizing t with
  | nil => exact item?_nil t
  | cons first here ih =>
      rw [List.cons_append, item?_cons] at h
      rw [item?_cons]
      rcases hchild : t.child? first with _ | data | inside
      · simp [hchild] at h
      · obtain ⟨second, rest, hrest⟩ :=
          List.exists_cons_of_ne_nil (List.append_ne_nil_of_right_ne_nil here hnames)
        simp [hchild, hrest, Node.item?] at h
      · rw [hchild] at h
        exact ih h

theorem directory_dropLast (h : t.item? here = some .directory) :
    t.item? here.dropLast = some .directory := by
  rcases here.eq_nil_or_concat with rfl | ⟨above, name, rfl⟩
  · exact h
  · rw [List.concat_eq_append] at h ⊢
    rw [List.dropLast_concat]
    exact directory_of_isSome_append (List.cons_ne_nil _ _) (Option.isSome_of_eq_some h)

theorem exists_inside {first : String} {inside : FileTree}
    (h : t.node? (first :: here) = some (.directory inside)) :
    ∃ mid, t.child? first = some (.directory mid) ∧ mid.node? here = some (.directory inside) := by
  rcases hchild : t.child? first with _ | data | mid
  · simp [node?, hchild] at h
  · cases here <;> simp [node?, hchild] at h
  · exact ⟨mid, rfl, by simpa [node?, hchild] using h⟩

theorem item?_append {inside : FileTree} (h : t.node? here = some (.directory inside))
    (names : Place) : t.item? (here ++ names) = inside.item? names := by
  induction here generalizing t with
  | nil =>
      cases h
      rfl
  | cons first here ih =>
      obtain ⟨mid, hchild, hmid⟩ := exists_inside h
      rw [List.cons_append, item?_cons, hchild]
      exact ih hmid

theorem child?_putChild (t : FileTree) (name other : String) (node : Node) :
    (t.putChild name node).child? other = if name = other then some node else t.child? other := by
  have hcons : ∀ others : FileTree, (cons name node others).child? other =
      if name = other then some node else others.child? other := by
    intro others
    cases node <;> rfl
  induction t with
  | empty => exact hcons .empty
  | file first data others ih => grind [putChild, child?]
  | directory first inside others _ ih => grind [putChild, child?]

theorem put_cons {first : String} {inside : FileTree}
    (h : t.child? first = some (.directory inside)) (hplace : place ≠ []) :
    t.put (first :: place) node = t.putChild first (.directory (inside.put place node)) := by
  obtain ⟨second, place, rfl⟩ := List.exists_cons_of_ne_nil hplace
  simp only [put, h]

/-- A node with nothing below it, put into a directory where there is none of its name, changes its
own place and no other. -/
theorem item?_put (hhere : t.item? here = some .directory)
    (hfree : t.item? (here ++ [name]) ≠ some .directory)
    (hleaf : ∀ first names, node.item? (first :: names) = none) (place : Place) :
    (t.put (here ++ [name]) node).item? place =
      if place = here ++ [name] then some node.item else t.item? place := by
  induction here generalizing t place with
  | nil =>
      rcases place with _ | ⟨first, names⟩
      · simp
      · rw [List.nil_append, put, item?_cons, child?_putChild]
        by_cases hname : name = first
        · subst first
          rcases names with _ | ⟨second, names⟩
          · simp
          · -- what was there held no directory, so it had as little below it as the new node
            have hnone : t.item? ([name] ++ second :: names) = none := by
              rw [← Option.not_isSome_iff_eq_none]
              exact mt (directory_of_isSome_append (List.cons_ne_nil _ _)) hfree
            simpa [hleaf] using hnone.symm
        · have hne : first :: names ≠ [name] := fun h => hname (List.cons.inj h).1.symm
          rw [if_neg hname, if_neg hne, item?_cons]
  | cons first here ih =>
      obtain ⟨final, hfinal⟩ := item?_eq_directory_iff.mp hhere
      obtain ⟨inside, hchild, hinside⟩ := exists_inside hfinal
      have hfree' : inside.item? (here ++ [name]) ≠ some .directory := by
        rw [List.cons_append, item?_cons, hchild] at hfree
        exact hfree
      have hrest : here ++ [name] ≠ [] :=
        List.append_ne_nil_of_right_ne_nil here (List.cons_ne_nil name [])
      rw [List.cons_append, put_cons hchild hrest]
      rcases place with _ | ⟨second, names⟩
      · simp
      · rw [item?_cons, item?_cons, child?_putChild]
        by_cases hname : first = second
        · subst second
          rw [if_pos rfl, hchild]
          simp [Node.item?, ih (item?_eq_directory_iff.mpr ⟨final, hinside⟩) hfree']
        · have hne : second :: names ≠ first :: (here ++ [name]) :=
            fun h => hname (List.cons.inj h).1.symm
          rw [if_neg hname, if_neg hne]

end Items

/-- Where a step leads by its name alone. -/
def advance (here : Place) (name : String) : Place :=
  if name = "." then here else if name = ".." then here.dropLast else here ++ [name]

/-- Where steps lead from the top by their names alone. -/
def resolve (names : List String) : Place :=
  names.foldl advance []

@[simp] theorem resolve_concat (names : List String) (name : String) :
    resolve (names ++ [name]) = advance (resolve names) name := by
  simp [resolve]

theorem bind_eq_ok {α β ε : Type} {x : Except ε α} {f : α → Except ε β} {b : β}
    (h : (x >>= f) = .ok b) : ∃ a, x = .ok a ∧ f a = .ok b := by
  rcases x with e | a
  · cases h
  · exact ⟨a, rfl, h⟩

section Steps

variable {t t' : FileTree} {here next : Place} {name : String} {names : List String}

theorem directoryAt_eq_ok_iff {inside : FileTree} :
    t.directoryAt here = .ok inside ↔ t.node? here = some (.directory inside) := by
  rw [directoryAt]
  rcases t.node? here with _ | data | inside' <;> simp

theorem item?_child {inside : FileTree} (h : t.node? here = some (.directory inside)) :
    t.item? (here ++ [name]) = (inside.child? name).map Node.item := by
  rw [item?_append h, item?_cons]
  rcases inside.child? name with _ | node
  · rfl
  · exact node.item?_nil

theorem step_of_directory (h : t.item? here = some .directory) : t.step here name =
    if name = "." then .ok here
    else if name = ".." then .ok here.dropLast
    else if Path.maxNameSize < name.utf8ByteSize then .error .nameTooLong
    else if (t.item? (here ++ [name])).isSome then .ok (here ++ [name])
    else .error .notFound := by
  obtain ⟨inside, hinside⟩ := item?_eq_directory_iff.mp h
  rw [step, directoryAt_eq_ok_iff.mpr hinside, item?_child hinside, Option.isSome_map]
  rfl

theorem step_eq_ok_iff : t.step here name = .ok next ↔
    t.item? here = some .directory ∧ (t.item? next).isSome ∧ next = advance here name ∧
      (name = "." ∨ name = ".." ∨ name.utf8ByteSize ≤ Path.maxNameSize) := by
  constructor
  · intro h
    obtain ⟨inside, hinside, -⟩ := bind_eq_ok h
    have hhere := item?_eq_directory_iff.mpr ⟨inside, directoryAt_eq_ok_iff.mp hinside⟩
    have habove := directory_dropLast hhere
    rw [step_of_directory hhere] at h
    grind [advance]
  · rintro ⟨hhere, hnext, rfl, hname⟩
    rw [step_of_directory hhere]
    grind [advance]

theorem step_eq_notFound (hhere : t.item? here = some .directory)
    (h : t.step here name = .error .notFound) :
    advance here name = here ++ [name] ∧ t.item? (here ++ [name]) = none := by
  rw [step_of_directory hhere] at h
  have hne : IoError.nameTooLong ≠ .notFound := by decide
  rw [← Option.not_isSome_iff_eq_none]
  grind [advance]

theorem follow_concat (t : FileTree) (names : List String) (name : String) :
    t.follow (names ++ [name]) = t.follow names >>= (t.step · name) := by
  simp [follow]

theorem follow_eq_ok (h : t.follow names = .ok here) : here = resolve names := by
  induction names using List.reverseRecOn generalizing here with
  | nil =>
      cases h
      rfl
  | append_singleton names name ih =>
      rw [follow_concat] at h
      obtain ⟨above, habove, hstep⟩ := bind_eq_ok h
      rw [resolve_concat, ← ih habove]
      exact (step_eq_ok_iff.mp hstep).2.2.1

/-- Nothing that a path may lead through is lost. -/
structure Keeps (t t' : FileTree) : Prop where
  directory : ∀ place, t.item? place = some .directory → t'.item? place = some .directory
  isSome : ∀ place, (t.item? place).isSome → (t'.item? place).isSome

theorem Keeps.step (hkeeps : Keeps t t') (h : t.step here name = .ok next) :
    t'.step here name = .ok next := by
  obtain ⟨hhere, hnext, hrest⟩ := step_eq_ok_iff.mp h
  exact step_eq_ok_iff.mpr ⟨hkeeps.directory here hhere, hkeeps.isSome next hnext, hrest⟩

theorem Keeps.follow (hkeeps : Keeps t t') (h : t.follow names = .ok here) :
    t'.follow names = .ok here := by
  induction names using List.reverseRecOn generalizing here with
  | nil => exact h
  | append_singleton names name ih =>
      rw [follow_concat] at h ⊢
      obtain ⟨above, habove, hstep⟩ := bind_eq_ok h
      rw [ih habove]
      exact hkeeps.step hstep

end Steps

/-- A place is as it was, unless it was free, is one of those where directories may be created, and
holds a directory now. -/
def Untouched (created : Place → Prop) (t t' : FileTree) (place : Place) : Prop :=
  t'.item? place = t.item? place ∨
    created place ∧ t.item? place = none ∧ t'.item? place = some .directory

/-- A place that some of the steps lead to. -/
def OnTheWay (names : List String) (place : Place) : Prop :=
  ∃ before, before <+: names ∧ place = resolve before

section Changes

variable {created : Place → Prop} {t t' t'' : FileTree} {here place : Place} {name : String}
  {names : List String}

theorem Untouched.trans (h : Untouched created t t' place) (h' : Untouched created t' t'' place) :
    Untouched created t t'' place := by
  rcases h with h | ⟨hcreated, hnone, hdirectory⟩
  · rcases h' with h' | ⟨hcreated, hnone, hdirectory⟩
    · exact .inl (h'.trans h)
    · exact .inr ⟨hcreated, h ▸ hnone, hdirectory⟩
  · rcases h' with h' | ⟨-, hnone', -⟩
    · exact .inr ⟨hcreated, hnone, h'.trans hdirectory⟩
    · rw [hdirectory] at hnone'
      cases hnone'

theorem item?_put_directory (hhere : t.item? here = some .directory)
    (hfree : t.item? (here ++ [name]) = none) (place : Place) :
    (t.put (here ++ [name]) (.directory .empty)).item? place =
      if place = here ++ [name] then some .directory else t.item? place := by
  refine item?_put hhere (by simp [hfree]) ?_ place
  intro first names
  exact item?_cons .empty first names

theorem build_cons (h : t.item? here = some .directory) (name : String) (names : List String) :
    (∃ e, t.build here (name :: names) = (t, .error e)) ∨
    ∃ made : FileTree, made.item? (advance here name) = some .directory ∧
      (∀ place, Untouched (· = advance here name) t made place) ∧
      t.build here (name :: names) = made.build (advance here name) names := by
  rw [build]
  rcases hstep : t.step here name with e | next
  · by_cases hcreate : e = .notFound && (names.isEmpty || names.any (· != "."))
    · have hmissing : e = .notFound := of_decide_eq_true (Bool.and_eq_true_iff.mp hcreate).1
      obtain ⟨hnext, hfree⟩ := step_eq_notFound h (hmissing ▸ hstep)
      have hitem := item?_put_directory h hfree
      -- only a name of its own can be missing, so the step leads to what is created
      rw [hnext]
      refine .inr ⟨_, (hitem _).trans (if_pos rfl), ?_, if_pos hcreate⟩
      intro place
      by_cases hplace : place = here ++ [name]
      · exact .inr ⟨hplace, hplace ▸ hfree, (hitem place).trans (if_pos hplace)⟩
      · exact .inl ((hitem place).trans (if_neg hplace))
    · exact .inl ⟨e, if_neg hcreate⟩
  · obtain ⟨-, hsome, rfl, -⟩ := step_eq_ok_iff.mp hstep
    rw [item?, Option.isSome_map] at hsome
    obtain ⟨data | inside, hnode⟩ := Option.isSome_iff_exists.mp hsome
    · exact .inl ⟨.alreadyExists, by simp only [hnode]⟩
    · exact .inr ⟨t, item?_eq_directory_iff.mpr ⟨inside, hnode⟩, fun _ => .inl rfl,
        by simp only [hnode]⟩

/-- However creating directories ends, it only adds directories where its steps lead. -/
theorem untouched_build (before names : List String)
    (h : t.item? (resolve before) = some .directory) (place : Place) :
    Untouched (OnTheWay (before ++ names)) t (t.build (resolve before) names).1 place := by
  induction names generalizing t before with
  | nil => exact .inl rfl
  | cons name names ih =>
      rcases build_cons h name names with ⟨e, herror⟩ | ⟨made, hnext, hmade, hbuild⟩
      · rw [herror]
        exact .inl rfl
      · have hway : before ++ name :: names = (before ++ [name]) ++ names := by simp
        rw [← resolve_concat] at hnext hmade hbuild
        rw [hbuild, hway]
        refine Untouched.trans ((hmade place).imp_right ?_) (ih (before ++ [name]) hnext)
        rintro ⟨hplace, hitems⟩
        exact ⟨⟨before ++ [name], List.prefix_append _ _, hplace⟩, hitems⟩

theorem untouched_createDirectories (t : FileTree) (p : Path) (place : Place) :
    Untouched (OnTheWay p.steps) t (t.createDirectories p).1 place := by
  rw [createDirectories]
  split
  · split <;> exact .inl rfl
  · split
    · exact untouched_build [] p.steps (item?_nil t) place
    · exact .inl rfl

end Changes

/-- The place that the steps of a path lead to. -/
def Path.place (p : Path) : Place :=
  resolve p.steps

/-- A file can be written at a path: its last step is a name in a directory that is there, and no
directory has this name. -/
structure Writable (t : FileTree) (p : Path) (names : List String) (name : String) : Prop where
  check_eq : p.check = .ok ()
  steps_eq : p.steps = names ++ [name]
  no_slash : p.endsInSlash = false
  follow_eq : t.follow names = .ok (resolve names)
  directory : t.item? (resolve names) = some .directory
  advance_eq : advance (resolve names) name = resolve names ++ [name]
  size_le : name.utf8ByteSize ≤ Path.maxNameSize
  free : t.item? (resolve names ++ [name]) ≠ some .directory

theorem write_eq_ok {t t' : FileTree} {p : Path} {data : Bytes} (h : t.write p data = .ok t') :
    ∃ names name, t.Writable p names name ∧ t' = t.put (resolve names ++ [name]) (.file data) := by
  obtain ⟨_, hcheck, h⟩ := bind_eq_ok h
  rcases p.steps.eq_nil_or_concat with hsteps | ⟨names, name, hsteps⟩
  · simp [hsteps] at h
  · rw [List.concat_eq_append] at hsteps
    simp only [hsteps, List.getLast?_concat, List.dropLast_concat] at h
    obtain ⟨here, hfollow, h⟩ := bind_eq_ok h
    obtain ⟨inside, hinside, h⟩ := bind_eq_ok h
    obtain rfl := follow_eq_ok hfollow
    have hnode := directoryAt_eq_ok_iff.mp hinside
    split_ifs at h with hdots hsize
    obtain ⟨⟨hdot, hdots⟩, hslash⟩ : (name ≠ "." ∧ name ≠ "..") ∧ p.endsInSlash = false := by
      simpa using hdots
    have hput : t.item? (resolve names ++ [name]) ≠ some .directory ∧
        t' = t.put (resolve names ++ [name]) (.file data) := by
      rw [item?_child hnode]
      rcases hchild : inside.child? name with _ | _ | _ <;> simp_all [Node.item]
    exact ⟨names, name,
      { check_eq := hcheck
        steps_eq := hsteps
        no_slash := hslash
        follow_eq := hfollow
        directory := item?_eq_directory_iff.mpr ⟨inside, hnode⟩
        advance_eq := by rw [advance, if_neg hdot, if_neg hdots]
        size_le := Nat.not_lt.mp hsize
        free := hput.1 }, hput.2⟩

namespace Writable

variable {t : FileTree} {p : Path} {names : List String} {name : String}
  (h : t.Writable p names name) (data : Bytes)

include h

theorem place_eq : p.place = resolve names ++ [name] := by
  rw [Path.place, h.steps_eq, resolve_concat, h.advance_eq]

theorem item?_put (place : Place) :
    (t.put (resolve names ++ [name]) (.file data)).item? place =
      if place = p.place then some (.file data) else t.item? place := by
  rw [h.place_eq]
  exact FileTree.item?_put h.directory h.free (fun _ _ => rfl) place

theorem keeps : Keeps t (t.put (resolve names ++ [name]) (.file data)) where
  directory place hplace := by
    rw [h.item?_put, if_neg, hplace]
    rintro rfl
    exact h.free (h.place_eq ▸ hplace)
  isSome place hplace := by
    rw [h.item?_put]
    split_ifs
    · rfl
    · exact hplace

theorem find_eq {t' : FileTree} (hkeeps : Keeps t t')
    (hplace : t'.item? p.place = some (.file data)) : t'.find p = .ok (.file data) := by
  rw [h.place_eq] at hplace
  have hstep : t'.step (resolve names) name = .ok (resolve names ++ [name]) :=
    step_eq_ok_iff.mpr ⟨hkeeps.directory _ h.directory, Option.isSome_of_eq_some hplace,
      h.advance_eq.symm, .inr (.inr h.size_le)⟩
  have hfollow : t'.follow p.steps = .ok (resolve names ++ [name]) := by
    rw [h.steps_eq, follow_concat, hkeeps.follow h.follow_eq]
    exact hstep
  have hsteps : p.steps.isEmpty = false := by simp [h.steps_eq]
  rw [find, h.check_eq, hfollow, hsteps]
  simp [bind, Except.bind, node?_eq_file hplace, h.no_slash]

end Writable

theorem read_of_find {t : FileTree} {p : Path} {data : Bytes} (h : t.find p = .ok (.file data)) :
    t.read p = .ok data := by
  rw [read, h]
  rfl

namespace Path

/-- The places that a path leads through before its last step. -/
def IsAncestor (p : Path) : Place → Prop :=
  OnTheWay p.steps.dropLast

theorem exists_parts_eq (p : Path) : p.parent.parts = [] ∨
    ∃ rest, p.parts = p.parent.parts ++ rest ∧ ∃ name ∈ rest, name ≠ "" := by
  rcases hlast : p.parts.reverse.dropWhile isIdle with _ | ⟨name, above⟩
  · left
    simp [parent, hlast]
  · right
    have hname : isIdle name = false := by
      have hhead := List.head?_dropWhile_not isIdle p.parts.reverse
      rwa [hlast] at hhead
    have hparent : p.parent.parts = (above.dropWhile isIdle).reverse := by simp [parent, hlast]
    refine ⟨(above.takeWhile isIdle).reverse ++
      name :: (p.parts.reverse.takeWhile isIdle).reverse, ?_, name, by simp, ?_⟩
    · calc
        p.parts = (p.parts.reverse.takeWhile isIdle ++ name :: above).reverse := by
          rw [← hlast, List.takeWhile_append_dropWhile, List.reverse_reverse]
        _ = above.reverse ++ name :: (p.parts.reverse.takeWhile isIdle).reverse := by simp
        _ = _ := by
          rw [hparent, ← List.append_assoc, ← List.reverse_append,
            List.takeWhile_append_dropWhile]
    · rintro rfl
      cases hname

theorem steps_parent_isPrefix (p : Path) : p.parent.steps <+: p.steps.dropLast := by
  rcases p.exists_parts_eq with hnil | ⟨rest, hparts, name, hmem, hname⟩
  · simp [steps, hnil]
  · have hrest : rest.filter (· != "") ≠ [] :=
      List.ne_nil_of_mem (List.mem_filter.mpr ⟨hmem, bne_iff_ne.mpr hname⟩)
    rw [steps, steps, hparts, List.filter_append, List.dropLast_append_of_ne_nil hrest]
    exact List.prefix_append _ _

end Path

end StatementLexer.FileTree
