/-
# Fields by name and fields by slot

The evaluator finds a field by its name, the machine by its slot.  The two agree
because a slot is the place of the first field with a name, and names are only
ever added at the end.

The machine has all fields of a program from the start, also those that are
declared further on, while the evaluator adds them as it meets them.  `Backs`
relates the two: the machine's table is the evaluator's, followed by fields that
nothing has written to yet.
-/

import FieldScript.Chunk

namespace FieldScript

/-! ### Slots -/

/-- The names after a name was declared. -/
def declareName (names : List String) (name : String) : List String :=
  if name ∈ names then names else names ++ [name]

/-- The slot of a name, or the one that it gets when it is declared. -/
def slotFor (names : List String) (name : String) : Nat :=
  (names.findIdx? (· = name)).getD names.length

theorem slotFor_cons (n : String) (ns : List String) (name : String) :
    slotFor (n :: ns) name = if n = name then 0 else slotFor ns name + 1 := by
  simp only [slotFor, List.findIdx?_cons]
  by_cases h : n = name
  · simp only [h, decide_true, if_true]
    rfl
  · simp only [h, decide_false, if_false, Bool.false_eq_true]
    cases List.findIdx? (fun m => decide (m = name)) ns <;> rfl

theorem slotFor_of_not_mem {ns : List String} {name : String} (h : name ∉ ns) :
    slotFor ns name = ns.length := by
  have hnone : ns.findIdx? (· = name) = none := by
    rw [List.findIdx?_eq_none_iff]
    intro m hm
    exact decide_eq_false fun hmn => h (hmn ▸ hm)
  rw [slotFor, hnone, Option.getD_none]

theorem slotFor_lt {ns : List String} {name : String} (h : name ∈ ns) :
    slotFor ns name < ns.length := by
  induction ns with
  | nil => exact absurd h List.not_mem_nil
  | cons n ns ih =>
    rw [slotFor_cons, List.length_cons]
    by_cases hn : n = name
    · rw [if_pos hn]
      omega
    · rw [if_neg hn]
      have := ih ((List.mem_cons.1 h).resolve_left (Ne.symm hn))
      omega

/-- A name stands in the table it was declared in, at its slot. -/
theorem slotFor_lt_length_declareName (ns : List String) (name : String) :
    slotFor ns name < (declareName ns name).length := by
  rw [declareName]
  by_cases h : name ∈ ns
  · rw [if_pos h]
    exact slotFor_lt h
  · rw [if_neg h, slotFor_of_not_mem h, List.length_append, List.length_singleton]
    omega

theorem prefix_declareName (ns : List String) (name : String) : ns <+: declareName ns name := by
  rw [declareName]
  split
  · exact List.prefix_refl ns
  · exact List.prefix_append ns [name]

theorem mem_declareName_iff {ns : List String} {name other : String} :
    other ∈ declareName ns name ↔ other ∈ ns ∨ other = name := by
  rw [declareName]
  by_cases h : name ∈ ns
  · rw [if_pos h]
    constructor
    · exact .inl
    · rintro (hother | rfl)
      · exact hother
      · exact h
  · rw [if_neg h, List.mem_append, List.mem_singleton]

theorem mem_declareName (ns : List String) (name : String) : name ∈ declareName ns name :=
  mem_declareName_iff.2 (.inr rfl)

theorem prefix_foldl_declareName (ns as : List String) : ns <+: as.foldl declareName ns := by
  induction as generalizing ns with
  | nil => exact List.prefix_refl ns
  | cons a as ih => exact (prefix_declareName ns a).trans (ih _)

theorem mem_foldl_declareName {ns as : List String} {name : String} :
    name ∈ as.foldl declareName ns ↔ name ∈ ns ∨ name ∈ as := by
  induction as generalizing ns with
  | nil => simp
  | cons a as ih => rw [List.foldl_cons, ih, mem_declareName_iff, List.mem_cons, or_assoc]

/-- A name keeps its slot when others are declared behind it. -/
theorem slotFor_of_isPrefix {ns ms : List String} (h : ns <+: ms) {name : String} (hmem : name ∈ ns) :
    slotFor ms name = slotFor ns name := by
  obtain ⟨rest, rfl⟩ := h
  induction ns with
  | nil => exact absurd hmem List.not_mem_nil
  | cons n ns ih =>
    rw [List.cons_append, slotFor_cons, slotFor_cons]
    by_cases hn : n = name
    · rw [if_pos hn, if_pos hn]
    · rw [if_neg hn, if_neg hn, ih ((List.mem_cons.1 hmem).resolve_left (Ne.symm hn))]

/-- What is declared stays declared, so it can be declared again. -/
theorem declareName_of_mem {ns : List String} {name : String} (h : name ∈ ns) :
    declareName ns name = ns := if_pos h

theorem foldl_declareName_of_mem {ns as : List String} (h : ∀ name ∈ as, name ∈ ns) :
    as.foldl declareName ns = ns := by
  induction as with
  | nil => rfl
  | cons a as ih =>
    rw [List.forall_mem_cons] at h
    rw [List.foldl_cons, declareName_of_mem h.1, ih h.2]

theorem nodup_foldl_declareName {ns : List String} (h : ns.Nodup) (as : List String) :
    (as.foldl declareName ns).Nodup := by
  induction as generalizing ns with
  | nil => exact h
  | cons a as ih =>
    refine ih ?_
    rw [declareName]
    split
    · exact h
    · rename_i hnew
      refine List.nodup_append.2 ⟨h, List.pairwise_singleton _ a, fun b hb c hc hbc => hnew ?_⟩
      rwa [← List.mem_singleton.1 hc, ← hbc]

theorem length_foldl_declareName_le (ns as : List String) :
    (as.foldl declareName ns).length ≤ ns.length + as.length := by
  induction as generalizing ns with
  | nil => exact Nat.le_refl _
  | cons a as ih =>
    have hlength : (declareName ns a).length ≤ ns.length + 1 := by
      rw [declareName]
      split
      · omega
      · exact Nat.le_of_eq List.length_append
    have := ih (declareName ns a)
    rw [List.foldl_cons, List.length_cons]
    omega

/-- The slot that a name gets is the one it has from then on. -/
theorem slotFor_declareName (ns : List String) (name : String) :
    slotFor (declareName ns name) name = slotFor ns name := by
  by_cases h : name ∈ ns
  · rw [declareName_of_mem h]
  · rw [declareName, if_neg h]
    induction ns with
    | nil => rw [List.nil_append, slotFor_cons, if_pos rfl]; rfl
    | cons n ns ih =>
      rw [List.mem_cons, not_or] at h
      rw [List.cons_append, slotFor_cons, slotFor_cons, if_neg (Ne.symm h.1), if_neg (Ne.symm h.1),
        ih h.2]

/-- Two rows of names that come to the same when they are declared. -/
def SameNames (as bs : List String) : Prop :=
  ∀ ns : List String, as.foldl declareName ns = bs.foldl declareName ns

namespace SameNames

variable {as bs cs ds : List String} {name : String}

theorem refl (as : List String) : SameNames as as := fun _ => rfl

theorem append (h : SameNames as bs) (h' : SameNames cs ds) : SameNames (as ++ cs) (bs ++ ds) :=
  fun ns => by rw [List.foldl_append, List.foldl_append, h ns, h']

/-- Names that need not be declared can be left out at the end. -/
theorem append_nil (h : SameNames as bs) : SameNames (as ++ []) bs := by rwa [List.append_nil]

/-- A name that is declared twice in a row is declared once. -/
theorem again (h : SameNames as (bs ++ [name])) : SameNames (as ++ [name]) (bs ++ [name]) :=
  fun ns => by
    rw [List.foldl_append, h ns, List.foldl_append]
    exact declareName_of_mem (mem_declareName _ name)

end SameNames

/-! ### Tables of fields -/

namespace Field

/-- The value of the first field with a name; zero without one. -/
def read (name : String) : List Field → Single
  | [] => Single.zero
  | f :: fs => if f.name = name then f.value else read name fs

/-- The fields with a name declared: it is added with value zero if it is new. -/
def declare (name : String) : List Field → List Field
  | [] => [⟨name, Single.zero⟩]
  | f :: fs => if f.name = name then f :: fs else f :: declare name fs

/-- The fields with another value for a name, which is added if it is new. -/
def write (name : String) (x : Single) : List Field → List Field
  | [] => [⟨name, x⟩]
  | f :: fs => if f.name = name then ⟨name, x⟩ :: fs else f :: write name x fs

/-- The fields with names declared in order. -/
def declareAll (names : List String) (fs : List Field) : List Field :=
  names.foldl (fun fs name => declare name fs) fs

/-- The fields with values written in order. -/
def writeAll (set : List (String × Single)) (fs : List Field) : List Field :=
  set.foldl (fun fs p => write p.1 p.2 fs) fs

/-- The names of a table. -/
def names (fs : List Field) : List String := fs.map (·.name)

/-- A field that nothing has written to. -/
def blank (name : String) : Field := ⟨name, Single.zero⟩

@[simp] theorem names_cons (f : Field) (fs : List Field) : names (f :: fs) = f.name :: names fs := rfl

@[simp] theorem names_append (fs gs : List Field) : names (fs ++ gs) = names fs ++ names gs :=
  List.map_append

@[simp] theorem names_map_blank (ns : List String) : names (ns.map blank) = ns := by
  induction ns with
  | nil => rfl
  | cons n ns ih => rw [List.map_cons, names_cons, ih]; rfl

theorem length_names (fs : List Field) : (names fs).length = fs.length := List.length_map _

theorem read_of_mem {fs : List Field} {name : String} (h : name ∈ names fs) :
    ∃ f, fs[slotFor (names fs) name]? = some f ∧ read name fs = f.value := by
  induction fs with
  | nil => exact absurd h List.not_mem_nil
  | cons f fs ih =>
    rw [names_cons, slotFor_cons]
    by_cases hf : f.name = name
    · exact ⟨f, by rw [if_pos hf]; rfl, by rw [read, if_pos hf]⟩
    · obtain ⟨g, hg, hread⟩ := ih ((List.mem_cons.1 h).resolve_left (Ne.symm hf))
      exact ⟨g, by rw [if_neg hf, List.getElem?_cons_succ, hg], by rw [read, if_neg hf, hread]⟩

theorem read_of_not_mem {fs : List Field} {name : String} (h : name ∉ names fs) :
    read name fs = Single.zero := by
  induction fs with
  | nil => rfl
  | cons f fs ih =>
    rw [names_cons, List.mem_cons, not_or] at h
    rw [read, if_neg (Ne.symm h.1), ih h.2]

theorem declare_of_mem {fs : List Field} {name : String} (h : name ∈ names fs) :
    declare name fs = fs := by
  induction fs with
  | nil => exact absurd h List.not_mem_nil
  | cons f fs ih =>
    rw [declare]
    by_cases hf : f.name = name
    · rw [if_pos hf]
    · rw [if_neg hf, ih ((List.mem_cons.1 h).resolve_left (Ne.symm hf))]

theorem declare_of_not_mem {fs : List Field} {name : String} (h : name ∉ names fs) :
    declare name fs = fs ++ [blank name] := by
  induction fs with
  | nil => rfl
  | cons f fs ih =>
    rw [names_cons, List.mem_cons, not_or] at h
    rw [declare, if_neg (Ne.symm h.1), ih h.2, List.cons_append]

theorem names_declare (fs : List Field) (name : String) :
    names (declare name fs) = declareName (names fs) name := by
  rw [declareName]
  by_cases h : name ∈ names fs
  · rw [declare_of_mem h, if_pos h]
  · rw [declare_of_not_mem h, if_neg h, names_append]
    rfl

theorem declareAll_cons (a : String) (as : List String) (fs : List Field) :
    declareAll (a :: as) fs = declareAll as (declare a fs) := rfl

theorem declareAll_append (as bs : List String) (fs : List Field) :
    declareAll (as ++ bs) fs = declareAll bs (declareAll as fs) := List.foldl_append

theorem names_declareAll (as : List String) (fs : List Field) :
    names (declareAll as fs) = as.foldl declareName (names fs) := by
  induction as generalizing fs with
  | nil => rfl
  | cons a as ih => rw [declareAll_cons, ih, names_declare, List.foldl_cons]

/-- A declaration gives the value zero, which a name has without one. -/
theorem read_declare (name other : String) (fs : List Field) :
    read other (declare name fs) = read other fs := by
  induction fs with
  | nil => simp [declare, read]
  | cons f fs ih =>
    rw [declare]
    split
    · rfl
    · rw [read, read, ih]

theorem read_declareAll (as : List String) (name : String) (fs : List Field) :
    read name (declareAll as fs) = read name fs := by
  induction as generalizing fs with
  | nil => rfl
  | cons a as ih => rw [declareAll_cons, ih, read_declare]

theorem read_write (name : String) (x : Single) (fs : List Field) :
    read name (write name x fs) = x := by
  induction fs with
  | nil => rw [write, read, if_pos rfl]
  | cons f fs ih =>
    rw [write]
    by_cases hf : f.name = name
    · rw [if_pos hf, read, if_pos rfl]
    · rw [if_neg hf, read, if_neg hf, ih]

theorem read_write_of_ne {name other : String} (h : other ≠ name) (x : Single) (fs : List Field) :
    read other (write name x fs) = read other fs := by
  induction fs with
  | nil => simp [write, read, Ne.symm h]
  | cons f fs ih =>
    rw [write]
    by_cases hf : f.name = name
    · rw [if_pos hf, read, read, if_neg (Ne.symm h), if_neg (hf ▸ Ne.symm h)]
    · rw [if_neg hf, read, read, ih]

/-- A write keeps tables alike. -/
theorem read_write_congr {fs gs : List Field} (h : ∀ name, read name fs = read name gs)
    (name : String) (x : Single) (other : String) :
    read other (write name x fs) = read other (write name x gs) := by
  by_cases hother : other = name
  · rw [hother, read_write, read_write]
  · rw [read_write_of_ne hother, read_write_of_ne hother, h]

/-- Writing is declaring and then changing the value in the slot. -/
theorem write_eq_modify (name : String) (x : Single) (fs : List Field) :
    write name x fs =
      (declare name fs).modify (slotFor (names fs) name) fun f => { f with value := x } := by
  induction fs with
  | nil => rfl
  | cons f fs ih =>
    rw [write, declare, names_cons, slotFor_cons]
    by_cases hf : f.name = name
    · rw [if_pos hf, if_pos hf, if_pos hf, ← hf]
      rfl
    · rw [if_neg hf, if_neg hf, if_neg hf, ih]
      rfl

/-- A change inside the first of two tables leaves the second one alone. -/
theorem modify_append_of_lt {fs gs : List Field} {k : Nat} (h : k < fs.length) (g : Field → Field) :
    (fs ++ gs).modify k g = fs.modify k g ++ gs := by
  induction fs generalizing k with
  | nil => exact absurd h (Nat.not_lt_zero k)
  | cons f fs ih =>
    cases k with
    | zero => rfl
    | succ k => rw [List.cons_append, List.modify_succ_cons, List.modify_succ_cons,
        ih (Nat.lt_of_succ_lt_succ h), List.cons_append]

theorem names_modify_value (fs : List Field) (k : Nat) (x : Single) :
    names (fs.modify k fun f => { f with value := x }) = names fs := by
  induction fs generalizing k with
  | nil => cases k <;> rfl
  | cons f fs ih =>
    cases k with
    | zero => rfl
    | succ k => rw [List.modify_succ_cons, names_cons, names_cons, ih]

theorem names_write (name : String) (x : Single) (fs : List Field) :
    names (write name x fs) = declareName (names fs) name := by
  rw [write_eq_modify, names_modify_value, names_declare]

theorem names_writeAll (set : List (String × Single)) (fs : List Field) :
    names (writeAll set fs) = (set.map Prod.fst).foldl declareName (names fs) := by
  induction set generalizing fs with
  | nil => rfl
  | cons p set ih =>
    rw [writeAll, List.foldl_cons, ← writeAll, ih, names_write, List.map_cons, List.foldl_cons]

theorem read_writeAll_congr {fs gs : List Field} (h : ∀ name, read name fs = read name gs)
    (set : List (String × Single)) (name : String) :
    read name (writeAll set fs) = read name (writeAll set gs) := by
  induction set generalizing fs gs with
  | nil => exact h name
  | cons p set ih => exact ih (read_write_congr h p.1 p.2)

/-- The first table begins the second one, which goes on with fields that
nothing has written to. -/
def Backs (table : List Field) (fs : List Field) : Prop :=
  ∃ rest : List String, table = fs ++ rest.map blank

namespace Backs

variable {table fs : List Field} {name : String}

/-- A name that comes next is declared without a change to the larger table. -/
theorem declare (h : Backs table fs) (hnames : declareName (names fs) name <+: names table) :
    Backs table (declare name fs) := by
  obtain ⟨rest, rfl⟩ := h
  by_cases hmem : name ∈ names fs
  · exact ⟨rest, by rw [declare_of_mem hmem]⟩
  · rw [declareName, if_neg hmem, names_append, names_map_blank, List.prefix_append_right_inj] at hnames
    obtain ⟨rest', rfl⟩ := hnames
    refine ⟨rest', ?_⟩
    rw [declare_of_not_mem hmem, List.map_append, List.append_assoc]
    rfl

theorem declareAll (h : Backs table fs) {as : List String}
    (hnames : as.foldl declareName (names fs) <+: names table) :
    Backs table (Field.declareAll as fs) := by
  induction as generalizing fs with
  | nil => exact h
  | cons a as ih =>
    refine ih (h.declare ((prefix_foldl_declareName _ as).trans hnames)) ?_
    rw [names_declare]
    exact hnames

/-- Names that are declared ahead of time stand behind the table. -/
theorem of_declareAll (as : List String) (fs : List Field) : Backs (Field.declareAll as fs) fs := by
  induction as generalizing fs with
  | nil => exact ⟨[], (List.append_nil fs).symm⟩
  | cons a as ih =>
    obtain ⟨rest, hrest⟩ := ih (Field.declare a fs)
    rw [declareAll_cons, hrest]
    by_cases hmem : a ∈ names fs
    · exact ⟨rest, by rw [declare_of_mem hmem]⟩
    · refine ⟨a :: rest, ?_⟩
      rw [declare_of_not_mem hmem, List.append_assoc]
      rfl

theorem read (h : Backs table fs) (hmem : name ∈ names fs) :
    ∃ f, table[slotFor (names fs) name]? = some f ∧ Field.read name fs = f.value := by
  obtain ⟨rest, rfl⟩ := h
  obtain ⟨f, hf, hread⟩ := read_of_mem hmem
  obtain ⟨hlt, _⟩ := List.getElem?_eq_some_iff.1 hf
  exact ⟨f, by rw [List.getElem?_append_left hlt, hf], hread⟩

theorem write (h : Backs table fs) (hnames : declareName (names fs) name <+: names table)
    (x : Single) :
    Backs (table.modify (slotFor (names fs) name) fun f => { f with value := x })
      (Field.write name x fs) := by
  obtain ⟨rest, hrest⟩ := h.declare hnames
  refine ⟨rest, ?_⟩
  have hlt : slotFor (names fs) name < (Field.declare name fs).length := by
    rw [← length_names, names_declare]
    exact slotFor_lt_length_declareName (names fs) name
  rw [hrest, write_eq_modify, modify_append_of_lt hlt]

/-- A table with the same number of names is the same table. -/
theorem eq_of_names (h : Backs table fs) (hnames : names table = names fs) : table = fs := by
  obtain ⟨rest, rfl⟩ := h
  rw [names_append, names_map_blank] at hnames
  have hrest : rest = [] := List.append_right_eq_self.1 hnames
  rw [hrest, List.map_nil, List.append_nil]

end Backs
end Field
end FieldScript
