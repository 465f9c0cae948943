import Mathlib.Data.List.Induction
import RiscvAssembler.Proofs.Template.Standard

/-!
Catalogs lose nothing. While a catalog is built, the only range that may grow is the one that ends at
the next template, and it is the range of the last mnemonic (`Indexed.getLast?_of_extendRange`). So
building succeeds exactly if every row has a valid template and the rows of every mnemonic stand
together (`exists_build_iff`), and then a mnemonic has the templates of its rows.
-/

namespace RiscvAssembler

namespace Catalog

open List (Forall₂)

/-! ### Names that stand together -/

/-- Equal names stand together: what is between two of them is equal to them. -/
def Contiguous (names : List String) : Prop :=
  ∀ before name between after, names = before ++ name :: between ++ name :: after →
    ∀ other ∈ between, other = name

theorem grouped_iff_forall_split {before names : List String} :
    Grouped before names ↔ ∀ left name right, names = left ++ name :: right →
      name ∈ before ++ left → (before ++ left).getLast? = some name := by
  induction names generalizing before with
  | nil => simp [Grouped]
  | cons first names ih =>
    rw [Grouped, ih]
    constructor
    · rintro ⟨hfirst, hrest⟩ left name right hsplit hmem
      cases left with
      | nil =>
        cases hsplit
        rw [List.append_nil] at hmem ⊢
        exact hfirst hmem
      | cons head left =>
        cases hsplit
        rw [List.append_cons] at hmem ⊢
        exact hrest left name right rfl hmem
    · intro h
      refine ⟨fun hmem => ?_, fun left name right hsplit hmem => ?_⟩
      · have hlast := h [] first names rfl (by rwa [List.append_nil])
        rwa [List.append_nil] at hlast
      · rw [← List.append_cons] at hmem ⊢
        exact h (first :: left) name right (by rw [hsplit]; rfl) hmem

/-- Names are grouped, each with its last occurrence, exactly if equal ones stand together. -/
theorem grouped_iff_contiguous {names : List String} : Grouped [] names ↔ Contiguous names := by
  rw [grouped_iff_forall_split]
  simp only [List.nil_append]
  constructor
  · -- The last of the names between two equal ones is equal to them, and so are those before it.
    intro h before name between after
    induction between using List.reverseRecOn generalizing after with
    | nil => simp
    | append_singleton between last ih =>
      intro hsplit other hother
      have hlast := h (before ++ name :: (between ++ [last])) name after hsplit (by simp)
      rw [← List.cons_append, ← List.append_assoc, List.getLast?_concat] at hlast
      obtain rfl := Option.some.inj hlast
      rcases List.mem_append.1 hother with hother | hother
      · exact ih (last :: after) (by simpa using hsplit) other hother
      · exact List.mem_singleton.1 hother
  · intro h left name right hsplit hmem
    obtain ⟨before, between, rfl⟩ := List.append_of_mem hmem
    have hbetween := h before name between right hsplit
    rw [List.getLast?_append_cons]
    cases hlast : (name :: between).getLast? with
    | none => simp at hlast
    | some last =>
      rcases List.mem_cons.1 (List.mem_of_getLast? hlast) with rfl | hmem
      · rfl
      · rw [hbetween last hmem]

/-! ### When building fails -/

theorem read_error_iff {row : Row} :
    (∃ code, Format.read row.format.toList = .error code) ↔ ∀ t, row.toTemplate ≠ .ok t := by
  unfold Row.toTemplate
  cases Format.read row.format.toList <;> simp

/-- A row has no template if its format cannot be read, or if the bits are inconsistent. -/
theorem not_exists_template_iff {row : Row} :
    (¬ ∃ t, template row = .ok t) ↔
      (∃ code, Format.read row.format.toList = .error code) ∨
        ∃ t defect, row.toTemplate = .ok t ∧ t.validate row.length = .error defect := by
  simp only [template_eq_ok_iff, read_error_iff]
  cases row.toTemplate with
  | error defect => simp
  | ok t => cases hvalid : t.validate row.length <;> simp [hvalid]

/-- A range that takes one more template is that of the last one. -/
theorem Indexed.getLast?_of_extendRange {templates : List Template}
    {ranges : Std.TreeMap String (Nat × Nat)} (h : Indexed templates ranges) {name : String}
    {range : Nat × Nat} (hrange : extendRange name templates.length ranges[name]? = .ok range)
    (hmem : name ∈ templates.map Template.mnemonic) :
    (templates.map Template.mnemonic).getLast? = some name := by
  obtain ⟨t, ht, rfl⟩ := List.mem_map.1 hmem
  have hfilter : t ∈ templates.filter (·.mnemonic == t.mnemonic) :=
    List.mem_filter.2 ⟨ht, beq_self_eq_true _⟩
  have hname := h t.mnemonic
  cases hold : ranges[t.mnemonic]? with
  | none =>
    rw [hold] at hname
    rw [hname] at hfilter
    cases hfilter
  | some old =>
    obtain ⟨start, stop⟩ := old
    rw [hold] at hname hrange
    obtain ⟨-, -, hslice⟩ := hname
    unfold extendRange at hrange
    dsimp only at hrange
    split at hrange
    · rename_i hstop
      subst hstop
      -- The range goes on to the end, so the last template is one of this mnemonic.
      have hdrop : templates.drop start = templates.filter (·.mnemonic == t.mnemonic) := by
        rw [← hslice, slice, List.take_of_length_le]
        rw [List.length_drop]
      rw [← hdrop] at hfilter
      have hstart : ¬ templates.length ≤ start := by
        intro hle
        rw [List.drop_of_length_le hle] at hfilter
        cases hfilter
      have hlast : (templates.drop start).getLast? = templates.getLast? := by
        rw [List.getLast?_drop, if_neg hstart]
      cases hend : templates.getLast? with
      | none =>
        rw [List.getLast?_eq_none_iff.1 hend] at ht
        cases ht
      | some last =>
        rw [hend] at hlast
        have hlastMem := List.mem_of_getLast? hlast
        rw [hdrop] at hlastMem
        rw [List.getLast?_map, hend, Option.map_some, beq_iff_eq.1 (List.mem_filter.1 hlastMem).2]
    · cases hrange

theorem grouped_of_buildFrom (before : List Template) {ranges : Std.TreeMap String (Nat × Nat)}
    {rows : List Row} {c : Catalog} (h : buildFrom before.length ranges rows = .ok c)
    (hindexed : Indexed before ranges) :
    Grouped (before.map Template.mnemonic) (rows.map Row.mnemonic) := by
  induction rows generalizing before ranges c with
  | nil => trivial
  | cons row rows ih =>
    obtain ⟨t, range, c', ht, hrange, hc', -⟩ := buildFrom_cons_eq_ok_iff.1 h
    have hlen : before.length + 1 = (before ++ [t]).length := by simp
    rw [hlen] at hc'
    rw [List.map_cons]
    rw [← mnemonic_of_template ht] at hrange hc' ⊢
    have hrest := ih (before ++ [t]) hc' (hindexed.snoc hrange)
    rw [List.map_append] at hrest
    exact ⟨hindexed.getLast?_of_extendRange hrange, hrest⟩

theorem exists_template_of_forall₂ {rows : List Row} {ts : List Template}
    (h : Forall₂ (fun row t => template row = .ok t) rows ts) {row : Row} (hrow : row ∈ rows) :
    ∃ t, template row = .ok t := by
  induction h with
  | nil => cases hrow
  | @cons head t _ _ ht _ ih =>
    rcases List.mem_cons.1 hrow with rfl | hrow
    · exact ⟨t, ht⟩
    · exact ih hrow

/-- **A catalog is built exactly from rows that have templates and stand together.** -/
theorem exists_build_iff {rows : List Row} :
    (∃ c, build rows = .ok c) ↔
      Contiguous (rows.map Row.mnemonic) ∧ ∀ row ∈ rows, ∃ t, template row = .ok t := by
  constructor
  · rintro ⟨c, hc⟩
    refine ⟨grouped_iff_contiguous.1 (grouped_of_buildFrom [] hc (by intro name; simp)), ?_⟩
    intro row hrow
    exact exists_template_of_forall₂ (templates_of_build hc) hrow
  · rintro ⟨hcontiguous, htemplates⟩
    exact exists_build htemplates (grouped_iff_contiguous.2 hcontiguous)

/-! ### What is looked up -/

theorem forall₂_lookup {rows : List Row} {c : Catalog} (h : build rows = .ok c) (name : String) :
    Forall₂ (fun row t => template row = .ok t) (rows.filter (·.mnemonic == name))
      (c.lookup name) := by
  rw [lookup_eq_filter h]
  refine List.rel_filter ?_ (templates_of_build h)
  intro row t ht
  change (row.mnemonic == name) = true ↔ (t.mnemonic == name) = true
  rw [mnemonic_of_template ht]

/-- **A catalog loses and reorders nothing.** Looking a name up gives the templates of the rows of
this name, all of them and in table order; each spells its row and has consistent bits. Building
fails exactly if the rows of some mnemonic do not stand together, some format cannot be read, or
the bits of some template are inconsistent. -/
theorem lookup_keeps_every_row (rows : List Row) :
    (∀ c, build rows = .ok c → ∀ name,
      Forall₂ (fun row t => row.toTemplate = .ok t ∧ t.validate row.length = .ok ())
        (rows.filter (·.mnemonic == name)) (c.lookup name)) ∧
    ((∃ defect, build rows = .error defect) ↔
      ¬ Contiguous (rows.map Row.mnemonic) ∨
        (∃ row ∈ rows, ∃ code, Format.read row.format.toList = .error code) ∨
        ∃ row ∈ rows, ∃ t defect,
          row.toTemplate = .ok t ∧ t.validate row.length = .error defect) := by
  constructor
  · intro c hc name
    exact (forall₂_lookup hc name).imp fun _ _ => template_eq_ok_iff.1
  · have hfails : (∃ defect, build rows = .error defect) ↔ ¬ ∃ c, build rows = .ok c := by
      cases build rows <;> simp
    rw [hfails, exists_build_iff, not_and_or]
    refine or_congr_right ?_
    simp only [not_forall, not_exists_template_iff, exists_prop, and_or_left, exists_or]

/-- Two forms of an addition, and a subtraction. -/
def overloadedRows : List Row :=
  [.insn "add" none .i "d,s,t" 0x33 0xfe00707f .opcode,
    .insn "add" none .i "d,s,j" 0x13 0x707f .opcode,
    .insn "sub" none .i "d,s,t" 0x40000033 0xfe00707f .opcode]

/-- Both forms of the addition are found, in table order. -/
theorem lookup_keeps_every_row_add : ∃ c, build overloadedRows = .ok c ∧
    Forall₂ (fun row t => row.toTemplate = .ok t ∧ t.validate row.length = .ok ())
      (overloadedRows.take 2) (c.lookup "add") := by
  have hbuild : ∃ c, build overloadedRows = .ok c :=
    exists_build_of_standTogether (by decide) (by decide)
  obtain ⟨c, hc⟩ := hbuild
  have hrows : overloadedRows.filter (·.mnemonic == "add") = overloadedRows.take 2 := by decide
  exact ⟨c, hc, hrows ▸ (lookup_keeps_every_row overloadedRows).1 c hc "add"⟩

end Catalog

end RiscvAssembler
