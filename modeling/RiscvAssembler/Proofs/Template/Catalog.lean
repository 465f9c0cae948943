import Mathlib.Data.List.Forall2
import RiscvAssembler.Proofs.Except
import RiscvAssembler.Proofs.Text.Bytes
import RiscvAssembler.Template.Catalog
import Std.Data.TreeSet

/-!
What a catalog holds. Building keeps one invariant: the range of every mnemonic covers exactly the
templates of that mnemonic so far (`Catalog.Indexed`). So looking a mnemonic up gives its templates,
all of them and in table order (`lookup_eq_filter`). Building succeeds if every row has a template
and the rows of a mnemonic stand together (`exists_build`).
-/

namespace RiscvAssembler

/-- The template of a row, without operands if its format cannot be read. -/
def Row.asTemplate (r : Row) : Template :=
  { mnemonic := r.mnemonic, width := r.width, needs := r.needs, format := r.format,
    matchBits := r.matchBits, maskBits := r.maskBits, guard := r.guard, pseudo := r.pseudo,
    operands := (Format.read r.format.toList).toOption.getD [],
    length := r.length.getD (instructionLength r.matchBits) }

theorem Row.eq_asTemplate {r : Row} {t : Template} (h : r.toTemplate = .ok t) :
    t = r.asTemplate := by
  unfold toTemplate at h
  split at h
  · cases h
  · rename_i operands hread
    cases h
    unfold asTemplate
    rw [hread]
    rfl

namespace Catalog

open List (Forall₂)

/-- The part of a list that a range covers. -/
def slice (templates : List Template) (range : Nat × Nat) : List Template :=
  (templates.drop range.1).take (range.2 - range.1)

/-- Every mnemonic has a range that covers its templates, or no range and no templates. -/
def Indexed (templates : List Template) (ranges : Std.TreeMap String (Nat × Nat)) : Prop :=
  ∀ name, match ranges[name]? with
    | none => templates.filter (·.mnemonic == name) = []
    | some range => range.1 ≤ range.2 ∧ range.2 ≤ templates.length ∧
        slice templates range = templates.filter (·.mnemonic == name)

theorem slice_append {templates : List Template} {range : Nat × Nat}
    (h : range.2 ≤ templates.length) (h' : range.1 ≤ range.2) (t : Template) :
    slice (templates ++ [t]) range = slice templates range := by
  unfold slice
  rw [List.drop_append_of_le_length (by omega), List.take_append_of_le_length]
  rw [List.length_drop]
  omega

theorem slice_snoc {templates : List Template} {start : Nat} (h : start ≤ templates.length)
    (t : Template) :
    slice (templates ++ [t]) (start, templates.length + 1) =
      slice templates (start, templates.length) ++ [t] := by
  unfold slice
  rw [List.drop_append_of_le_length h]
  have hlen : (templates.drop start).length = templates.length - start := List.length_drop
  rw [List.take_of_length_le (by simp; omega), List.take_of_length_le (by simp)]

/-- The template of a row spells the row and has consistent bits. -/
theorem template_eq_ok_iff {row : Row} {t : Template} :
    template row = .ok t ↔ row.toTemplate = .ok t ∧ t.validate row.length = .ok () := by
  unfold template
  constructor
  · intro h
    obtain ⟨t', ht', h⟩ := bind_eq_ok_iff.1 h
    obtain ⟨_, hvalid, h⟩ := bind_eq_ok_iff.1 h
    cases h
    exact ⟨ht', hvalid⟩
  · rintro ⟨ht, hvalid⟩
    exact bind_eq_ok_iff.2 ⟨t, ht, bind_eq_ok_iff.2 ⟨(), hvalid, rfl⟩⟩

theorem eq_asTemplate_of_template {row : Row} {t : Template} (h : template row = .ok t) :
    t = row.asTemplate :=
  Row.eq_asTemplate (template_eq_ok_iff.1 h).1

theorem mnemonic_of_template {row : Row} {t : Template} (h : template row = .ok t) :
    t.mnemonic = row.mnemonic := by
  rw [eq_asTemplate_of_template h]
  rfl

/-- One more template keeps a catalog indexed. -/
theorem Indexed.snoc {templates : List Template} {ranges : Std.TreeMap String (Nat × Nat)}
    (h : Indexed templates ranges) {t : Template} {range : Nat × Nat}
    (hrange : extendRange t.mnemonic templates.length ranges[t.mnemonic]? = .ok range) :
    Indexed (templates ++ [t]) (ranges.insert t.mnemonic range) := by
  intro name
  rw [Std.TreeMap.getElem?_insert, List.filter_append]
  have hname := h name
  by_cases heq : t.mnemonic = name
  · subst heq
    simp only [Std.ReflCmp.compare_self, if_true, List.length_append, List.length_singleton]
    have hone : [t].filter (·.mnemonic == t.mnemonic) = [t] := by simp
    rw [hone]
    cases hold : ranges[t.mnemonic]? with
    | none =>
      rw [hold] at hname hrange
      cases hrange
      refine ⟨Nat.le_succ _, Nat.le_refl _, ?_⟩
      rw [slice_snoc (Nat.le_refl _), hname]
      simp [slice]
    | some old =>
      rw [hold] at hname hrange
      obtain ⟨start, stop⟩ := old
      obtain ⟨hle, hlen, hslice⟩ := hname
      unfold extendRange at hrange
      dsimp only at hrange hle
      split at hrange
      · rename_i hstop
        cases hrange
        subst hstop
        refine ⟨Nat.le_succ_of_le hle, Nat.le_refl _, ?_⟩
        rw [slice_snoc hle, hslice]
      · cases hrange
  · have hne : compare t.mnemonic name ≠ .eq := by simpa using heq
    have hnone : [t].filter (·.mnemonic == name) = [] := by simp [heq]
    rw [if_neg hne, hnone, List.append_nil]
    cases hold : ranges[name]? with
    | none =>
      rw [hold] at hname
      exact hname
    | some old =>
      rw [hold] at hname
      obtain ⟨hle, hlen, hslice⟩ := hname
      refine ⟨hle, ?_, ?_⟩
      · rw [List.length_append]
        omega
      · rw [slice_append hlen hle, hslice]

/-- Building takes a template and a range for the first row, and goes on with the others. -/
theorem buildFrom_cons_eq_ok_iff {next : Nat} {ranges : Std.TreeMap String (Nat × Nat)} {row : Row}
    {rows : List Row} {c : Catalog} :
    buildFrom next ranges (row :: rows) = .ok c ↔
      ∃ t range c', template row = .ok t ∧
        extendRange row.mnemonic next ranges[row.mnemonic]? = .ok range ∧
        buildFrom (next + 1) (ranges.insert row.mnemonic range) rows = .ok c' ∧
        c = { c' with templates := t :: c'.templates } := by
  rw [buildFrom]
  constructor
  · intro h
    obtain ⟨t, ht, h⟩ := bind_eq_ok_iff.1 h
    obtain ⟨range, hrange, h⟩ := bind_eq_ok_iff.1 h
    obtain ⟨c', hc', h⟩ := bind_eq_ok_iff.1 h
    cases h
    exact ⟨t, range, c', ht, hrange, hc', rfl⟩
  · rintro ⟨t, range, c', ht, hrange, hc', rfl⟩
    exact bind_eq_ok_iff.2
      ⟨t, ht, bind_eq_ok_iff.2 ⟨range, hrange, bind_eq_ok_iff.2 ⟨c', hc', rfl⟩⟩⟩

theorem of_buildFrom (before : List Template) {ranges : Std.TreeMap String (Nat × Nat)}
    {rows : List Row} {c : Catalog} (h : buildFrom before.length ranges rows = .ok c)
    (hindexed : Indexed before ranges) :
    Indexed (before ++ c.templates) c.ranges ∧
      Forall₂ (fun row t => template row = .ok t) rows c.templates := by
  induction rows generalizing before ranges c with
  | nil =>
    cases h
    rw [List.append_nil]
    exact ⟨hindexed, .nil⟩
  | cons row rows ih =>
    obtain ⟨t, range, c', ht, hrange, hc', rfl⟩ := buildFrom_cons_eq_ok_iff.1 h
    have hlen : before.length + 1 = (before ++ [t]).length := by simp
    rw [hlen] at hc'
    rw [← mnemonic_of_template ht] at hrange hc'
    obtain ⟨hindexed', hrows⟩ := ih (before ++ [t]) hc' (hindexed.snoc hrange)
    rw [List.append_assoc] at hindexed'
    exact ⟨hindexed', .cons ht hrows⟩

/-- **A catalog holds the template of every row, in order.** -/
theorem templates_of_build {rows : List Row} {c : Catalog} (h : build rows = .ok c) :
    Forall₂ (fun row t => template row = .ok t) rows c.templates :=
  (of_buildFrom [] h (by intro name; simp)).2

theorem templates_eq_map {rows : List Row} {c : Catalog} (h : build rows = .ok c) :
    c.templates = rows.map Row.asTemplate := by
  have hrows := templates_of_build h
  clear h
  generalize c.templates = ts at hrows ⊢
  induction hrows with
  | nil => rfl
  | cons ht _ ih => rw [List.map_cons, eq_asTemplate_of_template ht, ih]

theorem validate_of_template {row : Row} {t : Template} (h : template row = .ok t) :
    t.validate (some t.length) = .ok () := by
  have hvalid := (template_eq_ok_iff.1 h).2
  have hlength : t.length = row.length.getD (instructionLength t.matchBits) := by
    rw [eq_asTemplate_of_template h]
    rfl
  unfold Template.validate at hvalid ⊢
  rw [← hlength] at hvalid
  exact hvalid

/-- Every template of a catalog is valid for its own length. -/
theorem validate_of_mem {rows : List Row} {c : Catalog} (h : build rows = .ok c) {t : Template}
    (ht : t ∈ c.templates) : t.validate (some t.length) = .ok () := by
  have hrows := templates_of_build h
  clear h
  generalize c.templates = ts at hrows ht
  induction hrows with
  | nil => cases ht
  | cons hrow _ ih =>
    rcases List.mem_cons.1 ht with rfl | ht
    · exact validate_of_template hrow
    · exact ih ht

/-- **Looking a mnemonic up gives its templates, all of them and in table order.** -/
theorem lookup_eq_filter {rows : List Row} {c : Catalog} (h : build rows = .ok c) (name : String) :
    c.lookup name = c.templates.filter (·.mnemonic == name) := by
  have hindexed := (of_buildFrom [] h (by intro name; simp)).1 name
  rw [List.nil_append] at hindexed
  unfold lookup
  cases hrange : c.ranges[name]? with
  | none =>
    rw [hrange] at hindexed
    exact hindexed.symm
  | some range =>
    rw [hrange] at hindexed
    exact hindexed.2.2

/-! ### When building succeeds -/

theorem exists_template {row : Row} {operands : List Operand}
    (hread : Format.read row.format.toList = .ok operands)
    (hvalid : row.asTemplate.validate row.length = .ok ()) : ∃ t, template row = .ok t := by
  have htemplate : row.toTemplate = .ok row.asTemplate := by
    rw [Row.toTemplate, Row.asTemplate, hread]
    rfl
  exact ⟨row.asTemplate, template_eq_ok_iff.2 ⟨htemplate, hvalid⟩⟩

/-- Names that stand together, after the names `before`: one that comes again comes right after
itself. -/
def Grouped : (before : List String) → List String → Prop
  | _, [] => True
  | before, name :: rest =>
    (name ∈ before → before.getLast? = some name) ∧ Grouped (before ++ [name]) rest

/-- The ranges of the names so far: none for a name to come, and the last one is still open. -/
structure Current (names : List String) (ranges : Std.TreeMap String (Nat × Nat)) : Prop where
  absent : ∀ name, name ∉ names → ranges[name]? = none
  last : ∀ name, names.getLast? = some name → ∃ start, ranges[name]? = some (start, names.length)

theorem Current.snoc {names : List String} {ranges : Std.TreeMap String (Nat × Nat)}
    (h : Current names ranges) {name : String}
    (hname : name ∈ names → names.getLast? = some name) :
    ∃ range, extendRange name names.length ranges[name]? = .ok range ∧
      Current (names ++ [name]) (ranges.insert name range) := by
  have hextend : ∃ start,
      extendRange name names.length ranges[name]? = .ok (start, names.length + 1) := by
    by_cases hmem : name ∈ names
    · obtain ⟨start, hrange⟩ := h.last name (hname hmem)
      rw [hrange]
      exact ⟨start, if_pos rfl⟩
    · rw [h.absent name hmem]
      exact ⟨names.length, rfl⟩
  obtain ⟨start, hextend⟩ := hextend
  refine ⟨(start, names.length + 1), hextend, ⟨?_, ?_⟩⟩
  · intro other hother
    rw [List.mem_append, List.mem_singleton, not_or] at hother
    have hne : compare name other ≠ .eq := by simpa using Ne.symm hother.2
    rw [Std.TreeMap.getElem?_insert, if_neg hne]
    exact h.absent other hother.1
  · intro other hother
    rw [List.getLast?_concat] at hother
    cases hother
    exact ⟨start, by simp⟩

theorem exists_buildFrom {rows : List Row} {names : List String}
    {ranges : Std.TreeMap String (Nat × Nat)} (hcurrent : Current names ranges)
    (htemplates : ∀ row ∈ rows, ∃ t, template row = .ok t)
    (hgrouped : Grouped names (rows.map Row.mnemonic)) :
    ∃ c, buildFrom names.length ranges rows = .ok c := by
  induction rows generalizing names ranges with
  | nil => exact ⟨⟨[], ranges⟩, rfl⟩
  | cons row rows ih =>
    obtain ⟨t, ht⟩ := htemplates row List.mem_cons_self
    obtain ⟨hname, hrest⟩ := hgrouped
    obtain ⟨range, hrange, hcurrent'⟩ := hcurrent.snoc hname
    obtain ⟨c, hc⟩ := ih hcurrent' (fun r hr => htemplates r (List.mem_cons_of_mem _ hr)) hrest
    rw [List.length_append, List.length_singleton] at hc
    exact ⟨{ c with templates := t :: c.templates },
      buildFrom_cons_eq_ok_iff.2 ⟨t, range, c, ht, hrange, hc, rfl⟩⟩

/-- **Rows that have templates and stand together make a catalog.** -/
theorem exists_build {rows : List Row} (htemplates : ∀ row ∈ rows, ∃ t, template row = .ok t)
    (hgrouped : Grouped [] (rows.map Row.mnemonic)) : ∃ c, build rows = .ok c := by
  have hcurrent : Current [] ∅ :=
    ⟨fun name _ => Std.TreeMap.getElem?_emptyc, fun name h => by cases h⟩
  exact exists_buildFrom hcurrent htemplates hgrouped

/-- Whether numbers stand together: one that comes again comes right after itself. -/
def standTogether : (last : Option Nat) → (seen : Std.TreeSet Nat) → List Nat → Bool
  | _, _, [] => true
  | last, seen, n :: rest =>
    if last = some n then standTogether last seen rest
    else !seen.contains n && standTogether (some n) (seen.insert n) rest

theorem grouped_of_standTogether {names before : List String} {seen : Std.TreeSet Nat}
    (hseen : ∀ name ∈ before, seen.contains (Text.code name) = true)
    (h : standTogether (before.getLast?.map Text.code) seen (names.map Text.code) = true) :
    Grouped before names := by
  induction names generalizing before seen with
  | nil => trivial
  | cons name names ih =>
    rw [List.map_cons, standTogether] at h
    by_cases hlast : before.getLast?.map Text.code = some (Text.code name)
    · -- A number that comes again is the same name again, as `code` is injective.
      rw [if_pos hlast, hlast] at h
      obtain ⟨last, hgetLast, hcode⟩ := Option.map_eq_some_iff.1 hlast
      obtain rfl := Text.code_injective hcode
      have hseen' : ∀ other ∈ before ++ [last], seen.contains (Text.code other) = true := by
        intro other hother
        rcases List.mem_append.1 hother with hbefore | hnew
        · exact hseen other hbefore
        · rw [List.mem_singleton.1 hnew]
          exact hseen last (List.mem_of_getLast? hgetLast)
      refine ⟨fun _ => hgetLast, ih hseen' ?_⟩
      rw [List.getLast?_concat]
      exact h
    · rw [if_neg hlast, Bool.and_eq_true] at h
      have hseen' : ∀ other ∈ before ++ [name],
          (seen.insert (Text.code name)).contains (Text.code other) = true := by
        intro other hother
        rw [Std.TreeSet.contains_insert, Bool.or_eq_true]
        rcases List.mem_append.1 hother with hbefore | hnew
        · exact .inr (hseen other hbefore)
        · rw [List.mem_singleton.1 hnew]
          exact .inl (by simp)
      refine ⟨fun hmem => ?_, ih hseen' ?_⟩
      · rw [hseen name hmem] at h
        cases h.1
      · rw [List.getLast?_concat]
        exact h.2

end Catalog

end RiscvAssembler
