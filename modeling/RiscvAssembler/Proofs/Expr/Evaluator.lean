import RiscvAssembler.Expr.Evaluator

/-!
What evaluators read as constants. The operands of templates tell registers, modifiers and constants
apart, and so has an evaluator that they are used with (`Evaluator.Separates`). The basic one does:
it reads a constant only where no name stands first.
-/

namespace RiscvAssembler

theorem mem_of_lookup {table : List (String × Nat)} {name : String} {n : Nat}
    (h : table.lookup name = some n) : (name, n) ∈ table := by
  obtain ⟨before, after, htable, -⟩ := List.lookup_eq_some_iff.1 h
  exact htable ▸ List.mem_append_right _ (.head _)

namespace Evaluator

/-- The name of a register is no constant to an evaluator. -/
def SparesRegisters (ev : Evaluator) (reduced : Bool) : Prop :=
  ∀ s, (Register.lookup .integer reduced s).isSome → ∀ v rest, ev s ≠ some (.constant v, rest)

/-- Text under a modifier is no constant to an evaluator. -/
def SparesModifiers (ev : Evaluator) : Prop :=
  ∀ s, s.head? = some '%' → ∀ v rest, ev s ≠ some (.constant v, rest)

/-- An evaluator keeps apart what the operands of templates keep apart: registers, modifiers and
constants. -/
structure Separates (ev : Evaluator) (reduced : Bool) : Prop where
  register : ev.SparesRegisters reduced
  modifier : ev.SparesModifiers

/-! ### Sums with a symbol -/

theorem symbol_of_add? {sum sum' : Sum} {negative : Bool} {t : Term}
    (h : sum.add? negative t = some sum') (hsymbol : sum.symbol.isSome) : sum'.symbol.isSome := by
  unfold Sum.add? at h
  split at h
  · cases h
    exact hsymbol
  · split at h
    · cases h
    · cases h
      rfl

theorem symbol_of_moreTerms {sum sum' : Sum} {s rest : List Char}
    (h : moreTerms sum s = some (sum', rest)) (hsymbol : sum.symbol.isSome) :
    sum'.symbol.isSome := by
  fun_induction moreTerms sum s with
  | case1 => cases h
  | case2 => cases h
  | case3 =>
    rename_i hadd ih
    exact ih h (symbol_of_add? hadd hsymbol)
  | case4 =>
    cases h
    exact hsymbol
  | case5 =>
    cases h
    exact hsymbol

theorem ne_constant_of_symbol {sum : Sum} (h : sum.symbol.isSome) (v : Int64) :
    sum.toExpr? ≠ some (.constant v) := by
  obtain ⟨name, hname⟩ := Option.isSome_iff_exists.1 h
  unfold Sum.toExpr?
  rw [hname]
  dsimp only
  split
  · split
    · exact nofun
    · exact nofun
  · exact nofun

theorem symbol_of_name {negative : Bool} {name : List Char} {sum : Sum}
    (h : Sum.empty.add? negative (.name name) = some sum) : sum.symbol.isSome := by
  unfold Sum.add? at h
  dsimp only at h
  split at h
  · cases h
  · cases h
    rfl

/-! ### Constants -/

theorem isDigit_of_term? {s rest : List Char} {negative : Bool} {v : Int64}
    (h : term? s = some (negative, .number v, rest)) :
    ∃ c ∈ (signs false s).2.head?, c.isDigit = true := by
  unfold term? at h
  split at h
  · cases h
  · rename_i c after hsigns
    split at h
    · rename_i hdigit
      rw [hsigns]
      exact ⟨c, rfl, hdigit⟩
    · split at h
      · cases h
      · cases h

/-- A constant starts with a digit, after signs and blanks. -/
theorem isDigit_of_basic {s rest : List Char} {v : Int64}
    (h : basic s = some (.constant v, rest)) :
    ∃ c ∈ (signs false s).2.head?, c.isDigit = true := by
  obtain ⟨⟨negative, t, after⟩, hterm, h⟩ := Option.bind_eq_some_iff.1 h
  obtain ⟨sum, hadd, h⟩ := Option.bind_eq_some_iff.1 h
  obtain ⟨⟨sum', rest'⟩, hmore, h⟩ := Option.bind_eq_some_iff.1 h
  obtain ⟨e, hexpr, h⟩ := Option.bind_eq_some_iff.1 h
  cases h
  cases t with
  | number value => exact isDigit_of_term? hterm
  | name name =>
    exact absurd hexpr (ne_constant_of_symbol (symbol_of_moreTerms hmore (symbol_of_name hadd)) v)

theorem basic_ne_constant {c : Char} {s : List Char}
    (hsign : (Text.isBlank c || c == '+') = false ∧ (c == '-') = false)
    (hdigit : c.isDigit = false) (v : Int64) (rest : List Char) :
    basic (c :: s) ≠ some (.constant v, rest) := by
  intro h
  obtain ⟨d, hd, hdigit'⟩ := isDigit_of_basic h
  rw [signs, hsign.1, hsign.2] at hd
  cases hd
  rw [hdigit] at hdigit'
  cases hdigit'

/-! ### Names of registers -/

/-- Names of registers start with a small letter. -/
theorem isLower_of_mem_names (bank : Bank) :
    ∀ p ∈ Register.names bank, p.1.toList.head?.any Char.isLower = true := by
  cases bank <;> decide

theorem head_of_lookup {bank : Bank} {reduced : Bool} {s : List Char}
    (h : (Register.lookup bank reduced s).isSome) :
    ∃ c r, s = c :: r ∧ Text.isWordChar c = true ∧ c.toLower.isLower = true := by
  obtain ⟨found, hfound⟩ := Option.isSome_iff_exists.1 h
  obtain ⟨n, hn, -⟩ := Option.map_eq_some_iff.1 (Option.filter_eq_some_iff.1 hfound).1
  have hlower := isLower_of_mem_names bank _ (mem_of_lookup hn)
  rw [String.toList_ofList] at hlower
  cases s with
  | nil => cases hlower
  | cons c r =>
    cases hword : Text.isWordChar c with
    | false =>
      rw [List.takeWhile_cons_of_neg (by simp [hword])] at hlower
      cases hlower
    | true =>
      rw [List.takeWhile_cons_of_pos hword] at hlower
      exact ⟨c, r, rfl, hword, hlower⟩

theorem isDigit_of_isLower {c : Char} (h : c.toLower.isLower = true) : c.isDigit = false := by
  cases hdigit : c.isDigit with
  | false => rfl
  | true =>
    have hhigh : c.val.toNat ≤ 57 := (Char.isDigit_iff_toNat.1 hdigit).2
    have hupper : ¬ (c.val ≥ 'A'.val ∧ c.val ≤ 'Z'.val) := by
      rintro ⟨hlow, -⟩
      have : 65 ≤ c.val.toNat := UInt32.le_iff_toNat_le.1 hlow
      omega
    have hself : c.toLower = c := dif_neg hupper
    rw [hself] at h
    have hlow : 97 ≤ c.val := of_decide_eq_true (Bool.and_eq_true_iff.1 h).1
    have : 97 ≤ c.val.toNat := UInt32.le_iff_toNat_le.1 hlow
    omega

/-- **The basic evaluator keeps registers, modifiers and constants apart.** -/
theorem basic_separates (reduced : Bool) : basic.Separates reduced where
  register s h v rest := by
    obtain ⟨c, r, rfl, hword, hlower⟩ := head_of_lookup h
    have hne : ∀ d, Text.isWordChar d = false → c ≠ d := by
      rintro d hd rfl
      rw [hd] at hword
      cases hword
    refine basic_ne_constant ⟨?_, ?_⟩ (isDigit_of_isLower hlower) v rest
    · simp [Text.isBlank, hne ' ' rfl, hne '\t' rfl, hne '+' rfl]
    · simp [hne '-' rfl]
  modifier s h v rest := by
    obtain ⟨r, rfl⟩ := List.head?_eq_some_iff.1 h
    exact basic_ne_constant ⟨rfl, rfl⟩ rfl v rest

end Evaluator

end RiscvAssembler
