import Mathlib.Data.List.TakeWhile
import RiscvAssembler.Proofs.Expr.Evaluator
import RiscvAssembler.Proofs.Expr.Sum

/-!
Expressions that are written and read again. The text of an expression is a sum with that expression
as its meaning (`Expr.exists_sumText`): a constant is a literal after its sign, an addend is one
after the sign that joins it to its name. So the basic evaluator gives the expression back
(`basic_reads_display`).
-/

namespace RiscvAssembler

namespace Evaluator

/-! ### Decimal literals -/

/-- The digits of a number, as digits of a literal. -/
theorem exists_digits (n : Nat) : ∃ ds : List (Digit .decimal),
    ds.map Digit.char = Nat.toDigits 10 n ∧ Nat.ofDigits 10 (ds.map (·.value.val)).reverse = n := by
  induction n using Nat.strongRecOn with
  | ind n ih =>
    rw [Nat.toDigits_eq_if (by decide)]
    split
    · rename_i hn
      exact ⟨[⟨⟨n, hn⟩, false⟩], rfl, Nat.ofDigits_singleton⟩
    · rename_i hn
      obtain ⟨ds, hchars, hvalue⟩ := ih (n / 10) (by omega)
      refine ⟨ds ++ [⟨⟨n % 10, Nat.mod_lt n (by decide)⟩, false⟩], ?_, ?_⟩
      · rw [List.map_append, hchars]
        rfl
      · rw [List.map_append, List.reverse_append, List.map_singleton, List.reverse_singleton,
          List.singleton_append, Nat.ofDigits_cons, hvalue]
        exact Nat.mod_add_div n 10

/-- A number written in decimal is a literal of that value. -/
theorem Literal.exists_of_toDigits (n : Nat) :
    ∃ l : Literal, l.text = Nat.toDigits 10 n ∧ l.value = n := by
  obtain ⟨ds, hchars, hvalue⟩ := exists_digits n
  cases ds with
  | nil => exact absurd hchars.symm Nat.toDigits_ne_nil
  | cons d ds =>
    refine ⟨⟨.decimal, false, d, ds.map some⟩, ?_, ?_⟩
    · rw [← hchars]
      simp [text, body, Radix.mark]
    · rw [← hvalue]
      simp [value, digits, Radix.base]

/-- The text after an expression: it neither continues a name or a number nor goes on with a
sign. -/
def EndsExpr (rest : List Char) : Prop :=
  (∀ c ∈ rest.head?, Text.isSymbolChar c = false) ∧
    ∀ c ∈ (Text.dropBlanks rest).head?, c ≠ '+' ∧ c ≠ '-'

theorem EndsExpr.endsBefore {rest : List Char} (h : EndsExpr rest) (t : SumText) :
    t.EndsBefore rest := by
  refine ⟨fun c hc => ?_, h.2⟩
  rw [Bool.eq_false_iff]
  intro hcontinued
  have hsymbol := h.1 c hc
  rw [Atom.isSymbolChar_of_continuedBy hcontinued] at hsymbol
  cases hsymbol

/-! ### Names of registers -/

/-- The names of registers are among the names that a sum may have. -/
theorem isIdentifier_of_isName {n : List Char} (h : Register.isName n = true) :
    isIdentifier n = true := by
  obtain ⟨bank, hwhole⟩ : ∃ bank, (Register.whole? bank n).isSome = true := by
    rcases Bool.or_eq_true_iff.1 h with h | h
    · exact ⟨.integer, h⟩
    · exact ⟨.float, h⟩
  obtain ⟨k, hk⟩ : ∃ k, Register.lookup bank false n = some (k, []) := by
    unfold Register.whole? at hwhole
    split at hwhole
    · rename_i k hlookup
      exact ⟨k, hlookup⟩
    · cases hwhole
  have hsymbols : ∀ c ∈ n, Text.isSymbolChar c = true := by
    obtain ⟨m, -, hm⟩ := Option.map_eq_some_iff.1 (Option.filter_eq_some_iff.1 hk).1
    intro c hc
    exact isSymbolChar_of_isWordChar (List.dropWhile_eq_nil_iff.1 (Prod.mk.inj hm).2 c hc)
  obtain ⟨c, r, rfl, -, hlower⟩ := head_of_lookup (Option.isSome_of_mem hk)
  have hstart : Text.isSymbolStart c = true := by
    have hc := hsymbols c List.mem_cons_self
    rwa [Text.isSymbolChar, isDigit_of_isLower hlower, Bool.or_false] at hc
  exact Bool.and_eq_true_iff.2 ⟨hstart, List.all_eq_true.2 hsymbols⟩

end Evaluator

/-! ### Expressions as sums -/

namespace Expr

open Evaluator

/-- Whether the name in an expression is of the kind that the expression has: a symbol is no
register, and a register is one. -/
def isProper : Expr → Bool
  | .constant _ => true
  | .symbol name _ => isIdentifier name.toList && !Register.isName name.toList
  | .register name => Register.isName name.toList

/-- The digits of a number after a run with its sign. -/
theorem exists_summand (v : Int64) (run : List Char) (hrun : run.all isSign = true)
    (hsign : isNegative run = decide (v.toInt < 0)) :
    ∃ s : Summand, s.run = run ∧ s.text = run ++ Nat.toDigits 10 v.toInt.natAbs ∧
      s.number = v.toInt ∧ s.name? = none := by
  obtain ⟨l, htext, hvalue⟩ := Literal.exists_of_toDigits v.toInt.natAbs
  have hlow := v.le_toInt
  have hhigh := v.toInt_lt
  refine ⟨⟨run, .literal l (by omega), hrun⟩, rfl, congrArg (run ++ ·) htext, ?_, rfl⟩
  unfold Summand.number
  rw [hsign]
  simp only [Atom.number, decide_eq_true_eq]
  split <;> omega

/-- A number in decimal is a sum that means the number, and goes on as long as its word. -/
theorem exists_sumText_decimal (v : Int64) :
    ∃ t : SumText, t.text = Text.decimal v.toInt ∧ t.meaning = some (.constant v) ∧
      ∀ c, (lastAtom t.first.atom t.more).continuedBy c = Text.isWordChar c := by
  obtain ⟨s, -, htext, hnumber, hname⟩ :=
    exists_summand v (if v.toInt < 0 then ['-'] else []) (by split <;> rfl)
      (by split <;> simp [isNegative, *])
  refine ⟨⟨s, [], rfl⟩, ?_, ?_, fun c => ?_⟩
  · simp only [SumText.text, SumText.summands, List.flatMap_singleton, htext, Text.decimal]
    split <;> rfl
  · rw [SumText.meaning_of_names_eq_nil (by simp [SumText.names, SumText.summands, hname])]
    simp [SumText.total, SumText.summands, hnumber]
  · exact Atom.continuedBy_of_name?_eq_none (Option.map_eq_none_iff.1 hname) c

/-- **The text of an expression is a sum** that means the expression. -/
theorem exists_sumText {e : Expr} (he : e.isProper = true) :
    ∃ t : SumText, t.text = e.text ∧ t.meaning = some e := by
  cases e with
  | constant v =>
    obtain ⟨t, htext, hmeaning, -⟩ := exists_sumText_decimal v
    exact ⟨t, htext, hmeaning⟩
  | symbol name addend =>
    obtain ⟨hname, hregister⟩ : isIdentifier name.toList = true ∧
        Register.isName name.toList = false := by simpa [isProper] using he
    by_cases hzero : addend = 0
    · refine ⟨⟨⟨[], .name name.toList hname, rfl⟩, [], rfl⟩, ?_, ?_⟩
      · simp [SumText.text, SumText.summands, Summand.text, Atom.text, text, hzero]
      · rw [SumText.meaning_of_names_eq_singleton (n := name.toList) rfl hregister,
          String.ofList_toList, hzero]
        rfl
    · obtain ⟨s, hrun, htext, hnumber, hnone⟩ :=
        exists_summand addend (if addend.toInt < 0 then ['-'] else ['+'])
          (by split <;> rfl) (by split <;> simp [isNegative, *])
      have hjoins : [s].all Summand.joins = true := by
        simp only [List.all_cons, List.all_nil, Bool.and_true, Summand.joins, hrun]
        split <;> rfl
      refine ⟨⟨⟨[], .name name.toList hname, rfl⟩, [s], hjoins⟩, ?_, ?_⟩
      · have hlt : addend < 0 ↔ addend.toInt < 0 := Int64.lt_iff_toInt_lt
        simp only [SumText.text, SumText.summands, List.flatMap_cons, List.flatMap_nil, htext,
          text, if_neg hzero, hlt, Text.decimal]
        split <;> simp [Summand.text, Atom.text]
      · have hnames : SumText.names ⟨⟨[], .name name.toList hname, rfl⟩, [s], hjoins⟩ =
            (false, name.toList) :: [s].filterMap Summand.name? := rfl
        rw [SumText.meaning_of_names_eq_singleton (hnames.trans (by simp [hnone])) hregister,
          String.ofList_toList]
        have hplain : Summand.number ⟨[], .name name.toList hname, rfl⟩ = 0 := rfl
        simp [SumText.total, SumText.summands, hnumber, hplain]
  | register name =>
    refine ⟨⟨⟨[], .name name.toList (isIdentifier_of_isName he), rfl⟩, [], rfl⟩, ?_, ?_⟩
    · simp [SumText.text, SumText.summands, Summand.text, Atom.text, text]
    · have hname : Register.isName name.toList = true := he
      simp [SumText.meaning, SumText.names, SumText.summands, Summand.name?, Atom.name?,
        isNegative, hname]

end Expr

/-- **Expressions are read back as they are written.** The basic evaluator gives every constant,
every symbol with any addend and every register back from its text, together with the text after
it. -/
theorem basic_reads_display {e : Expr} (he : e.isProper = true) {rest : List Char}
    (hrest : Evaluator.EndsExpr rest) :
    Evaluator.basic (e.display.toList ++ rest) = some (e, rest) := by
  obtain ⟨t, htext, hmeaning⟩ := e.exists_sumText he
  rw [Expr.display, String.toList_ofList, ← htext,
    Evaluator.basic_text_append t (hrest.endsBefore t), t.toExpr?_summands, hmeaning]
  rfl

/-- The least addend stands after its name without a plus sign, and comes back from there. -/
theorem basic_reads_display_least :
    (Expr.symbol "a0.end" Int64.minValue).display = "a0.end-9223372036854775808" ∧
      (Expr.symbol "a0.end" Int64.minValue).isProper = true ∧
      Evaluator.EndsExpr " (a0)".toList ∧
      Evaluator.basic ((Expr.symbol "a0.end" Int64.minValue).display.toList ++ " (a0)".toList) =
        some (.symbol "a0.end" Int64.minValue, " (a0)".toList) := by
  have hproper : (Expr.symbol "a0.end" Int64.minValue).isProper = true := by decide +kernel
  have hends : Evaluator.EndsExpr " (a0)".toList := by
    constructor
    · rintro c hc
      cases hc
      rfl
    · rintro c hc
      cases hc
      decide
  exact ⟨by decide +kernel, hproper, hends, basic_reads_display hproper hends⟩

end RiscvAssembler
