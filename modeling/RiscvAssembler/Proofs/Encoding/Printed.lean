import Mathlib.Algebra.Order.Ring.Int
import RiscvAssembler.Proofs.Encoding.Token
import RiscvAssembler.Proofs.Expr.Display
import RiscvAssembler.Proofs.Text.Numeral
import RiscvAssembler.Pseudo.Expansion

/-!
Operand text that is written and read again. Registers by number and constants in decimal read
back as what they were written for, whatever mark follows them. So a text printed from tokens
spells these tokens to all operands that take them (`spells_print`).
-/

namespace RiscvAssembler

/-- The next text cannot be part of a word. -/
def EndsWord (rest : List Char) : Prop :=
  ∀ c ∈ rest.head?, Text.isWordChar c = false

/-! ### Registers -/

/-- The text of a register, by its number. -/
def Bank.print : Bank → Nat → List Char
  | .integer, n => Expansion.integer n
  | .float, n => Expansion.float n

theorem Text.isWordChar_of_mem_decimal {n : Nat} {c : Char} (h : c ∈ Text.decimal n) :
    Text.isWordChar c = true := by
  have hdigit := Text.isDigit_of_mem_decimal h
  simp [Text.isWordChar, Char.isAlphanum, hdigit]

theorem Bank.isWordChar_of_mem_print {bank : Bank} {n : Nat} {c : Char} (h : c ∈ bank.print n) :
    Text.isWordChar c = true := by
  cases bank <;> rcases List.mem_cons.1 h with rfl | hdecimal
  · rfl
  · exact Text.isWordChar_of_mem_decimal hdecimal
  · rfl
  · exact Text.isWordChar_of_mem_decimal hdecimal

/-- Every register has a name made of its number. -/
theorem Register.lookup_print_names (bank : Bank) : ∀ n < 32,
    (names bank).lookup (String.ofList ((bank.print n).map Char.toLower)) = some n := by
  cases bank <;> decide

theorem Register.lookup_print {bank : Bank} {reduced : Bool} {n : Nat} {rest : List Char}
    (hn : n < 32) (hreduced : reduced = true → bank = .integer → n < 16) (hrest : EndsWord rest) :
    lookup bank reduced (bank.print n ++ rest) = some (n, rest) := by
  have hname := lookup_print_names bank n hn
  have hword : ∀ c ∈ bank.print n, Text.isWordChar c = true :=
    fun c hc => Bank.isWordChar_of_mem_print hc
  have hfound : lookupAnyCase (names bank) (bank.print n ++ rest) = some (n, rest) := by
    unfold lookupAnyCase
    rw [Text.takeWhile_run hword hrest, Text.dropWhile_run hword hrest, hname]
    rfl
  unfold lookup
  rw [hfound, Option.filter_some, if_pos]
  cases reduced with
  | false => rfl
  | true =>
    cases bank with
    | float => rfl
    | integer =>
      have := hreduced rfl rfl
      simp
      omega

/-! ### Constants -/

/-- Digits start with a digit, and so with nothing else. -/
theorem exists_digit_of_toDigits (n : Nat) :
    ∃ d digits, Nat.toDigits 10 n = d :: digits ∧ d.isDigit = true ∧
      ∀ c : Char, c.isDigit = false → d ≠ c := by
  obtain ⟨d, digits, hd⟩ := Text.exists_cons_of_decimal n
  have hdigit : d.isDigit = true := Text.isDigit_of_mem_decimal (hd ▸ List.mem_cons_self)
  refine ⟨d, digits, Text.decimal_natCast n ▸ hd, hdigit, ?_⟩
  rintro c hc rfl
  rw [hdigit] at hc
  cases hc

namespace Evaluator

/-- The text after an expression: nothing, or a mark. -/
def EndsSum (rest : List Char) : Prop :=
  ∀ c ∈ rest.head?, Text.isWordChar c = false ∧ Text.isBlank c = false ∧ c ≠ '+' ∧ c ≠ '-'

theorem EndsSum.dropBlanks {rest : List Char} (h : EndsSum rest) : Text.dropBlanks rest = rest := by
  cases rest with
  | nil => rfl
  | cons c rest => exact List.dropWhile_cons_of_neg (by simp [(h c rfl).2.1])

/-- **A constant reads back as itself.** -/
theorem basic_decimal {v : Int64} {rest : List Char} (hrest : EndsSum rest) :
    basic (Text.decimal v.toInt ++ rest) = some (.constant v, rest) := by
  obtain ⟨t, htext, hmeaning, hword⟩ := Expr.exists_sumText_decimal v
  have hends : t.EndsBefore rest := by
    refine ⟨fun c hc => ?_, fun c hc => ?_⟩
    · rw [hword]
      exact (hrest c hc).1
    · rw [hrest.dropBlanks] at hc
      exact (hrest c hc).2.2
  rw [← htext, basic_text_append t hends, t.toExpr?_summands, hmeaning]
  rfl

end Evaluator

/-! ### Tokens -/

namespace Token

/-- The text of a token, with a blank after a comma. -/
def print : Token → List Char
  | .mark .comma => [',', ' ']
  | .mark m => [m.char]
  | .register bank n => bank.print n
  | .constant v => Text.decimal v.toInt
  | .symbol name _ => name.toList

/-- Whether a token is a mark. -/
def isMark : Token → Bool
  | .mark _ => true
  | _ => false

/-- Tokens that read back: registers that exist, and constants that are the same for registers of
all widths. -/
def Legible (ctx : Context) : Token → Prop
  | .mark _ => True
  | .register bank n => n < 32 ∧ (ctx.reduced = true → bank = .integer → n < 16)
  | .constant v => -0x80000000 ≤ v ∧ v < 0x80000000
  | .symbol .. => False

end Token

/-- Tokens with a mark between any two others. -/
def Punctuated : List Token → Prop
  | [] => True
  | [_] => True
  | τ :: τ' :: τs => (τ.isMark = true ∨ τ'.isMark = true) ∧ Punctuated (τ' :: τs)

/-- The text of tokens. -/
def printTokens (τs : List Token) : List Char :=
  τs.flatMap Token.print

/-- A legible token starts with no blank, and with a parenthesis only if it is a mark. -/
theorem Token.exists_cons_of_print {ctx : Context} {τ : Token} (h : τ.Legible ctx) :
    ∃ c r, τ.print = c :: r ∧ Text.isBlank c = false ∧ (τ.isMark = false → c ≠ '(') := by
  cases τ with
  | mark m => cases m <;> exact ⟨_, _, rfl, rfl, fun h => by cases h⟩
  | register bank n => cases bank <;> exact ⟨_, _, rfl, rfl, fun _ => by decide⟩
  | constant v =>
    obtain ⟨d, digits, hd, -, hne⟩ := exists_digit_of_toDigits v.toInt.natAbs
    change ∃ c r, Text.decimal v.toInt = c :: r ∧ _
    unfold Text.decimal
    by_cases hneg : v.toInt < 0
    · rw [if_pos hneg]
      exact ⟨_, _, rfl, rfl, fun _ => by decide⟩
    · rw [if_neg hneg]
      refine ⟨d, digits, hd, ?_, fun _ => hne '(' rfl⟩
      simp [Text.isBlank, hne ' ' rfl, hne '\t' rfl]
  | symbol name addend => cases h

theorem dropBlanks_printTokens {ctx : Context} {τs : List Token}
    (h : ∀ τ ∈ τs, τ.Legible ctx) : Text.dropBlanks (printTokens τs) = printTokens τs := by
  cases τs with
  | nil => rfl
  | cons τ τs =>
    obtain ⟨c, r, hprint, hblank, -⟩ := Token.exists_cons_of_print (h τ List.mem_cons_self)
    rw [printTokens, List.flatMap_cons, hprint, List.cons_append, Text.dropBlanks,
      List.dropWhile_cons_of_neg (by simp [hblank])]

/-- Nothing or a mark follows a register and a constant. -/
theorem Punctuated.endsSum {τ : Token} {τs : List Token} (h : Punctuated (τ :: τs))
    (hτ : τ.isMark = false) : Evaluator.EndsSum (printTokens τs) := by
  cases τs with
  | nil =>
    intro c hc
    cases hc
  | cons τ' τs =>
    have hmark : τ'.isMark = true := by
      rcases h.1 with h | h
      · rw [hτ] at h
        cases h
      · exact h
    cases τ' with
    | mark m =>
      cases m <;>
        · intro c hc
          cases hc
          decide
    | _ => cases hmark

theorem Punctuated.tail {τ : Token} {τs : List Token} (h : Punctuated (τ :: τs)) :
    Punctuated τs := by
  cases τs with
  | nil => trivial
  | cons τ' τs => exact h.2

theorem Operand.not_mayBeOmitted_of_takes {x : Xlen} {op : Operand} {word : Word} {τ : Token}
    (h : op.Takes x word τ) (hτ : ∀ v, τ ≠ .constant v) : op.mayBeOmitted = false := by
  cases op with
  | imm12 i =>
    cases τ with
    | constant v => exact absurd rfl (hτ v)
    | _ => cases h
  | compressedImm i =>
    obtain ⟨v, rfl, -⟩ := takes_compressedImm_iff.1 h
    exact absurd rfl (hτ v)
  | zeroOffset => cases τ <;> cases h
  | _ => rfl

theorem Context.expression_print {ctx : Context} (hev : ctx.evaluator = .basic) {v : Int64}
    (hv : -0x80000000 ≤ v ∧ v < 0x80000000) {rest : List Char} (hrest : Evaluator.EndsSum rest) :
    ctx.expression (Text.decimal v.toInt ++ rest) = some (.constant v, rest) := by
  unfold expression
  rw [hev, Evaluator.basic_decimal hrest, Option.map_some]
  unfold normalize
  dsimp only
  rw [if_neg]
  rintro ⟨-, hlow, -⟩
  exact absurd (Int64.lt_of_le_of_lt hlow hv.2) (by decide)

/-- One token at the front of what was printed. -/
theorem Token.at_print {ctx : Context} (hev : ctx.evaluator = .basic) {op : Operand} {word : Word}
    {τ : Token} {τs : List Token} (htakes : op.Takes ctx.isa.xlen word τ) (hτ : τ.Legible ctx)
    (hτs : ∀ τ ∈ τs, τ.Legible ctx) (hpunct : Punctuated (τ :: τs)) :
    ∃ rest, τ.At ctx op.mayBeOmitted (printTokens (τ :: τs)) rest ∧
      Text.dropBlanks rest = printTokens τs := by
  have hblanks := dropBlanks_printTokens hτs
  have htext : printTokens (τ :: τs) = τ.print ++ printTokens τs := rfl
  rw [htext]
  unfold At
  cases τ with
  | mark m =>
    rw [Operand.not_mayBeOmitted_of_takes htakes (fun v => Token.noConfusion)]
    cases m with
    | comma => exact ⟨' ' :: printTokens τs, rfl, hblanks⟩
    | leftParen => exact ⟨printTokens τs, rfl, hblanks⟩
    | rightParen => exact ⟨printTokens τs, rfl, hblanks⟩
  | register bank n =>
    rw [Operand.not_mayBeOmitted_of_takes htakes (fun v => Token.noConfusion)]
    refine ⟨printTokens τs, ?_, hblanks⟩
    exact Register.lookup_print hτ.1 hτ.2 fun c hc => (hpunct.endsSum rfl c hc).1
  | constant v =>
    refine ⟨printTokens τs, ?_, hblanks⟩
    rw [if_neg]
    · exact Context.expression_print hev hτ (hpunct.endsSum rfl)
    · rintro ⟨-, hbase⟩
      obtain ⟨c, r, hprint, -, hc⟩ := Token.exists_cons_of_print hτ
      rw [hprint, List.cons_append] at hbase
      unfold Reading.baseFollows at hbase
      split at hbase
      · rename_i heq
        cases heq
        exact hc rfl rfl
      · cases hbase
  | symbol name addend => cases hτ

/-- **Printed tokens spell themselves** to operands that take them. -/
theorem spells_print {ctx : Context} (hev : ctx.evaluator = .basic) {d : Draft}
    {ops : List Operand} {τs : List Token} (htakes : TakesAll ctx.isa.xlen d ops τs)
    (hlegible : ∀ τ ∈ τs, τ.Legible ctx) (hpunct : Punctuated τs) {s : List Char}
    (hs : Text.dropBlanks s = printTokens τs) : Spells ctx ops s τs := by
  induction ops generalizing d τs s with
  | nil =>
    cases τs with
    | nil => exact ⟨rfl, by rw [hs]; rfl⟩
    | cons τ τs => cases htakes
  | cons op ops ih =>
    cases τs with
    | nil => cases htakes
    | cons τ τs =>
      obtain ⟨htake, htakes⟩ := htakes
      obtain ⟨hτ, hτs⟩ := List.forall_mem_cons.1 hlegible
      obtain ⟨rest, hat, hrest⟩ := Token.at_print hev htake hτ hτs hpunct
      exact ⟨τ, rest, τs, rfl, hs ▸ hat, ih htakes hτs hpunct.tail hrest⟩

end RiscvAssembler
