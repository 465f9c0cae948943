import RiscvAssembler.Encoding.Basic
import RiscvAssembler.Proofs.Except
import RiscvAssembler.Proofs.Expr.Evaluator

/-!
Operand text as tokens. Most operands take one token each: a mark, a register, a constant or a
symbol. So what a template makes of a text is settled by the tokens that the text spells and by what
its operands take (`readOperands_of_takesAll`), and templates whose operands take the same tokens read
the same texts.
-/

namespace RiscvAssembler

/-- A piece of operand text. -/
inductive Token where
  | mark (m : Mark)
  | register (bank : Bank) (n : Nat)
  | constant (v : Int64)
  | symbol (name : String) (addend : Int64)
deriving DecidableEq, Repr

namespace Token

/-- The value that a token puts into the word. -/
def value : Token → Int64
  | .register _ n => Int64.ofNat n
  | .constant v => v
  | _ => 0

/-- A token at the front of a text that has no leading blanks, and the rest. With `omitted`, nothing
at all before a base register stands for zero. -/
def At (ctx : Context) (omitted : Bool) (s : List Char) (τ : Token) (rest : List Char) : Prop :=
  if omitted ∧ Reading.baseFollows s then τ = .constant 0 ∧ rest = s
  else
    match τ with
    | .mark m => Text.afterChar? m.char s = some rest
    | .register bank n => ctx.register bank s = some (n, rest)
    | .constant v => ctx.expression s = some (.constant v, rest)
    | .symbol name addend => ctx.expression s = some (.symbol name addend, rest)

end Token

namespace Operand

/-- Whether an operand takes a token, where `word` is the word so far. -/
def Takes (x : Xlen) (op : Operand) (word : Word) (τ : Token) : Prop :=
  match op, τ with
  | .mark m, .mark m' => m' = m
  | .register bank _, .register bank' _ => bank' = bank
  | .shortRegister bank _, .register bank' n => bank' = bank ∧ 8 ≤ n ∧ n < 16
  | .repeated slot, .register .integer n => n = slot.number word
  | .fixed r, .register .integer n => n = r.number
  | .compressedImm i, .constant v => i.allows x v = true
  | .zero, .constant v => v = 0
  | .imm12 _, .constant v => -2048 ≤ v ∧ v ≤ 2047
  | .ranged r, .constant v => 0 ≤ v ∧ v ≤ r.limit x
  | .upper, .constant v => 0 ≤ v ∧ v ≤ 0xfffff
  | .constant, .constant _ => True
  | .target _, .symbol _ _ => True
  | _, _ => False

/-- How an operand reads a token that it takes. -/
def reading (op : Operand) (τ : Token) : Reading :=
  match op, τ with
  | .target k, .symbol name addend => .pending (.symbol name addend) (some k.reloc)
  | .constant, .constant v => .pending (.constant v) none
  | .mark _, _ => .nothing
  | .repeated _, _ => .nothing
  | .fixed _, _ => .nothing
  | _, τ => .value τ.value

/-- Whether an operand takes tokens only: no modifiers, names or keywords. -/
def isDirect : Operand → Bool
  | .mark _ | .register .. | .shortRegister .. | .repeated _ | .fixed _ | .compressedImm _
  | .zero | .target _ => true
  | _ => false

/-! The tokens of each kind of operand. -/

section Takes

attribute [local simp] Takes

variable {x : Xlen} {word : Word} {τ : Token}

@[simp] theorem takes_mark_iff {m : Mark} : (mark m).Takes x word τ ↔ τ = .mark m := by
  cases τ <;> simp

@[simp] theorem takes_register_iff {bank : Bank} {slot : RegisterSlot} :
    (register bank slot).Takes x word τ ↔ ∃ n, τ = .register bank n := by
  cases τ <;> simp

@[simp] theorem takes_shortRegister_iff {bank : Bank} {slot : ShortSlot} :
    (shortRegister bank slot).Takes x word τ ↔ ∃ n, τ = .register bank n ∧ 8 ≤ n ∧ n < 16 := by
  cases τ <;> simp [and_assoc]

@[simp] theorem takes_repeated_iff {slot : RepeatedSlot} :
    (repeated slot).Takes x word τ ↔ τ = .register .integer (slot.number word) := by
  cases τ with
  | register bank n => cases bank <;> simp
  | _ => simp

@[simp] theorem takes_fixed_iff {r : FixedRegister} :
    (fixed r).Takes x word τ ↔ τ = .register .integer r.number := by
  cases τ with
  | register bank n => cases bank <;> simp
  | _ => simp

@[simp] theorem takes_compressedImm_iff {i : CompressedImm} :
    (compressedImm i).Takes x word τ ↔ ∃ v, τ = .constant v ∧ i.allows x v = true := by
  cases τ <;> simp

@[simp] theorem takes_zero_iff : zero.Takes x word τ ↔ τ = .constant 0 := by
  cases τ <;> simp

@[simp] theorem takes_target_iff {k : BranchKind} :
    (target k).Takes x word τ ↔ ∃ name addend, τ = .symbol name addend := by
  cases τ <;> simp

end Takes

end Operand

/-! ### Parts of operands -/

namespace Reading

variable {ctx : Context} {s rest : List Char} {r : Reading}

theorem fit_eq_ok_iff {α : Type} {o : Option α} {a : α} : fit o = .ok a ↔ o = some a := by
  cases o <;> simp [fit]

theorem number_eq_ok_iff {found : Option (Nat × List Char)} :
    number found = .ok (r, rest) ↔
      ∃ n, found = some (n, rest) ∧ r = .value (Int64.ofNat n) := by
  cases found with
  | none => simp [number, fit, Except.map]
  | some pair =>
    obtain ⟨n, rest'⟩ := pair
    simp only [number, fit, Except.map, Except.ok.injEq, Prod.mk.injEq, Option.some.injEq]
    constructor
    · rintro ⟨rfl, rfl⟩
      exact ⟨n, ⟨rfl, rfl⟩, rfl⟩
    · rintro ⟨_, ⟨rfl, rfl⟩, rfl⟩
      exact ⟨rfl, rfl⟩

theorem sameRegister_eq_ok_iff {expected : Nat} :
    sameRegister ctx expected s = .ok (r, rest) ↔
      ctx.register .integer s = some (expected, rest) ∧ r = .nothing := by
  unfold sameRegister
  constructor
  · intro h
    obtain ⟨⟨n, rest'⟩, hfit, h⟩ := bind_eq_ok_iff.1 h
    dsimp only at h
    split at h
    · rename_i hn
      cases h
      exact ⟨hn ▸ fit_eq_ok_iff.1 hfit, rfl⟩
    · cases h
  · rintro ⟨hreg, rfl⟩
    exact bind_eq_ok_iff.2 ⟨_, fit_eq_ok_iff.2 hreg, if_pos rfl⟩

theorem constantWith_eq_ok_iff {allowed : Int64 → Bool} :
    constantWith ctx allowed s = .ok (r, rest) ↔
      ∃ v, ctx.expression s = some (.constant v, rest) ∧ allowed v = true ∧ r = .value v := by
  unfold constantWith
  constructor
  · intro h
    split at h
    · rename_i v rest' hexpr
      split at h
      · rename_i hv
        cases h
        exact ⟨v, hexpr, hv, rfl⟩
      · cases h
    · cases h
  · rintro ⟨v, hexpr, hv, rfl⟩
    simp [hexpr, hv]

theorem symbol_eq_ok_iff {kind : RelocType} :
    symbol ctx kind s = .ok (r, rest) ↔
      ∃ name addend, ctx.expression s = some (.symbol name addend, rest) ∧
        r = .pending (.symbol name addend) (some kind) := by
  unfold symbol
  constructor
  · intro h
    split at h
    · rename_i name addend rest' hexpr
      cases h
      exact ⟨name, addend, hexpr, rfl⟩
    · cases h
  · rintro ⟨name, addend, hexpr, rfl⟩
    simp [hexpr]

/-! None of these parts ends the search. -/

section Refusals

variable {e : Refusal}

theorem refusal_of_number {found : Option (Nat × List Char)} (h : number found = .error e) :
    e = .differs := by
  cases found with
  | none => exact (Except.error.inj h).symm
  | some pair => cases h

theorem refusal_of_sameRegister {expected : Nat} (h : sameRegister ctx expected s = .error e) :
    e = .differs := by
  unfold sameRegister at h
  cases hreg : ctx.register .integer s with
  | none =>
    rw [hreg] at h
    exact (Except.error.inj h).symm
  | some pair =>
    simp only [hreg, fit, bind, Except.bind] at h
    split at h
    · cases h
    · exact (Except.error.inj h).symm

theorem refusal_of_constantWith {allowed : Int64 → Bool}
    (h : constantWith ctx allowed s = .error e) : e = .differs := by
  unfold constantWith at h
  split at h
  · split at h
    · cases h
    · exact (Except.error.inj h).symm
  · exact (Except.error.inj h).symm

theorem refusal_of_symbol {kind : RelocType} (h : symbol ctx kind s = .error e) :
    e = .differs := by
  unfold symbol at h
  split at h
  · cases h
  · exact (Except.error.inj h).symm

end Refusals

/-! ### Constants -/

theorem evaluator_of_expression {v : Int64} (h : ctx.expression s = some (.constant v, rest)) :
    ∃ w, ctx.evaluator s = some (.constant w, rest) := by
  obtain ⟨⟨e, rest'⟩, heval, h⟩ := Option.map_eq_some_iff.1 h
  cases e with
  | constant w => exact ⟨w, (Prod.mk.inj h).2 ▸ heval⟩
  | symbol name addend => cases h
  | register name => cases h

theorem modified_of_constant (hev : ctx.evaluator.Separates ctx.reduced) {v : Int64}
    (h : ctx.expression s = some (.constant v, rest)) (modifiers : Modifiers) :
    modified ctx modifiers s = .ok (none, .constant v, rest) := by
  obtain ⟨w, heval⟩ := evaluator_of_expression h
  have hplain : s.head? ≠ some '%' := fun hs => hev.modifier s hs w rest heval
  unfold modified
  rw [if_neg hplain, h]
  rfl

theorem imm12_of_constant (hev : ctx.evaluator.Separates ctx.reduced) {v : Int64}
    (h : ctx.expression s = some (.constant v, rest)) (hv : -2048 ≤ v ∧ v ≤ 2047) (i : Imm12) :
    imm12 ctx i s = .ok (.value v, rest) := by
  unfold imm12
  rw [modified_of_constant hev h]
  exact if_pos hv

theorem upper_of_constant (hev : ctx.evaluator.Separates ctx.reduced) {v : Int64}
    (h : ctx.expression s = some (.constant v, rest)) (hv : 0 ≤ v ∧ v ≤ 0xfffff) :
    upper ctx s = .ok (.value v, rest) := by
  unfold upper
  rw [modified_of_constant hev h]
  exact if_pos hv

theorem ranged_of_constant {mnemonic what : String} {limit v : Int64}
    (h : ctx.expression s = some (.constant v, rest)) (hv : 0 ≤ v ∧ v ≤ limit) :
    ranged ctx mnemonic what limit s = .ok (.value v, rest) := by
  unfold ranged upTo
  rw [h]
  simp only [if_pos hv]
  rfl

end Reading

namespace Operand

open Reading

variable {ctx : Context} {mnemonic : String} {word : Word} {op : Operand} {s rest : List Char}

theorem allows_zero_of_mayBeOmitted {x : Xlen} {i : CompressedImm}
    (h : (Operand.compressedImm i).mayBeOmitted = true) : i.allows x 0 = true := by
  cases i with
  | lw | ld | lwsp | ldsp | swsp | sdsp => rfl
  | _ => cases h

/-- What an operand that takes tokens only makes of a text. -/
theorem exists_token_of_read {r : Reading} (hdirect : op.isDirect = true)
    (h : op.read ctx mnemonic word s = .ok (r, rest)) :
    ∃ τ : Token, τ.At ctx op.mayBeOmitted s rest ∧ op.Takes ctx.isa.xlen word τ ∧
      r = op.reading τ := by
  unfold read at h
  unfold Token.At
  by_cases homitted : op.mayBeOmitted = true ∧ baseFollows s = true
  · rw [if_pos homitted] at h
    cases h
    refine ⟨.constant 0, ?_⟩
    cases op with
    | compressedImm i =>
      rw [if_pos homitted]
      exact ⟨⟨rfl, rfl⟩, allows_zero_of_mayBeOmitted homitted.1, rfl⟩
    | imm12 i => cases hdirect
    | zeroOffset => cases hdirect
    | _ => cases homitted.1
  · simp only [if_neg homitted] at h ⊢
    cases op with
    | mark m =>
      cases hafter : Text.afterChar? m.char s with
      | none => simp [fit, hafter, Except.map] at h
      | some after =>
        simp only [fit, hafter, Except.map] at h
        cases h
        exact ⟨.mark m, hafter, rfl, rfl⟩
    | register bank slot =>
      obtain ⟨n, hreg, rfl⟩ := number_eq_ok_iff.1 h
      exact ⟨.register bank n, hreg, rfl, rfl⟩
    | shortRegister bank slot =>
      obtain ⟨n, hreg, rfl⟩ := number_eq_ok_iff.1 h
      obtain ⟨hreg, hn⟩ := Option.filter_eq_some_iff.1 hreg
      exact ⟨.register bank n, hreg, ⟨rfl, of_decide_eq_true hn⟩, rfl⟩
    | repeated slot =>
      obtain ⟨hreg, rfl⟩ := sameRegister_eq_ok_iff.1 h
      exact ⟨.register .integer _, hreg, rfl, rfl⟩
    | fixed r =>
      obtain ⟨hreg, rfl⟩ := sameRegister_eq_ok_iff.1 h
      exact ⟨.register .integer _, hreg, rfl, rfl⟩
    | compressedImm i =>
      obtain ⟨v, hexpr, hv, rfl⟩ := constantWith_eq_ok_iff.1 h
      exact ⟨.constant v, hexpr, hv, rfl⟩
    | zero =>
      obtain ⟨v, hexpr, hv, rfl⟩ := constantWith_eq_ok_iff.1 h
      exact ⟨.constant v, hexpr, eq_of_beq hv, rfl⟩
    | target k =>
      obtain ⟨name, addend, hexpr, rfl⟩ := symbol_eq_ok_iff.1 h
      exact ⟨.symbol name addend, hexpr, trivial, rfl⟩
    | _ => cases hdirect

/-- Such an operand refuses a text without ending the search. -/
theorem refusal_of_read {e : Refusal} (hdirect : op.isDirect = true)
    (h : op.read ctx mnemonic word s = .error e) : e = .differs := by
  unfold read at h
  split at h
  · cases h
  · cases op with
    | mark m =>
      cases hafter : Text.afterChar? m.char s <;> simp [fit, hafter, Except.map] at h
      exact h.symm
    | register bank slot => exact refusal_of_number h
    | shortRegister bank slot => exact refusal_of_number h
    | repeated slot => exact refusal_of_sameRegister h
    | fixed r => exact refusal_of_sameRegister h
    | compressedImm i => exact refusal_of_constantWith h
    | zero => exact refusal_of_constantWith h
    | target k => exact refusal_of_symbol h
    | _ => cases hdirect

theorem read_of_takes {τ : Token} (hev : ctx.evaluator.Separates ctx.reduced)
    (hat : τ.At ctx op.mayBeOmitted s rest) (htakes : op.Takes ctx.isa.xlen word τ) :
    op.read ctx mnemonic word s = .ok (op.reading τ, rest) := by
  unfold Token.At at hat
  unfold read
  by_cases homitted : op.mayBeOmitted = true ∧ baseFollows s = true
  · rw [if_pos homitted] at hat ⊢
    obtain ⟨rfl, rfl⟩ := hat
    cases op with
    | compressedImm i => rfl
    | imm12 i => rfl
    | zeroOffset => cases htakes
    | _ => cases homitted.1
  · rw [if_neg homitted] at hat ⊢
    unfold Takes at htakes
    split at htakes
    · rename_i m m'
      subst htakes
      simp only [fit, hat, Except.map]
      rfl
    · rename_i bank slot bank' n
      subst htakes
      exact number_eq_ok_iff.2 ⟨n, hat, rfl⟩
    · rename_i bank slot bank' n
      obtain ⟨rfl, hn⟩ := htakes
      exact number_eq_ok_iff.2 ⟨n, Option.filter_eq_some_iff.2 ⟨hat, decide_eq_true hn⟩, rfl⟩
    · rename_i slot n
      subst htakes
      exact sameRegister_eq_ok_iff.2 ⟨hat, rfl⟩
    · rename_i r n
      subst htakes
      exact sameRegister_eq_ok_iff.2 ⟨hat, rfl⟩
    · rename_i i v
      exact constantWith_eq_ok_iff.2 ⟨v, hat, htakes, rfl⟩
    · rename_i v
      exact constantWith_eq_ok_iff.2 ⟨v, hat, beq_iff_eq.2 htakes, rfl⟩
    · rename_i i v
      exact imm12_of_constant hev hat htakes i
    · rename_i r v
      exact ranged_of_constant hat htakes
    · rename_i v
      exact upper_of_constant hev hat htakes
    · rename_i v
      simp only [Reading.constant, hat]
      rfl
    · rename_i k name addend
      exact symbol_eq_ok_iff.2 ⟨name, addend, hat, rfl⟩
    · cases htakes

end Operand

/-! ### Texts -/

/-- The tokens that a text spells for operands, one for each. -/
def Spells (ctx : Context) : List Operand → List Char → List Token → Prop
  | [], s, τs => τs = [] ∧ (Text.dropBlanks s).isEmpty
  | op :: ops, s, τs => ∃ τ rest τs', τs = τ :: τs' ∧
      τ.At ctx op.mayBeOmitted (Text.dropBlanks s) rest ∧ Spells ctx ops rest τs'

/-- A draft with the readings of tokens added. -/
def Draft.addTokens (d : Draft) (ops : List Operand) (τs : List Token) : Draft :=
  Template.addReadings d ops (List.zipWith Operand.reading ops τs)

/-- Operands take tokens, one each. -/
def TakesAll (x : Xlen) : (d : Draft) → List Operand → List Token → Prop
  | _, [], [] => True
  | d, op :: ops, τ :: τs => op.Takes x d.bits τ ∧ TakesAll x (d.add op (op.reading τ)) ops τs
  | _, _, _ => False

namespace Template

variable {ctx : Context} {mnemonic : String}

/-- The readings of operands that take tokens only are those of the tokens that the text spells. -/
theorem exists_tokens_of_readOperands {d : Draft} {ops : List Operand} {s : List Char}
    {rs : List Reading} (hdirect : ∀ op ∈ ops, op.isDirect = true)
    (h : readOperands ctx mnemonic d ops s = .ok rs) :
    ∃ τs, Spells ctx ops s τs ∧ TakesAll ctx.isa.xlen d ops τs ∧
      rs = List.zipWith Operand.reading ops τs := by
  induction ops generalizing d s rs with
  | nil =>
    unfold readOperands at h
    split at h
    · rename_i hend
      cases h
      exact ⟨[], ⟨rfl, hend⟩, trivial, rfl⟩
    · cases h
  | cons op ops ih =>
    obtain ⟨hop, hops⟩ := List.forall_mem_cons.1 hdirect
    obtain ⟨⟨r, rest⟩, hread, h⟩ := bind_eq_ok_iff.1 h
    obtain ⟨more, hmore, h⟩ := bind_eq_ok_iff.1 h
    cases h
    obtain ⟨τ, hat, htakes, rfl⟩ := Operand.exists_token_of_read hop hread
    obtain ⟨τs, hspells, htakesAll, rfl⟩ := ih hops hmore
    exact ⟨τ :: τs, ⟨τ, rest, τs, rfl, hat, hspells⟩, ⟨htakes, htakesAll⟩, rfl⟩

theorem refusal_of_readOperands {d : Draft} {ops : List Operand} {s : List Char} {e : Refusal}
    (hdirect : ∀ op ∈ ops, op.isDirect = true)
    (h : readOperands ctx mnemonic d ops s = .error e) : e = .differs := by
  induction ops generalizing d s with
  | nil =>
    unfold readOperands at h
    split at h
    · cases h
    · exact (Except.error.inj h).symm
  | cons op ops ih =>
    obtain ⟨hop, hops⟩ := List.forall_mem_cons.1 hdirect
    unfold readOperands at h
    cases hread : op.read ctx mnemonic d.bits (Text.dropBlanks s) with
    | error e' =>
      simp only [hread, bind, Except.bind] at h
      cases h
      exact Operand.refusal_of_read hop hread
    | ok pair =>
      obtain ⟨r, rest⟩ := pair
      simp only [hread, bind, Except.bind] at h
      cases hmore : readOperands ctx mnemonic (d.add op r) ops rest with
      | error e' =>
        simp only [hmore] at h
        cases h
        exact ih hops hmore
      | ok more =>
        simp only [hmore] at h
        cases h

theorem readOperands_of_takesAll (hev : ctx.evaluator.Separates ctx.reduced) {d : Draft}
    {ops : List Operand} {s : List Char} {τs : List Token} (hspells : Spells ctx ops s τs)
    (htakes : TakesAll ctx.isa.xlen d ops τs) :
    readOperands ctx mnemonic d ops s = .ok (List.zipWith Operand.reading ops τs) := by
  induction ops generalizing d s τs with
  | nil =>
    obtain ⟨rfl, hend⟩ := hspells
    exact if_pos hend
  | cons op ops ih =>
    obtain ⟨τ, rest, τs', rfl, hat, hspells⟩ := hspells
    obtain ⟨htake, htakes⟩ := htakes
    unfold readOperands
    rw [Operand.read_of_takes hev hat htake]
    simp only [bind, Except.bind]
    rw [ih hspells htakes]
    rfl

end Template

end RiscvAssembler
