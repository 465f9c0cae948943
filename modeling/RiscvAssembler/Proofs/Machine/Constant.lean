import RiscvAssembler.Proofs.Encoding.Exact
import RiscvAssembler.Proofs.Encoding.Expansion
import RiscvAssembler.Proofs.Machine.Effect
import RiscvAssembler.Proofs.Pseudo.Steps

/-!
What the instructions that load a constant do. Run one after another on any machine they leave the
constant in their register, cut to the width of the registers, and nothing else changed
(`loads_loadConstant`). A constant of 32 bits is its upper part plus its low part; a wider one is
the constant of its significant part shifted back (`shiftLeft_significantPart`) plus its low part. The
texts of the steps are encoded as these instructions (`Expansion.spelled_constantStep`).
-/

namespace RiscvAssembler

/-! ### Words -/

namespace Expansion

/-- The instructions that encode the steps of a constant. -/
structure ConstantWords : Prop where
  lui : exactBits? false "lui" upperOperands none .i = some 0x37
  addi : exactBits? false "addi" sumOperands none .i = some 0x13
  addiw : exactBits? false "addiw" sumOperands (some .rv64) .i = some 0x1b
  slli : exactBits? false "slli" shiftOperands none .i = some 0x1013

theorem constantWords : ConstantWords := by
  have hall :
      (exactBits? false "lui" upperOperands none .i == some 0x37 &&
        exactBits? false "addi" sumOperands none .i == some 0x13 &&
        exactBits? false "addiw" sumOperands (some .rv64) .i == some 0x1b &&
        exactBits? false "slli" shiftOperands none .i == some 0x1013) = true := by
    simp only [exactBits?, standardTemplates_eq_map]
    decide +kernel
  simp only [Bool.and_eq_true, beq_iff_eq] at hall
  obtain ⟨⟨⟨lui, addi⟩, addiw⟩, slli⟩ := hall
  exact ⟨lui, addi, addiw, slli⟩

end Expansion

/-! ### Instructions in order -/

namespace Machine

variable {x : Xlen} (m : Machine x)

@[simp] theorem read_zero : m.read 0 = 0 := if_pos rfl

theorem read_write_self {r : Reg} (hr : r ≠ 0) (value : BitVec x.bits) :
    (m.write r value).read r = value := by
  rw [read, if_neg hr, write, if_neg hr]
  exact if_pos rfl

theorem read_write_of_ne {q r : Reg} (h : q ≠ r) (value : BitVec x.bits) :
    (m.write r value).read q = m.read q := by
  unfold read write
  split
  · rfl
  · split
    · rfl
    · exact if_neg h

@[simp] theorem write_write (r : Reg) (value value' : BitVec x.bits) :
    (m.write r value).write r value' = m.write r value' := by
  unfold write
  split
  · rfl
  · simp only [mk.injEq, true_and, and_true]
    funext q
    split <;> rfl

@[simp] theorem read_goto (r : Reg) (pc : BitVec x.bits) : (m.goto pc).read r = m.read r := rfl

@[simp] theorem write_goto (r : Reg) (value pc : BitVec x.bits) :
    (m.goto pc).write r value = (m.write r value).goto pc := by
  unfold write goto
  split <;> rfl

@[simp] theorem goto_goto (pc pc' : BitVec x.bits) : (m.goto pc).goto pc' = m.goto pc' := rfl

end Machine

namespace Instr

variable {x : Xlen} {r : Reg} {value value' : BitVec x.bits}

/-- What instructions do one after another; `size` gives the bytes that each takes. -/
def execAll (size : Instr → Nat) : List Instr → Machine x → Except Trap (Machine x)
  | [], m => .ok m
  | i :: rest, m =>
    (i.exec (m.pc + BitVec.ofNat _ (size i)) (i.target m.pc) m).bind (execAll size rest)

theorem execAll_append (size : Instr → Nat) (first second : List Instr) (m : Machine x) :
    execAll size (first ++ second) m = (execAll size first m).bind (execAll size second) := by
  induction first generalizing m with
  | nil => rfl
  | cons i rest ih =>
    rw [List.cons_append, execAll, execAll]
    cases i.exec (m.pc + BitVec.ofNat _ (size i)) (i.target m.pc) m with
    | error trap => rfl
    | ok m' => exact ih m'

/-- Instructions that leave a value in a register and change nothing else but the address. -/
def Loads (instrs : List Instr) (r : Reg) (value : BitVec x.bits) : Prop :=
  ∀ (size : Instr → Nat) (m : Machine x), ∃ pc,
    execAll size instrs m = .ok ((m.write r value).goto pc)

/-- An instruction that gives a register a value wherever a condition holds. -/
def Assigns (i : Instr) (r : Reg) (value : BitVec x.bits) (p : Machine x → Prop) : Prop :=
  ∀ (next target : BitVec x.bits) (m : Machine x), p m →
    i.exec next target m = .ok ((m.write r value).goto next)

theorem Assigns.loads {i : Instr} (h : i.Assigns r value fun _ => True) : Loads [i] r value := by
  intro size m
  refine ⟨m.pc + BitVec.ofNat _ (size i), ?_⟩
  rw [execAll, h _ _ _ trivial]
  rfl

theorem Loads.append {instrs : List Instr} {i : Instr} (hr : r ≠ 0)
    (hload : Loads instrs r value) (hstep : i.Assigns r value' fun m => m.read r = value) :
    Loads (instrs ++ [i]) r value' := by
  intro size m
  obtain ⟨pc, hpc⟩ := hload size m
  have hread : ((m.write r value).goto pc).read r = value := by
    rw [Machine.read_goto, Machine.read_write_self m hr]
  refine ⟨((m.write r value).goto pc).pc + BitVec.ofNat _ (size i), ?_⟩
  rw [execAll_append, hpc, Except.bind, execAll, hstep _ _ _ hread]
  simp [Except.bind, execAll]

end Instr

/-! ### The parts of a constant -/

theorem upperPart_add_lowPart (value : Int64) :
    (upperPart value).toBitVec + (lowPart value).toBitVec = value.toBitVec := by
  rw [upperPart, Int64.toBitVec_sub, BitVec.sub_add_cancel]

/-- Twelve bits hold the low part. -/
theorem signExtend_lowPart {n : Nat} (hn : n ≤ 64) (value : Int64) :
    ((lowPart value).toBitVec.setWidth 12).signExtend n = (lowPart value).toBitVec.setWidth n := by
  have hbounds := toInt_lowPart_bounds value
  rw [BitVec.setWidth_eq_extractLsb' (by decide)]
  exact signExtend_extractLsb' (by decide) hn hbounds

theorem signExtend_of_fits32 {value : Int64} (h : fits32 value = true) :
    (value.toBitVec.setWidth 32).signExtend 64 = value.toBitVec := by
  simp only [fits32, Bool.and_eq_true, decide_eq_true_eq, Int64.le_iff_toInt_le] at h
  have hlow : (-0x80000000 : Int64).toInt = -0x80000000 := by decide
  have hhigh : (0x7fffffff : Int64).toInt = 0x7fffffff := by decide
  have hbounds : -2 ^ 31 ≤ value.toBitVec.toInt ∧ value.toBitVec.toInt < 2 ^ 31 := by
    rw [Int64.toInt_toBitVec]
    omega
  rw [BitVec.setWidth_eq_extractLsb' (by decide),
    signExtend_extractLsb' (by decide) (by decide) hbounds, BitVec.setWidth_eq]

/-- A constant that is loaded by its two parts is the signed value of its low 32 bits. -/
theorem signExtend_of_narrow {x : Xlen} {value : Int64}
    (h : ¬(x = .rv64 ∧ fits32 value = false)) :
    (value.toBitVec.setWidth 32).signExtend x.bits = value.toBitVec.setWidth x.bits := by
  cases x with
  | rv32 => exact BitVec.signExtend_eq _
  | rv64 =>
    have hfits : fits32 value = true := by simpa using h
    exact (signExtend_of_fits32 hfits).trans (BitVec.setWidth_eq _).symm

theorem setWidth_upperPart (value : Int64) : (upperPart value).toBitVec.setWidth 12 = 0#12 := by
  have hlow : (lowPart value).toBitVec.setWidth 12 = value.toBitVec.setWidth 12 := by
    rw [lowPart, Int64.toBitVec_ofBitVec, setWidth_signExtend_of_le _ (by decide),
      BitVec.signExtend_eq]
  rw [upperPart, Int64.toBitVec_sub, BitVec.sub_eq_add_neg, BitVec.setWidth_add _ _ (by decide),
    BitVec.setWidth_neg_of_le (by decide), hlow, ← BitVec.sub_eq_add_neg, BitVec.sub_self]

/-- Every bit of the upper part below the lowest one set is zero. -/
theorem getLsbD_upperPart (value : Int64) {i : Nat} (hi : i < lowestUpperBit (upperPart value)) :
    (upperPart value).toBitVec.getLsbD i = false := by
  rcases Nat.lt_or_ge i 12 with h | h
  · have hzero := congrArg (fun v => v.getLsbD i) (setWidth_upperPart value)
    simpa [h] using hzero
  · unfold lowestUpperBit at hi
    cases hfind : (List.range' 12 51).find? fun i => (upperPart value).toBitVec.getLsbD i with
    | none =>
      rw [hfind] at hi
      have hunset := List.find?_eq_none.1 hfind i (by
        rw [List.mem_range'_1]
        exact ⟨h, hi⟩)
      simpa using hunset
    | some j =>
      rw [hfind] at hi
      have hunset := (List.find?_range'_eq_some.1 hfind).2.2 i h hi
      simpa using hunset

/-- The significant part, shifted back, is the upper part. -/
theorem shiftLeft_significantPart (value : Int64) :
    (significantPart value).toBitVec <<< lowestUpperBit (upperPart value) =
      (upperPart value).toBitVec := by
  have hbound := lowestUpperBit_le (upperPart value)
  apply BitVec.eq_of_getLsbD_eq
  intro i hi
  rw [BitVec.getLsbD_shiftLeft, significantPart, Int64.toBitVec_ofBitVec,
    BitVec.getLsbD_sshiftRight]
  rcases Nat.lt_or_ge i (lowestUpperBit (upperPart value)) with h | h
  · simp [h, getLsbD_upperPart value h]
  · simp [hi, Nat.not_lt.2 h, Nat.add_sub_cancel' h]
    omega

/-- The two halves of a narrow constant add up in 32 bits. -/
theorem setWidth_parts (value : Int64) :
    (upperPart value).toBitVec.setWidth 32 + (lowPart value).toBitVec.setWidth 32 =
      value.toBitVec.setWidth 32 := by
  rw [← BitVec.setWidth_add _ _ (by decide), upperPart_add_lowPart]

/-- The upper immediate of a constant is its upper part in 32 bits. -/
theorem upperPart_append_zero (value : Int64) :
    (upperPart value).toBitVec.extractLsb' 12 20 ++ 0#12 =
      (upperPart value).toBitVec.setWidth 32 := by
  have hzero := setWidth_upperPart value
  rw [BitVec.setWidth_eq_extractLsb' (by decide)] at hzero ⊢
  exact extractLsb'_append_zero hzero

/-! ### Sequences -/

section Sequences

open Instr

variable {x : Xlen} {reg : Nat}

/-- The addition that ends a narrow constant, by the width of the registers. -/
def Operation.narrowSum : Xlen → Operation
  | .rv32 => .add
  | .rv64 => .addw

theorem narrowSum_parts (value : Int64) {a : BitVec x.bits}
    (ha : a.setWidth 32 = (upperPart value).toBitVec.setWidth 32) :
    (Operation.narrowSum x).result a (((lowPart value).toBitVec.setWidth 12).signExtend x.bits) =
      (value.toBitVec.setWidth 32).signExtend x.bits := by
  cases x with
  | rv32 =>
    have hupper : a = (upperPart value).toBitVec.setWidth 32 :=
      (BitVec.setWidth_eq a).symm.trans ha
    rw [signExtend_lowPart (by decide), hupper]
    exact (setWidth_parts value).trans (BitVec.signExtend_eq _).symm
  | rv64 =>
    rw [signExtend_lowPart (by decide), ← setWidth_parts, ← ha]
    show (_ + ((lowPart value).toBitVec.setWidth 64).setWidth 32).signExtend 64 = _
    rw [BitVec.setWidth_eq]
    rfl

theorem map_instr_loadNarrow (h : reg ≠ 0) (value : Int64) :
    (loadNarrow x reg value).map ConstantStep.instr =
      let r := BitVec.ofNat 5 reg
      let upper := Instr.lui r ((upperPart value).toBitVec.extractLsb' 12 20)
      let add := Instr.opImm (.narrowSum x) r (if upperPart value = 0 then 0 else r)
        ((lowPart value).toBitVec.setWidth 12)
      if upperPart value = 0 then [add] else if lowPart value = 0 then [upper] else [upper, add] := by
  dsimp only [loadNarrow]
  generalize (upperPart value).toBitVec.extractLsb' 12 20 = upper
  by_cases hupper : upperPart value = 0
  · cases x <;> simp [hupper, ConstantStep.instr, Operation.narrowSum]
  · by_cases hlow : lowPart value = 0
    · simp [hupper, hlow, h, ConstantStep.instr]
    · cases x <;> simp [hupper, hlow, ConstantStep.instr, Operation.narrowSum]

/-- A narrow constant is loaded as the signed value of its low 32 bits. -/
theorem loads_loadNarrow (hr : BitVec.ofNat 5 reg ≠ 0) (value : Int64) :
    Loads ((loadNarrow x reg value).map ConstantStep.instr) (BitVec.ofNat 5 reg)
      ((value.toBitVec.setWidth 32).signExtend x.bits) := by
  have hlui : (Instr.lui (BitVec.ofNat 5 reg) ((upperPart value).toBitVec.extractLsb' 12 20)).Assigns
      (BitVec.ofNat 5 reg) (((upperPart value).toBitVec.setWidth 32).signExtend x.bits)
      fun _ => True := by
    intro next target m _
    rw [Instr.exec, upperPart_append_zero]
  have hreg : reg ≠ 0 := fun h => hr (h ▸ rfl)
  rw [map_instr_loadNarrow hreg]
  dsimp only
  by_cases hupper : upperPart value = 0
  · rw [if_pos hupper, if_pos hupper]
    have hzero : (0 : BitVec x.bits).setWidth 32 = (upperPart value).toBitVec.setWidth 32 := by
      rw [hupper]
      exact (BitVec.setWidth_zero 32 x.bits).trans (BitVec.setWidth_zero 32 64).symm
    refine Instr.Assigns.loads fun next target m _ => ?_
    rw [Instr.exec, Machine.read_zero, narrowSum_parts value hzero]
  · rw [if_neg hupper, if_neg hupper]
    by_cases hlow : lowPart value = 0
    · rw [if_pos hlow]
      have hvalue : (upperPart value).toBitVec = value.toBitVec := by
        rw [← upperPart_add_lowPart value, hlow]
        exact (BitVec.add_zero _).symm
      rw [← hvalue]
      exact hlui.loads
    · rw [if_neg hlow]
      refine hlui.loads.append hr ?_
      intro next target m hread
      have hwide : 32 ≤ x.bits := by cases x <;> decide
      have hsource : (m.read (BitVec.ofNat 5 reg)).setWidth 32 =
          (upperPart value).toBitVec.setWidth 32 := by
        rw [hread, setWidth_signExtend_of_le _ hwide, BitVec.signExtend_eq]
      rw [Instr.exec, narrowSum_parts value hsource]

/-- The shift of a wide constant makes its upper part of the significant one. -/
theorem sets_shift (value : Int64) :
    (ConstantStep.slli reg reg (lowestUpperBit (upperPart value))).instr.Assigns (x := .rv64)
      (BitVec.ofNat 5 reg) (upperPart value).toBitVec
      fun m => m.read (BitVec.ofNat 5 reg) = (significantPart value).toBitVec := by
  intro next target m hread
  have hbound := lowestUpperBit_le (upperPart value)
  have hamount : (BitVec.ofNat 6 (lowestUpperBit (upperPart value))).toNat =
      lowestUpperBit (upperPart value) := by
    rw [BitVec.toNat_ofNat, Nat.mod_eq_of_lt (by omega)]
  rw [ConstantStep.instr, Instr.exec, hread, hamount, ← shiftLeft_significantPart value]
  rfl

/-- The addition of a wide constant makes it of its upper part. -/
theorem sets_sum (value : Int64) :
    (ConstantStep.addi reg reg (lowPart value)).instr.Assigns (x := .rv64) (BitVec.ofNat 5 reg)
      value.toBitVec fun m => m.read (BitVec.ofNat 5 reg) = (upperPart value).toBitVec := by
  intro next target m hread
  have hlow : ((lowPart value).toBitVec.setWidth 12).signExtend Xlen.rv64.bits =
      (lowPart value).toBitVec :=
    (signExtend_lowPart (by decide) value).trans (BitVec.setWidth_eq _)
  rw [ConstantStep.instr, Instr.exec, hread, hlow, ← upperPart_add_lowPart value]
  rfl

/-- **Constants are loaded.** On registers of 64 bits the whole constant is, on registers of 32 bits
its low half. -/
theorem loads_loadConstant (hr : BitVec.ofNat 5 reg ≠ 0) (value : Int64) :
    Loads ((loadConstant x reg value).map ConstantStep.instr) (BitVec.ofNat 5 reg)
      (value.toBitVec.setWidth x.bits) := by
  fun_induction loadConstant x reg value with
  | case1 value hwide low ih =>
    obtain ⟨rfl, -⟩ := hwide
    have hupper := Instr.Loads.append hr ih (sets_shift value)
    have hvalue : value.toBitVec.setWidth Xlen.rv64.bits = value.toBitVec := BitVec.setWidth_eq _
    rw [hvalue]
    by_cases hlow : low = 0
    · have hparts : (upperPart value).toBitVec = value.toBitVec := by
        rw [← upperPart_add_lowPart value, show lowPart value = 0 from hlow]
        exact (BitVec.add_zero _).symm
      rw [if_pos hlow, List.map_append, ← hparts]
      exact hupper
    · have hsum := Instr.Loads.append hr hupper (sets_sum value)
      rw [List.append_assoc] at hsum
      rw [if_neg hlow, List.map_append]
      exact hsum
  | case2 value hnarrow =>
    rw [← signExtend_of_narrow hnarrow]
    exact loads_loadNarrow hr value

end Sequences

/-! ### Sizes -/

/-- The range of the number that a step takes. -/
def ConstantStep.InRange : ConstantStep → Prop
  | .lui _ upper => upper ≤ 0xfffff
  | .addi _ _ imm => -2048 ≤ imm ∧ imm ≤ 2047
  | .addiw _ _ imm => -2048 ≤ imm ∧ imm ≤ 2047
  | .slli _ _ amount => 12 ≤ amount ∧ amount ≤ 63

theorem twelve_le_of_slli {x : Xlen} {reg rd rs amount : Nat} {value : Int64}
    (h : .slli rd rs amount ∈ loadConstant x reg value) : 12 ≤ amount := by
  fun_induction loadConstant x reg value with
  | case1 value hwide low ih =>
    rcases List.mem_append.1 h with h | h
    · exact ih h
    · rcases List.mem_cons.1 h with h | h
      · cases h
        exact twelve_le_lowestUpperBit _
      · split at h <;> simp at h
  | case2 value hnarrow =>
    dsimp only [loadNarrow] at h
    cases x <;> grind

theorem inRange_loadConstant (x : Xlen) (reg : Nat) (value : Int64) :
    ∀ step ∈ loadConstant x reg value, step.InRange := by
  intro step hstep
  have hfits := fits_loadConstant x reg value step hstep
  cases step with
  | lui rd upper => exact hfits.2
  | addi rd rs imm => exact hfits.2.2
  | addiw rd rs imm => exact hfits.2.2.2
  | slli rd rs amount => exact ⟨twelve_le_of_slli hstep, hfits.2.2.2⟩

/-- Each shift leaves at least eleven bits fewer. -/
theorem natAbs_significantPart_lt_of_lt {value : Int64} {k : Nat}
    (h : value.toInt.natAbs < 2 ^ (31 + 11 * (k + 1))) :
    (significantPart value).toInt.natAbs < 2 ^ (31 + 11 * k) := by
  have hupper := natAbs_upperPart_le value
  have hshrink := natAbs_significantPart_le value
  have hpow : 2 ^ (31 + 11 * (k + 1)) = 2 ^ (31 + 11 * k) * 2048 := by
    rw [show 31 + 11 * (k + 1) = 31 + 11 * k + 11 by omega, Nat.pow_add]
  have hlarge : 2 ^ 31 ≤ 2 ^ (31 + 11 * k) := Nat.pow_le_pow_right (by decide) (by omega)
  omega

theorem length_loadNarrow_le (x : Xlen) (reg : Nat) (value : Int64) :
    (loadNarrow x reg value).length ≤ 2 := by
  dsimp only [loadNarrow]
  cases x <;> grind

/-- A constant of `31 + 11 * k` bits takes two steps, and two more for each shift. -/
theorem length_loadConstant_le {reg : Nat} {value : Int64} {k : Nat}
    (h : value.toInt.natAbs < 2 ^ (31 + 11 * k)) :
    (loadConstant .rv64 reg value).length ≤ 2 + 2 * k := by
  induction k generalizing value with
  | zero =>
    have hfits : fits32 value = true := by
      by_contra hwide
      have hlow : (-0x80000000 : Int64).toInt = -0x80000000 := by decide
      have hhigh : (0x7fffffff : Int64).toInt = 0x7fffffff := by decide
      simp only [fits32, Bool.and_eq_true, decide_eq_true_eq, Int64.le_iff_toInt_le] at hwide
      omega
    rw [loadConstant, dif_neg (by simp [hfits])]
    exact length_loadNarrow_le .rv64 reg value
  | succ k ih =>
    rw [loadConstant]
    split
    · have hrest := ih (natAbs_significantPart_lt_of_lt h)
      simp only [List.length_append, List.length_cons]
      split <;> simp <;> omega
    · have hnarrow := length_loadNarrow_le .rv64 reg value
      omega

/-- The most steps that a constant takes. -/
def maxConstantSteps : Xlen → Nat
  | .rv32 => 2
  | .rv64 => 8

theorem length_loadConstant_le_max (x : Xlen) (reg : Nat) (value : Int64) :
    (loadConstant x reg value).length ≤ maxConstantSteps x := by
  cases x with
  | rv32 =>
    rw [loadConstant, dif_neg (by simp)]
    exact length_loadNarrow_le .rv32 reg value
  | rv64 =>
    have habove := value.le_toInt
    have hbelow := value.toInt_lt
    exact length_loadConstant_le (k := 3) (by omega)

/-! ### Texts -/

namespace Expansion

variable {cs : Catalogs} {ctx : Context}

/-- A text that is encoded, uncompressed, as the word of an instruction. -/
def Spelled (cs : Catalogs) (ctx : Context) (mnemonic : String) (text : List Char) (i : Instr) :
    Prop :=
  ∃ e, cs.instructions.encode { ctx with allowCompressed := false } mnemonic text = .ok e ∧
    e.length = 4 ∧ decode32 ctx.isa.xlen (e.bits.setWidth 32) = some i

theorem spelled_of_exactBits? (hset : Setting cs ctx) {name : String} {ops : List Operand}
    {width : Option Xlen} {fixed : Word} (h : exactBits? false name ops width .i = some fixed)
    (hwidth : width.all (· == ctx.isa.xlen) = true) {τs : List Token}
    (htakes : ∀ d, TakesAll ctx.isa.xlen d ops τs) (hlegible : ∀ τ ∈ τs, τ.Legible ctx)
    (hpunct : Punctuated τs) {i : Instr}
    (hword : decode32 ctx.isa.xlen
      ((Draft.addTokens ⟨fixed, none, none⟩ ops τs).bits.setWidth 32) = some i) :
    Spelled cs ctx name (printTokens τs) i := by
  have hbasic : ({ ctx with allowCompressed := false } : Context).evaluator = .basic :=
    hset.evaluator
  obtain ⟨e, he, hlength, hbits, -⟩ :=
    encode_of_exactBits? hset.standard hbasic h hwidth hset.base htakes hlegible hpunct
  exact ⟨e, he, hlength, hbits ▸ hword⟩

theorem spelled_sum (hset : Setting cs ctx) {name : String} {width : Option Xlen} {m : Word}
    {o : Operation} (h : exactBits? false name sumOperands width .i = some m)
    (hm : (m, o) ∈ immediateWords) (hnarrow : o.isNarrow = true → ctx.isa.xlen = .rv64)
    (hwidth : width.all (· == ctx.isa.xlen) = true) {rd rs : Nat}
    (hrd : (Token.register .integer rd).Legible ctx)
    (hrs : (Token.register .integer rs).Legible ctx) {v : Int64} (hv : -2048 ≤ v ∧ v ≤ 2047) :
    Spelled cs ctx name (ConstantStep.threeOperands rd rs v.toInt)
      (.opImm o (BitVec.ofNat 5 rd) (BitVec.ofNat 5 rs) (v.toBitVec.setWidth 12)) := by
  rw [ConstantStep.threeOperands_eq]
  refine spelled_of_exactBits? hset h hwidth ?_ ?_ ?_ ?_
  · intro d
    exact ⟨rfl, rfl, rfl, rfl, hv, trivial⟩
  · simp only [List.forall_mem_cons]
    exact ⟨hrd, trivial, hrs, trivial, legible_of_imm12 hv, List.forall_mem_nil _⟩
  · exact ⟨.inr rfl, .inl rfl, .inr rfl, .inl rfl, trivial⟩
  · rw [← register_slice .integer rd, ← register_slice .integer rs]
    exact decode32_immediate _ _ v hm hnarrow

/-- **Each step of a constant spells its instruction.** -/
theorem spelled_constantStep (hset : Setting cs ctx) {reg : Nat}
    (hreg : (Token.register .integer reg).Legible ctx) {step : ConstantStep}
    (h : step.Fits ctx.isa.xlen reg) : Spelled cs ctx step.mnemonic step.operands step.instr := by
  cases step with
  | lui rd upper =>
    obtain ⟨rfl, hupper⟩ := h
    obtain ⟨-, hrange⟩ := ofNat_bounds hupper (by decide)
    have hlegible : (Token.constant (Int64.ofNat upper)).Legible ctx :=
      ⟨Int64.le_trans (by decide) hrange.1, Int64.lt_of_le_of_lt hrange.2 (by decide)⟩
    have himm : (Int64.ofNat upper).toBitVec.setWidth 20 = BitVec.ofNat 20 upper :=
      BitVec.setWidth_ofNat_of_le (by decide) upper
    rw [ConstantStep.operands_lui hupper]
    refine spelled_of_exactBits? hset constantWords.lui rfl ?_ ?_ ?_ ?_
    · intro d
      exact ⟨rfl, rfl, hrange, trivial⟩
    · simp only [List.forall_mem_cons]
      exact ⟨hreg, trivial, hlegible, List.forall_mem_nil _⟩
    · exact ⟨.inr rfl, .inl rfl, trivial⟩
    · rw [ConstantStep.instr, ← register_slice .integer rd, ← himm]
      exact decode32_upper _ _
  | addi rd rs imm =>
    obtain ⟨rfl, hrs, hv⟩ := h
    exact spelled_sum hset constantWords.addi (by simp [immediateWords]) (by simp [Operation.isNarrow])
      rfl hreg (legible_source hreg hrs) hv
  | addiw rd rs imm =>
    obtain ⟨hxlen, rfl, hrs, hv⟩ := h
    exact spelled_sum hset constantWords.addiw (by simp [immediateWords]) (fun _ => hxlen)
      (by rw [hxlen]; rfl) hreg (legible_source hreg hrs) hv
  | slli rd rs amount =>
    obtain ⟨hxlen, rfl, rfl, hamount⟩ := h
    obtain ⟨-, hrange⟩ := ofNat_bounds hamount (by decide)
    have hlegible : (Token.constant (Int64.ofNat amount)).Legible ctx :=
      ⟨Int64.le_trans (by decide) hrange.1, Int64.lt_of_le_of_lt hrange.2 (by decide)⟩
    have hshamt : (Int64.ofNat amount).toBitVec.extractLsb' 0 6 = BitVec.ofNat 6 amount := by
      rw [← BitVec.setWidth_eq_extractLsb' (by decide)]
      exact BitVec.setWidth_ofNat_of_le (by decide) amount
    rw [ConstantStep.operands_slli hamount]
    refine spelled_of_exactBits? hset constantWords.slli rfl ?_ ?_ ?_ ?_
    · intro d
      rw [hxlen]
      exact ⟨rfl, rfl, rfl, rfl, hrange, trivial⟩
    · simp only [List.forall_mem_cons]
      exact ⟨hreg, trivial, hreg, trivial, hlegible, List.forall_mem_nil _⟩
    · exact ⟨.inr rfl, .inl rfl, .inr rfl, .inl rfl, trivial⟩
    · rw [ConstantStep.instr, ← register_slice .integer rs]
      refine decode32_shift _ _ _ (by simp [shiftWords]) hshamt ?_
      rw [hxlen]
      exact (BitVec.ofNat 6 amount).isLt

end Expansion

/-- **Every constant is loaded into every register but `x0`.** The steps, run in order on any
machine, leave the constant in the register, modulo the width of the registers, and change no other
register and no memory. There are few of them, the number of each is in its range, and each spells
the instruction that is run. -/
theorem constant_is_loaded (x : Xlen) {reg : Nat} (hreg : 1 ≤ reg ∧ reg ≤ 31) (value : Int64) :
    (∀ (size : Instr → Nat) (m : Machine x), ∃ m' : Machine x,
      Instr.execAll size ((loadConstant x reg value).map ConstantStep.instr) m = .ok m' ∧
      m'.read (BitVec.ofNat 5 reg) = BitVec.ofInt x.bits value.toInt ∧
      (∀ q, q ≠ BitVec.ofNat 5 reg → m'.read q = m.read q) ∧
      m'.freg = m.freg ∧ m'.mem = m.mem) ∧
    (loadConstant x reg value).length ≤ maxConstantSteps x ∧
    ∀ step ∈ loadConstant x reg value, step.InRange ∧
      ∀ cs ctx, Setting cs ctx → ctx.isa.xlen = x → (Token.register .integer reg).Legible ctx →
        Expansion.Spelled cs ctx step.mnemonic step.operands step.instr := by
  have hr : BitVec.ofNat 5 reg ≠ 0 := by
    intro h
    have hzero := congrArg BitVec.toNat h
    rw [BitVec.toNat_ofNat, Nat.mod_eq_of_lt (by omega)] at hzero
    exact absurd hzero (Nat.ne_of_gt hreg.1)
  have hbits : x.bits ≤ 64 := by cases x <;> decide
  have hvalue : value.toBitVec.setWidth x.bits = BitVec.ofInt x.bits value.toInt :=
    (BitVec.signExtend_eq_setWidth_of_le _ hbits).symm
  refine ⟨fun size m => ?_, length_loadConstant_le_max x reg value, fun step hstep => ⟨?_, ?_⟩⟩
  · obtain ⟨pc, hpc⟩ := loads_loadConstant hr value size m
    refine ⟨_, hpc, ?_, fun q hq => ?_, ?_, ?_⟩
    · rw [Machine.read_goto, Machine.read_write_self m hr, hvalue]
    · rw [Machine.read_goto, Machine.read_write_of_ne m hq]
    · rw [Machine.write, if_neg hr]
      rfl
    · rw [Machine.write, if_neg hr]
      rfl
  · exact inRange_loadConstant x reg value step hstep
  · rintro cs ctx hset rfl hlegible
    exact Expansion.spelled_constantStep hset hlegible
      (fits_loadConstant ctx.isa.xlen reg value step hstep)

/-- The largest constant of 64 bits in `x31`, with the base instructions only. -/
theorem largest_constant_is_loaded :
    (1 ≤ 31 ∧ 31 ≤ 31) ∧
    (∀ (size : Instr → Nat) (m : Machine .rv64), ∃ m' : Machine .rv64,
      Instr.execAll size ((loadConstant .rv64 31 0x7fffffffffffffff).map ConstantStep.instr) m =
        .ok m' ∧
      m'.read 31#5 = 0x7fffffffffffffff#64 ∧ (∀ q, q ≠ 31#5 → m'.read q = m.read q) ∧
      m'.freg = m.freg ∧ m'.mem = m.mem) ∧
    ∃ cs ctx, Setting cs ctx ∧ ctx.isa.xlen = .rv64 ∧ (Token.register .integer 31).Legible ctx ∧
      ∀ step ∈ loadConstant .rv64 31 0x7fffffffffffffff,
        Expansion.Spelled cs ctx step.mnemonic step.operands step.instr := by
  have hreg : 1 ≤ 31 ∧ 31 ≤ 31 := by decide
  obtain ⟨hloads, -, hsteps⟩ := constant_is_loaded .rv64 hreg 0x7fffffffffffffff
  obtain ⟨cs, hcs⟩ := Catalogs.exists_standard
  let ctx : Context := ⟨⟨.rv64, [⟨"i", ⟨2, 0⟩⟩]⟩, false, false, true, .basic⟩
  have hset : Setting cs ctx := ⟨hcs, rfl, by decide⟩
  have hlegible : (Token.register .integer 31).Legible ctx := ⟨by decide, nofun⟩
  exact ⟨hreg, hloads, cs, ctx, hset, rfl, hlegible,
    fun step hstep => (hsteps step hstep).2 cs ctx hset rfl hlegible⟩

end RiscvAssembler
