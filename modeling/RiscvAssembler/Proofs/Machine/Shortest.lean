import RiscvAssembler.Proofs.Machine.Constant
import RiscvAssembler.Proofs.Pseudo.Chain

/-!
How long the sequences for constants are, next to all sequences of additions, shifts and upper
immediates that use one register (`BuildsConstant`). The numbers that such a sequence leaves are those
of a chain (`BuildsConstant.reaches`), and the sequence for a constant takes no more steps than its
`cost`. So constants of 32 bits are loaded as fast as can be, and no other sequence for a constant of
64 bits is shorter by more than two instructions (`constant_sequence_near_shortest`). Sequences that
are shorter by one and by two exist.
-/

namespace RiscvAssembler

open Constant

/-! ### Instructions of one register -/

namespace Instr

/-- The instructions that add, shift or take upper bits, and use no registers but one and `x0`. -/
def Builds (x : Xlen) (r : Reg) : Instr → Prop
  | .lui rd _ => rd = r ∨ rd = 0
  | .opImm .add rd rs _ => (rd = r ∨ rd = 0) ∧ (rs = r ∨ rs = 0)
  | .opImm .addw rd rs _ => x = .rv64 ∧ (rd = r ∨ rd = 0) ∧ (rs = r ∨ rs = 0)
  | .shift .left rd rs amount => amount.toNat < x.bits ∧ (rd = r ∨ rd = 0) ∧ (rs = r ∨ rs = 0)
  | _ => False

end Instr

/-- A sequence of such instructions that leaves a constant in its register, whatever was there. -/
structure BuildsConstant (x : Xlen) (reg : Nat) (value : Int64) (instrs : List Instr) : Prop where
  only : ∀ i ∈ instrs, i.Builds x (BitVec.ofNat 5 reg)
  leaves : ∀ (size : Instr → Nat) (m : Machine x), ∃ m', Instr.execAll size instrs m = .ok m' ∧
    m'.read (BitVec.ofNat 5 reg) = BitVec.ofInt x.bits value.toInt

section

variable {n k : Nat}

theorem setWidth_ofInt (h : k ≤ n) (v : Int) :
    (BitVec.ofInt n v).setWidth k = BitVec.ofInt k v := by
  rw [← BitVec.signExtend_eq_setWidth_of_le _ h, ← BitVec.toInt_inj, BitVec.signExtend,
    BitVec.toInt_ofInt, BitVec.toInt_ofInt, BitVec.toInt_ofInt,
    Int.bmod_bmod_of_dvd (Nat.pow_dvd_pow 2 h)]

theorem ofInt_shiftLeft (v : Int) (s : Nat) :
    BitVec.ofInt n v <<< s = BitVec.ofInt n (2 ^ s * v) := by
  have hpow : BitVec.twoPow n s = BitVec.ofInt n (2 ^ s) := by
    rw [← BitVec.toNat_inj, BitVec.toNat_twoPow, BitVec.toNat_ofInt]
    norm_cast
  rw [BitVec.shiftLeft_eq_mul_twoPow, hpow, ← BitVec.ofInt_mul, Int.mul_comm]

theorem isSmall_toInt (imm : BitVec 12) : IsSmall imm.toInt :=
  ⟨imm.le_toInt, imm.toInt_lt⟩

end

section

variable {x : Xlen} {r : Reg} {m : Machine x} {v : Int}

/-- The value of the one register or of `x0`. -/
theorem read_source (hv : m.read r = BitVec.ofInt x.bits v) {rs : Reg} (hrs : rs = r ∨ rs = 0) :
    m.read rs = BitVec.ofInt x.bits v ∨ m.read rs = BitVec.ofInt x.bits 0 := by
  rcases hrs with rfl | rfl
  · exact .inl hv
  · refine .inr ?_
    rw [Machine.read_zero]
    exact (BitVec.ofInt_natCast x.bits 0).symm

/-- A write leaves a number that a chain can make, in the register or not. -/
theorem makes_of_write (hr : r ≠ 0) (hv : m.read r = BitVec.ofInt x.bits v) {rd : Reg}
    (hrd : rd = r ∨ rd = 0) {w : Int} (hw : Makes v w) (next : BitVec x.bits) :
    ∃ w', Makes v w' ∧
      ((m.write rd (BitVec.ofInt x.bits w)).goto next).read r = BitVec.ofInt x.bits w' := by
  rcases hrd with rfl | rfl
  · exact ⟨w, hw, by rw [Machine.read_goto, Machine.read_write_self m hr]⟩
  · exact ⟨v, .same, by rw [Machine.read_goto, Machine.read_write_of_ne m hr, hv]⟩

/-- **One instruction is one step of a chain.** -/
theorem Instr.Builds.makes {i : Instr} (h : i.Builds x r) (hr : r ≠ 0)
    (hv : m.read r = BitVec.ofInt x.bits v) (next target : BitVec x.bits) :
    ∃ m' w, i.exec next target m = .ok m' ∧ Makes v w ∧ m'.read r = BitVec.ofInt x.bits w := by
  unfold Instr.Builds at h
  split at h
  · rename_i rd imm
    have hupper : (imm ++ 0#12).signExtend x.bits = BitVec.ofInt x.bits (0x1000 * imm.toInt) := by
      rw [BitVec.signExtend, BitVec.toInt_append_zero]
      rfl
    obtain ⟨w, hw, hread⟩ := makes_of_write hr hv h (.upper ⟨imm.le_toInt, imm.toInt_lt⟩) next
    exact ⟨_, w, by rw [Instr.exec, hupper], hw, hread⟩
  · rename_i rd rs imm
    obtain ⟨hrd, hrs⟩ := h
    obtain ⟨w₀, hw₀, hsum⟩ : ∃ w, Makes v w ∧
        m.read rs + imm.signExtend x.bits = BitVec.ofInt x.bits w := by
      rcases read_source hv hrs with hread | hread
      · exact ⟨_, .add (isSmall_toInt imm), by rw [hread, BitVec.signExtend, BitVec.ofInt_add]⟩
      · refine ⟨_, .small (isSmall_toInt imm), ?_⟩
        rw [hread, BitVec.signExtend, ← BitVec.ofInt_add, Int.zero_add]
    obtain ⟨w, hw, hread⟩ := makes_of_write hr hv hrd hw₀ next
    exact ⟨_, w, by rw [Instr.exec, Operation.result, hsum], hw, hread⟩
  · rename_i rd rs imm
    obtain ⟨rfl, hrd, hrs⟩ := h
    obtain ⟨w₀, hw₀, hsum⟩ : ∃ w, Makes v w ∧ (Operation.addw).result (m.read rs)
        (imm.signExtend Xlen.rv64.bits) = BitVec.ofInt Xlen.rv64.bits w := by
      have hbits : 32 ≤ Xlen.rv64.bits := by decide
      rcases read_source hv hrs with hread | hread
      · refine ⟨_, .addWord (isSmall_toInt imm), ?_⟩
        rw [hread, Operation.result, BitVec.signExtend, setWidth_ofInt hbits, BitVec.signExtend,
          setWidth_ofInt hbits, ← BitVec.ofInt_add, BitVec.toInt_ofInt]
      · refine ⟨_, .small (isSmall_toInt imm), ?_⟩
        have hsmall := isSmall_toInt imm
        unfold IsSmall at hsmall
        rw [hread, Operation.result, BitVec.signExtend, setWidth_ofInt hbits, BitVec.signExtend,
          setWidth_ofInt hbits, ← BitVec.ofInt_add, BitVec.toInt_ofInt, Int.zero_add,
          Int.bmod_eq_of_le (by omega) (by omega)]
    obtain ⟨w, hw, hread⟩ := makes_of_write hr hv hrd hw₀ next
    exact ⟨_, w, by rw [Instr.exec, hsum], hw, hread⟩
  · rename_i rd rs amount
    obtain ⟨-, hrd, hrs⟩ := h
    obtain ⟨w₀, hw₀, hshift⟩ : ∃ w, Makes v w ∧
        m.read rs <<< amount.toNat = BitVec.ofInt x.bits w := by
      rcases read_source hv hrs with hread | hread
      · exact ⟨_, .shift amount.toNat, by rw [hread, ofInt_shiftLeft]⟩
      · refine ⟨0, .small (by decide), ?_⟩
        rw [hread, ofInt_shiftLeft, Int.mul_zero]
    obtain ⟨w, hw, hread⟩ := makes_of_write hr hv hrd hw₀ next
    exact ⟨_, w, by rw [Instr.exec, Shift.result, hshift], hw, hread⟩
  · exact h.elim

theorem reaches_execAll (hr : r ≠ 0) (size : Instr → Nat) {instrs : List Instr}
    (honly : ∀ i ∈ instrs, i.Builds x r) {n : Nat} (hn : Reaches n v)
    (hv : m.read r = BitVec.ofInt x.bits v) :
    ∃ m' w, Instr.execAll size instrs m = .ok m' ∧ Reaches (n + instrs.length) w ∧
      m'.read r = BitVec.ofInt x.bits w := by
  induction instrs generalizing m v n with
  | nil => exact ⟨m, v, rfl, hn, hv⟩
  | cons i rest ih =>
    obtain ⟨hi, hrest⟩ := List.forall_mem_cons.1 honly
    obtain ⟨m₁, v₁, hexec, hmakes, hread⟩ :=
      hi.makes hr hv (m.pc + BitVec.ofNat _ (size i)) (i.target m.pc)
    obtain ⟨m', w, hrun, hw, hread'⟩ := ih hrest (hn.succ hmakes) hread
    refine ⟨m', w, ?_, ?_, hread'⟩
    · rw [Instr.execAll, hexec]
      exact hrun
    · rw [List.length_cons, Nat.add_comm rest.length, ← Nat.add_assoc]
      exact hw

end

theorem exists_of_ofInt_eq {n : Nat} {v w : Int} (h : BitVec.ofInt n v = BitVec.ofInt n w) :
    ∃ q, w = v + 2 ^ n * q := by
  have hmod := congrArg (fun b : BitVec n => b.toInt % (2 ^ n : Nat)) h
  simp only [BitVec.toInt_ofInt, Int.bmod_emod] at hmod
  obtain ⟨q, hq⟩ := Int.dvd_of_emod_eq_zero (Int.emod_eq_emod_iff_emod_sub_eq_zero.1 hmod.symm)
  have hdiff : w - v = 2 ^ n * q := by exact_mod_cast hq
  exact ⟨q, by omega⟩

/-- **What such a sequence leaves is the number of a chain**, and it is not empty. -/
theorem BuildsConstant.reaches {x : Xlen} {reg : Nat} (hr : BitVec.ofNat 5 reg ≠ 0) {value : Int64}
    {instrs : List Instr} (h : BuildsConstant x reg value instrs) :
    1 ≤ instrs.length ∧ ∃ v q, Reaches instrs.length v ∧ value.toInt = v + 2 ^ x.bits * q := by
  constructor
  · rw [Nat.one_le_iff_ne_zero]
    intro hempty
    obtain rfl := List.length_eq_zero_iff.1 hempty
    -- Nothing at all leaves every machine as it was, and registers differ between machines.
    have hall : ∀ b : BitVec x.bits, b = BitVec.ofInt x.bits value.toInt := by
      intro b
      obtain ⟨m', hrun, hread⟩ := h.leaves (fun _ => 4) ⟨0, fun _ => b, fun _ => 0, fun _ => 0⟩
      cases hrun
      rwa [Machine.read, if_neg hr] at hread
    have hsame := (hall 0).trans (hall 1).symm
    cases x with
    | rv32 => exact absurd hsame (by decide)
    | rv64 => exact absurd hsame (by decide)
  · let start : Machine x := ⟨0, fun _ => 0, fun _ => 0, fun _ => 0⟩
    have hstart : start.read (BitVec.ofNat 5 reg) = BitVec.ofInt x.bits 0 := by
      rw [Machine.read, if_neg hr]
      exact (BitVec.ofInt_natCast x.bits 0).symm
    obtain ⟨m', hrun, hread⟩ := h.leaves (fun _ => 4) start
    obtain ⟨m'', v, hrun', hv, hread'⟩ := reaches_execAll hr (fun _ => 4) h.only .zero hstart
    rw [hrun] at hrun'
    cases hrun'
    obtain ⟨q, hq⟩ := exists_of_ofInt_eq (hread'.symm.trans hread)
    rw [Nat.zero_add] at hv
    exact ⟨v, q, hv, hq⟩

/-! ### Lengths of sequences -/

section

variable {value : Int64}

theorem fits32_eq_true_iff : fits32 value = true ↔ IsNarrow value.toInt := by
  have hlow : (-0x80000000 : Int64).toInt = -0x80000000 := by decide
  have hhigh : (0x7fffffff : Int64).toInt = 0x7fffffff := by decide
  simp only [fits32, Bool.and_eq_true, decide_eq_true_eq, Int64.le_iff_toInt_le, IsNarrow]
  omega

theorem toInt_lowPart (value : Int64) :
    (lowPart value).toInt = value.toInt - 0x1000 * ((value.toInt + 0x800) / 0x1000) := by
  rw [lowPart, Int64.toInt_ofBitVec, BitVec.toInt_signExtend_of_le (by decide),
    ← BitVec.signExtend_eq_setWidth_of_le _ (by decide), BitVec.signExtend, BitVec.toInt_ofInt,
    Int64.toInt_toBitVec, Int.bmod_def]
  split <;> omega

theorem lowPart_eq_zero_iff : lowPart value = 0 ↔ value.toInt % 0x1000 = 0 := by
  rw [← Int64.toInt_inj, toInt_lowPart, Int64.toInt_zero]
  omega

/-- The upper part is the rounded upper bits, shifted back, in 64 bits. -/
theorem exists_toInt_upperPart (value : Int64) :
    ∃ q, (upperPart value).toInt = 2 ^ 12 * ((value.toInt + 0x800) / 0x1000) + 2 ^ 64 * q := by
  have hdiff : value.toInt - (lowPart value).toInt =
      2 ^ 12 * ((value.toInt + 0x800) / 0x1000) := by
    rw [toInt_lowPart]
    omega
  refine exists_of_ofInt_eq ?_
  rw [upperPart, Int64.toInt_sub, hdiff, ← BitVec.toInt_inj, BitVec.toInt_ofInt,
    BitVec.toInt_ofInt, Int.bmod_bmod]

theorem upperPart_eq_zero_iff : upperPart value = 0 ↔ IsSmall value.toInt := by
  obtain ⟨q, hq⟩ := exists_toInt_upperPart value
  have hlow := value.le_toInt
  have hhigh := value.toInt_lt
  have hlow' := (upperPart value).le_toInt
  have hhigh' := (upperPart value).toInt_lt
  rw [← Int64.toInt_inj, Int64.toInt_zero, IsSmall]
  omega

theorem toInt_upperPart_eq (value : Int64) :
    (upperPart value).toInt =
      2 ^ lowestUpperBit (upperPart value) * (significantPart value).toInt := by
  have hfloor : (significantPart value).toInt =
      (upperPart value).toInt / 2 ^ lowestUpperBit (upperPart value) := by
    rw [significantPart, Int64.toInt_ofBitVec, BitVec.toInt_sshiftRight, Int64.toInt_toBitVec,
      Int.shiftRight_eq_div_pow, Int.natCast_pow]
    rfl
  -- Shifted back it is the same in 64 bits, and what was cut off is less than a bit of 64.
  obtain ⟨q, hq⟩ : ∃ q, (upperPart value).toInt =
      2 ^ lowestUpperBit (upperPart value) * (significantPart value).toInt + 2 ^ 64 * q := by
    refine exists_of_ofInt_eq ?_
    rw [← ofInt_shiftLeft, ← Int64.toInt_toBitVec, BitVec.ofInt_toInt, ← Int64.toInt_toBitVec,
      BitVec.ofInt_toInt]
    exact shiftLeft_significantPart value
  have hle : (2 : Int) ^ lowestUpperBit (upperPart value) ≤ 2 ^ 63 := by
    exact_mod_cast Nat.pow_le_pow_right (show 0 < 2 by decide) (lowestUpperBit_le _)
  have hpos : (0 : Int) < 2 ^ lowestUpperBit (upperPart value) := Int.pow_pos (by decide)
  have hsplit := Int.mul_ediv_add_emod (upperPart value).toInt
    (2 ^ lowestUpperBit (upperPart value))
  have hlow := Int.emod_nonneg (upperPart value).toInt (Int.ne_of_gt hpos)
  have hhigh := Int.emod_lt_of_pos (upperPart value).toInt hpos
  rw [← hfloor] at hsplit
  omega

/-- The significant part of a wide constant ends in a bit that is set. -/
theorem significantPart_odd (h : fits32 value = false) : (significantPart value).toInt % 2 ≠ 0 := by
  intro heven
  have hupper := toInt_upperPart_eq value
  cases hfind : (List.range' 12 51).find? fun i => (upperPart value).toBitVec.getLsbD i with
  | none =>
    have hbit : lowestUpperBit (upperPart value) = 63 := by rw [lowestUpperBit, hfind]; rfl
    have hlow := (upperPart value).le_toInt
    have hhigh := (upperPart value).toInt_lt
    rw [hbit] at hupper
    have hzero : upperPart value = 0 := by
      rw [← Int64.toInt_inj, Int64.toInt_zero]
      omega
    have hsmall := upperPart_eq_zero_iff.1 hzero
    rw [← Bool.not_eq_true, fits32_eq_true_iff] at h
    unfold IsSmall at hsmall
    unfold IsNarrow at h
    omega
  | some i =>
    have hbit : lowestUpperBit (upperPart value) = i := by rw [lowestUpperBit, hfind]; rfl
    have hset : (upperPart value).toBitVec.getLsbD i = true := List.find?_some hfind
    have hshift : (upperPart value).toInt = 2 ^ (i + 1) * ((significantPart value).toInt / 2) := by
      rw [hupper, hbit, Int.pow_succ, Int.mul_assoc]
      congr 1
      omega
    have hbits : (upperPart value).toBitVec =
        BitVec.ofInt 64 ((significantPart value).toInt / 2) <<< (i + 1) := by
      rw [ofInt_shiftLeft, ← hshift, ← Int64.toInt_toBitVec, BitVec.ofInt_toInt]
    rw [hbits, BitVec.getLsbD_shiftLeft] at hset
    simp at hset

theorem weight_significantPart_le (value : Int64) :
    weight (significantPart value).toInt ≤ weight ((value.toInt + 0x800) / 0x1000) := by
  obtain ⟨q, hq⟩ := exists_toInt_upperPart value
  have hlow := (upperPart value).le_toInt
  have hhigh := (upperPart value).toInt_lt
  rw [← weight_two_pow_mul (lowestUpperBit (upperPart value)), ← toInt_upperPart_eq,
    ← weight_two_pow_mul 12 ((value.toInt + 0x800) / 0x1000)]
  exact weight_le_of_congr 64 hq (by omega)

variable {x : Xlen} {reg : Nat}

theorem length_loadNarrow_le_one (hreg : reg ≠ 0)
    (h : upperPart value = 0 ∨ lowPart value = 0) : (loadNarrow x reg value).length ≤ 1 := by
  dsimp only [loadNarrow]
  cases x <;> grind

/-- The steps of a wide constant after those of its significant part. -/
theorem length_loadConstant_wide (h : x = .rv64 ∧ fits32 value = false) :
    (loadConstant x reg value).length = (loadConstant x reg (significantPart value)).length +
      if value.toInt % 0x1000 = 0 then 1 else 2 := by
  rw [loadConstant, dif_pos h]
  dsimp only
  rw [List.length_append, List.length_cons]
  by_cases hlow : lowPart value = 0
  · rw [if_pos hlow, if_pos (lowPart_eq_zero_iff.1 hlow)]
    rfl
  · rw [if_neg hlow, if_neg (mt lowPart_eq_zero_iff.2 hlow)]
    rfl

/-- **The sequence for an odd number takes no more steps than the number weighs.** -/
theorem length_loadConstant_le_weight (hreg : reg ≠ 0) (hodd : value.toInt % 2 ≠ 0) :
    (loadConstant x reg value).length ≤ weight value.toInt := by
  fun_induction loadConstant x reg value with
  | case1 value hwide low ih =>
    have hsig := ih (significantPart_odd hwide.2)
    have hweight := weight_significantPart_le value
    have hnarrow : ¬IsNarrow value.toInt := by
      rw [← fits32_eq_true_iff, hwide.2]
      decide
    have hadd : (if low = 0 then [] else [ConstantStep.addi reg reg low]).length ≤ 1 := by
      split <;> simp
    rw [weight_of_wide hodd hnarrow, List.length_append, List.length_cons]
    omega
  | case2 value hnarrow =>
    have htwo := length_loadNarrow_le x reg value
    rw [weight_of_odd hodd]
    split
    · rename_i hsmall
      exact length_loadNarrow_le_one hreg (.inl (upperPart_eq_zero_iff.2 hsmall))
    · split
      · exact htwo
      · omega

theorem length_loadConstant_le_cost (hreg : reg ≠ 0) (hwide : fits32 value = false) :
    (loadConstant .rv64 reg value).length ≤ cost value.toInt := by
  have hsig := length_loadConstant_le_weight (x := .rv64) hreg (significantPart_odd hwide)
  have hweight := weight_significantPart_le value
  rw [length_loadConstant_wide ⟨rfl, hwide⟩, cost]
  split
  · rename_i hmod
    rw [weight_of_mod_eq_zero hmod]
    omega
  · omega

end

/-! ### Sequences side by side -/

section

variable {x : Xlen} {reg : Nat} {value : Int64} {instrs : List Instr}

theorem buildsConstant_of_loads (hr : BitVec.ofNat 5 reg ≠ 0)
    (honly : ∀ i ∈ instrs, i.Builds x (BitVec.ofNat 5 reg))
    (hloads : Instr.Loads instrs (BitVec.ofNat 5 reg) (BitVec.ofInt x.bits value.toInt)) :
    BuildsConstant x reg value instrs := by
  refine ⟨honly, fun size m => ?_⟩
  obtain ⟨pc, hrun⟩ := hloads size m
  refine ⟨_, hrun, ?_⟩
  rw [Machine.read_goto, Machine.read_write_self m hr]

theorem ConstantStep.Fits.builds {step : ConstantStep} (h : step.Fits x reg) :
    step.instr.Builds x (BitVec.ofNat 5 reg) := by
  have hsource : ∀ {rs}, rs = 0 ∨ rs = reg →
      BitVec.ofNat 5 rs = BitVec.ofNat 5 reg ∨ BitVec.ofNat 5 rs = 0 := by
    rintro rs (rfl | rfl)
    · exact .inr rfl
    · exact .inl rfl
  cases step with
  | lui rd upper =>
    obtain ⟨rfl, -⟩ := h
    exact .inl rfl
  | addi rd rs imm =>
    obtain ⟨rfl, hrs, -⟩ := h
    exact ⟨.inl rfl, hsource hrs⟩
  | addiw rd rs imm =>
    obtain ⟨rfl, rfl, hrs, -⟩ := h
    exact ⟨rfl, .inl rfl, hsource hrs⟩
  | slli rd rs amount =>
    obtain ⟨rfl, rfl, rfl, -⟩ := h
    exact ⟨(BitVec.ofNat 6 amount).isLt, .inl rfl, .inl rfl⟩

theorem buildsConstant_loadConstant (hr : BitVec.ofNat 5 reg ≠ 0) (x : Xlen) (value : Int64) :
    BuildsConstant x reg value ((loadConstant x reg value).map ConstantStep.instr) := by
  refine buildsConstant_of_loads hr ?_ ?_
  · intro i hi
    obtain ⟨step, hstep, rfl⟩ := List.mem_map.1 hi
    exact (fits_loadConstant x reg value step hstep).builds
  · have hbits : x.bits ≤ 64 := by cases x <;> decide
    rw [← Int64.toInt_toBitVec, ← BitVec.signExtend, BitVec.signExtend_eq_setWidth_of_le _ hbits]
    exact loads_loadConstant hr value

/-- The constants that one instruction leaves, in their low half. -/
theorem BuildsConstant.of_one (h : BuildsConstant x reg value instrs)
    (hr : BitVec.ofNat 5 reg ≠ 0) (hone : instrs.length = 1) :
    lowPart value = 0 ∨ ∃ v q, IsSmall v ∧ value.toInt = v + 2 ^ 32 * q := by
  obtain ⟨-, v, q, hv, hq⟩ := h.reaches hr
  obtain ⟨q', hq'⟩ : ∃ q', 2 ^ x.bits * q = 2 ^ 32 * q' := by
    cases x with
    | rv32 => exact ⟨q, rfl⟩
    | rv64 => exact ⟨2 ^ 32 * q, Int.mul_assoc (2 ^ 32) (2 ^ 32) q⟩
  rw [hq'] at hq
  rw [hone] at hv
  rcases hv.of_one with hsmall | ⟨c, -, rfl⟩
  · exact .inr ⟨v, q', hsmall, hq⟩
  · exact .inl (lowPart_eq_zero_iff.2 (by omega))

/-- A constant that is loaded by its two parts takes no more than any sequence, unless one addition
makes it and its upper part is not seen to be zero. -/
theorem BuildsConstant.length_le_of_narrow (h : BuildsConstant x reg value instrs) (hreg : reg ≠ 0)
    (hr : BitVec.ofNat 5 reg ≠ 0) (hnarrow : ¬(x = .rv64 ∧ fits32 value = false))
    (hsmall : ∀ v q, IsSmall v → value.toInt = v + 2 ^ 32 * q → upperPart value = 0) :
    (loadConstant x reg value).length ≤ instrs.length := by
  rw [loadConstant, dif_neg hnarrow]
  obtain ⟨hpos, -⟩ := h.reaches hr
  by_cases hone : instrs.length = 1
  · rw [hone]
    refine length_loadNarrow_le_one hreg ?_
    rcases h.of_one hr hone with hlow | ⟨v, q, hv, hq⟩
    · exact .inr hlow
    · exact .inl (hsmall v q hv hq)
  · have htwo := length_loadNarrow_le x reg value
    omega

theorem BuildsConstant.length_le_of_fits32 (h : BuildsConstant x reg value instrs)
    (hreg : reg ≠ 0) (hr : BitVec.ofNat 5 reg ≠ 0) (hfits : fits32 value = true) :
    (loadConstant x reg value).length ≤ instrs.length := by
  refine h.length_le_of_narrow hreg hr (by simp [hfits]) fun v q hv hq => ?_
  have hvalue := fits32_eq_true_iff.1 hfits
  rw [upperPart_eq_zero_iff]
  unfold IsSmall at hv ⊢
  unfold IsNarrow at hvalue
  omega

/-- **No other sequence for a constant of 64 bits is much shorter.** -/
theorem BuildsConstant.length_le (h : BuildsConstant .rv64 reg value instrs) (hreg : reg ≠ 0)
    (hr : BitVec.ofNat 5 reg ≠ 0) :
    (loadConstant .rv64 reg value).length ≤ instrs.length + 2 ∧
      2 * (loadConstant .rv64 reg value).length ≤ 3 * instrs.length := by
  by_cases hfits : fits32 value = true
  · have hle := h.length_le_of_fits32 hreg hr hfits
    omega
  · have hwide : fits32 value = false := by simpa using hfits
    by_cases hlong : 6 ≤ instrs.length
    · have hmax := length_loadConstant_le_max .rv64 reg value
      change _ ≤ 8 at hmax
      omega
    · obtain ⟨-, v, q, hv, hq⟩ := h.reaches hr
      change _ = _ + 2 ^ 64 * q at hq
      rw [fits32_eq_true_iff] at hfits
      have hlow := value.le_toInt
      have hhigh := value.toInt_lt
      have hvwide : ¬IsNarrow v := by
        unfold IsNarrow at hfits ⊢
        omega
      have hbound := hv.cost_le (by omega) hvwide
      have hcost := Nat.le_trans (length_loadConstant_le_cost hreg hwide)
        (cost_le_of_congr hq ⟨hlow, hhigh⟩)
      omega

/-- One addition, of the low half of a constant if that is small enough. -/
theorem buildsConstant_addi (hr : BitVec.ofNat 5 reg ≠ 0)
    (hsmall : IsSmall (value.toInt.bmod (2 ^ 32))) :
    BuildsConstant .rv32 reg value
      [.opImm .add (BitVec.ofNat 5 reg) 0 (BitVec.ofInt 12 (value.toInt.bmod (2 ^ 32)))] := by
  refine buildsConstant_of_loads hr ?_ (Instr.Assigns.loads ?_)
  · exact List.forall_mem_singleton.2 ⟨.inl rfl, .inr rfl⟩
  · intro next target m _
    unfold IsSmall at hsmall
    have himm : (BitVec.ofInt 12 (value.toInt.bmod (2 ^ 32))).toInt =
        value.toInt.bmod (2 ^ 32) := by
      rw [BitVec.toInt_ofInt, Int.bmod_eq_of_le (by omega) (by omega)]
    have hvalue : BitVec.ofInt Xlen.rv32.bits (value.toInt.bmod (2 ^ 32)) =
        BitVec.ofInt Xlen.rv32.bits value.toInt := by
      rw [← BitVec.toInt_inj, BitVec.toInt_ofInt, BitVec.toInt_ofInt]
      exact Int.bmod_bmod
    rw [Instr.exec, Machine.read_zero, Operation.result, BitVec.signExtend, himm, hvalue]
    exact congrArg (fun b => Except.ok ((m.write _ b).goto next)) (BitVec.zero_add _)

/-- On registers of 32 bits, the constants that are loaded as fast as can be. -/
theorem shortest_rv32_iff (hreg : reg ≠ 0) (hr : BitVec.ofNat 5 reg ≠ 0) :
    (∀ instrs, BuildsConstant .rv32 reg value instrs →
        (loadConstant .rv32 reg value).length ≤ instrs.length) ↔
      fits32 value = true ∨ lowPart value = 0 ∨ ¬IsSmall (value.toInt.bmod (2 ^ 32)) := by
  have hnarrow : ¬(Xlen.rv32 = .rv64 ∧ fits32 value = false) := by simp
  constructor
  · intro hshortest
    by_contra hnone
    simp only [not_or, not_not] at hnone
    obtain ⟨hfits, hlow, hsmall⟩ := hnone
    have hupper : upperPart value ≠ 0 := by
      intro hupper
      have hvalue := upperPart_eq_zero_iff.1 hupper
      rw [fits32_eq_true_iff] at hfits
      unfold IsSmall at hvalue
      unfold IsNarrow at hfits
      omega
    have hone := hshortest _ (buildsConstant_addi hr hsmall)
    rw [loadConstant, dif_neg hnarrow] at hone
    simp [loadNarrow, hlow, hupper] at hone
  · rintro hcases instrs h
    by_cases hfits : fits32 value = true
    · exact h.length_le_of_fits32 hreg hr hfits
    rcases hcases.resolve_left hfits with hlow | hlarge
    · rw [loadConstant, dif_neg hnarrow]
      exact Nat.le_trans (length_loadNarrow_le_one hreg (.inr hlow)) (h.reaches hr).1
    · refine h.length_le_of_narrow hreg hr hnarrow fun v q hv hq => absurd ?_ hlarge
      have hbmod : value.toInt.bmod (2 ^ 32) = v := by
        unfold IsSmall at hv
        rw [hq, Int.bmod_def]
        split <;> omega
      rwa [hbmod]

end

/-! ### Single instructions -/

section

variable (r : Reg) (b : BitVec 64)

theorem assigns_lui (imm : BitVec 20) :
    (Instr.lui r imm).Assigns (x := .rv64) r ((imm ++ 0#12).signExtend 64) fun _ => True :=
  fun _ _ _ _ => rfl

theorem assigns_addi (imm : BitVec 12) :
    (Instr.opImm .add r r imm).Assigns (x := .rv64) r (b + imm.signExtend 64)
      fun m => m.read r = b := by
  intro next target m hread
  rw [Instr.exec, hread]
  rfl

theorem assigns_slli (amount : BitVec 6) :
    (Instr.shift .left r r amount).Assigns (x := .rv64) r (b <<< amount.toNat)
      fun m => m.read r = b := by
  intro next target m hread
  rw [Instr.exec, hread]
  rfl

end

/-- **Sequences for constants, next to all others of their kind.** The sequence for a constant is one
of additions, shifts and upper immediates on its register. If 32 bits hold the constant, none is
shorter. On registers of 64 bits, none is shorter by more than two instructions, or by more than a
third. On registers of 32 bits, the sequence is the shortest but for constants of more than 32 bits
whose low half one addition makes. -/
theorem constant_sequence_near_shortest {reg : Nat} (hreg : 1 ≤ reg ∧ reg ≤ 31) (value : Int64) :
    (∀ x, BuildsConstant x reg value ((loadConstant x reg value).map ConstantStep.instr)) ∧
      (fits32 value = true → ∀ x instrs, BuildsConstant x reg value instrs →
        (loadConstant x reg value).length ≤ instrs.length) ∧
      (∀ instrs, BuildsConstant .rv64 reg value instrs →
        (loadConstant .rv64 reg value).length ≤ instrs.length + 2 ∧
          2 * (loadConstant .rv64 reg value).length ≤ 3 * instrs.length) ∧
      ((∀ instrs, BuildsConstant .rv32 reg value instrs →
          (loadConstant .rv32 reg value).length ≤ instrs.length) ↔
        fits32 value = true ∨ lowPart value = 0 ∨ ¬IsSmall (value.toInt.bmod (2 ^ 32))) := by
  have hne : reg ≠ 0 := by omega
  have hr : BitVec.ofNat 5 reg ≠ 0 := by
    intro h
    have hzero := congrArg BitVec.toNat h
    rw [BitVec.toNat_ofNat, Nat.mod_eq_of_lt (by omega)] at hzero
    exact hne hzero
  exact ⟨fun x => buildsConstant_loadConstant hr x value,
    fun hfits x instrs h => h.length_le_of_fits32 hne hr hfits,
    fun instrs h => h.length_le hne hr, shortest_rv32_iff hne hr⟩

/-- The bounds are attained: six steps for a constant that four instructions make. -/
theorem constant_sequence_two_longer :
    (1 ≤ 10 ∧ 10 ≤ 31) ∧
      BuildsConstant .rv64 10 0x91a2800001800
        [.lui 10 0x12345, .shift .left 10 10 12, .opImm .add 10 10 3, .shift .left 10 10 11] ∧
      (loadConstant .rv64 10 0x91a2800001800).length = 6 ∧
      (loadConstant .rv64 10 0x91a2800001800).length ≤ 4 + 2 ∧
      2 * (loadConstant .rv64 10 0x91a2800001800).length ≤ 3 * 4 := by
  have hreg : 1 ≤ 10 ∧ 10 ≤ 31 := by decide
  have hbuilds : BuildsConstant .rv64 10 0x91a2800001800
      [.lui 10 0x12345, .shift .left 10 10 12, .opImm .add 10 10 3, .shift .left 10 10 11] := by
    refine buildsConstant_of_loads (by decide) ?_ ?_
    · simp only [List.forall_mem_cons]
      exact ⟨.inl rfl, ⟨by decide, .inl rfl, .inl rfl⟩, ⟨.inl rfl, .inl rfl⟩,
        ⟨by decide, .inl rfl, .inl rfl⟩, List.forall_mem_nil _⟩
    · exact (((assigns_lui 10 0x12345).loads.append (by decide) (assigns_slli 10 _ 12)).append
        (by decide) (assigns_addi 10 _ 3)).append (by decide) (assigns_slli 10 _ 11)
  exact ⟨hreg, hbuilds, by decide +kernel,
    (constant_sequence_near_shortest hreg 0x91a2800001800).2.2.1 _ hbuilds⟩

/-- Two instructions make a constant whose sequence has three steps, so not all sequences are the
shortest: zeros at the end of a constant may come from the upper immediate. -/
theorem constant_sequence_not_shortest :
    BuildsConstant .rv64 10 0x12345000000 [.lui 10 0x12345, .shift .left 10 10 12] ∧
      (loadConstant .rv64 10 0x12345000000).length = 3 := by
  refine ⟨buildsConstant_of_loads (by decide) ?_ ?_, by decide +kernel⟩
  · simp only [List.forall_mem_cons]
    exact ⟨.inl rfl, ⟨by decide, .inl rfl, .inl rfl⟩, List.forall_mem_nil _⟩
  · exact (assigns_lui 10 0x12345).loads.append (by decide) (assigns_slli 10 _ 12)

end RiscvAssembler
