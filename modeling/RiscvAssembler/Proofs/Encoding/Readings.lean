import RiscvAssembler.Proofs.Encoding.Token
import RiscvAssembler.Proofs.Template.Shape
import RiscvAssembler.Proofs.Word.Range

/-!
What operands can make of a text. Whatever text an operand reads, it gives one of a few readings
(`Operand.gives_of_read`). The numbers of the name tables are bounded and constants are compared
with a limit, so a value that was read is one that the bits of the operand can hold.
-/

namespace RiscvAssembler

namespace Operand

/-- The values that the bits of an operand can hold. -/
def Holds (x : Xlen) (op : Operand) (v : Int64) : Prop :=
  match op with
  | .bothSources => v.toBitVec.toNat < 2 ^ 5
  | .shortRegister _ slot => (v - 8).toBitVec.toNat < 2 ^ slot.field.width
  | .upper => v.toBitVec.toNat < 2 ^ 20
  | .compressedImm i => i.allows x v = true
  | _ =>
    match op.field?, op.immediate? with
    | some f, _ => v.toBitVec.toNat < 2 ^ f.width
    | none, some l => l.fits v = true
    | none, none => v = 0

/-- Whether constants under a modifier have bits for the operand. -/
def takesPart : Operand → Bool
  | .imm12 _ | .upper => true
  | _ => false

/-- The part of a constant that a modifier selects for an operand. -/
def part (op : Operand) (v : Int64) : Int64 :=
  match op with
  | .upper => RelocType.highPart v
  | _ => v

/-- What an operand can make of a text. -/
inductive Gives (x : Xlen) (op : Operand) : Reading → Prop where
  /-- Operands that say nothing have no bits. -/
  | nothing (hbits : op.bits = 0) : op.Gives x .nothing
  | value {v : Int64} (hv : op.Holds x v) : op.Gives x (.value v)
  /-- Constants under a modifier fill the immediate of the operand. -/
  | folded (hpart : op.takesPart = true) {kind : RelocType} {v : Int64} {l : Immediate}
      (himmediate : op.immediate? = some l)
      (hbits : kind.constantBits? v = some (l.encode (op.part v))) : op.Gives x (.folded kind v)
  | constant (hconstant : op.leavesConstant = true) (v : Int64) :
      op.Gives x (.pending (.constant v) none)
  /-- Only the target of a branch has the relocation of a branch. -/
  | symbol (hdeferred : op.isDeferred = true) (name : String) (addend : Int64) {kind : RelocType}
      (hbranch : ∀ k, BranchKind.ofReloc? kind = some k → op = .target k) :
      op.Gives x (.pending (.symbol name addend) (some kind))

end Operand

/-! ### Names -/

section Names

variable {table : List (String × Nat)} {n bound : Nat} {s rest : List Char}

theorem lt_of_lookup (hall : table.all (fun p => p.2 < bound) = true) {name : String}
    (h : table.lookup name = some n) : n < bound :=
  of_decide_eq_true (List.all_eq_true.1 hall _ (mem_of_lookup h))

theorem lt_of_lookupName (hall : table.all (fun p => p.2 < bound) = true) {p : Char → Bool}
    (h : lookupName p table s = some (n, rest)) : n < bound := by
  obtain ⟨m, hm, heq⟩ := Option.map_eq_some_iff.1 h
  cases heq
  exact lt_of_lookup hall hm

theorem lt_of_lookupAnyCase (hall : table.all (fun p => p.2 < bound) = true)
    (h : lookupAnyCase table s = some (n, rest)) : n < bound := by
  obtain ⟨m, hm, heq⟩ := Option.map_eq_some_iff.1 h
  cases heq
  exact lt_of_lookup hall hm

theorem Context.register_lt_32 {ctx : Context} {bank : Bank}
    (h : ctx.register bank s = some (n, rest)) : n < 32 := by
  have hlookup := (Option.filter_eq_some_iff.1 h).1
  cases bank with
  | integer => exact lt_of_lookupAnyCase (by decide) hlookup
  | float => exact lt_of_lookupAnyCase (by decide) hlookup

end Names

/-! ### Bounds -/

theorem toNat_ofNat_of_lt {n : Nat} (h : n < 2 ^ 63) : (Int64.ofNat n).toBitVec.toNat = n := by
  have hvalue : (Int64.ofNat n).toBitVec = BitVec.ofNat 64 n := rfl
  rw [hvalue, BitVec.toNat_ofNat, Nat.mod_eq_of_lt (by omega)]

/-- A register from 8 to 15 takes three bits, less 8. -/
theorem toNat_sub_eight_lt {n : Nat} (h : 8 ≤ n ∧ n < 16) :
    (Int64.ofNat n - 8).toBitVec.toNat < 2 ^ 3 := by
  have hall : ∀ k : Fin 8, (Int64.ofNat (8 + k) - 8).toBitVec.toNat < 2 ^ 3 := by decide
  have hn := hall ⟨n - 8, by omega⟩
  rwa [show 8 + (n - 8) = n by omega] at hn

theorem toNat_lt_of_le {v limit : Int64} {k : Nat} (hlow : 0 ≤ v) (hhigh : v ≤ limit)
    (hlimit : limit.toInt < 2 ^ k) : v.toBitVec.toNat < 2 ^ k := by
  have hnonneg : 0 ≤ v.toInt := Int64.le_iff_toInt_le.1 hlow
  have hle := Int64.le_iff_toInt_le.1 hhigh
  have hint := toNat_of_nonneg hnonneg
  have hpow : ((2 ^ k : Nat) : Int) = 2 ^ k := by push_cast; rfl
  omega

theorem Ranged.limit_lt (x : Xlen) (r : Ranged) : (r.limit x).toInt < 2 ^ r.field.width := by
  cases x <;> cases r <;> decide

theorem Imm12.fits_of_range (i : Imm12) {v : Int64} (hlow : -2048 ≤ v) (hhigh : v ≤ 2047) :
    i.immediate.fits v = true := by
  have hv : -2 ^ 11 ≤ v.toInt ∧ v.toInt < 2 ^ 11 := by
    have hlow := Int64.le_iff_toInt_le.1 hlow
    have hhigh := Int64.le_iff_toInt_le.1 hhigh
    have hleast : (-2048 : Int64).toInt = -2048 := by decide
    have hmost : (2047 : Int64).toInt = 2047 := by decide
    omega
  cases i <;> exact (Immediate.Gapless.fits_iff (by decide) v).2 ⟨one_dvd _, hv⟩

theorem Operand.holds_zero_of_mayBeOmitted {x : Xlen} {op : Operand}
    (h : op.mayBeOmitted = true) : op.Holds x 0 := by
  cases op with
  | imm12 i => exact i.fits_of_range (by decide) (by decide)
  | zeroOffset => rfl
  | compressedImm i => exact allows_zero_of_mayBeOmitted h
  | _ => cases h

/-! ### Parts of operands -/

namespace Reading

variable {ctx : Context} {mnemonic what : String} {x : Xlen} {op : Operand} {s rest : List Char}
  {r : Reading} {v : Int64} {k : Nat}

/-- A lookup in a table of numbers of `k` bits gives a value of `k` bits. -/
theorem toNat_lt_of_number {found : Option (Nat × List Char)} (hk : k ≤ 63)
    (hbound : ∀ n, found = some (n, rest) → n < 2 ^ k) (h : number found = .ok (r, rest)) :
    ∃ v : Int64, r = .value v ∧ v.toBitVec.toNat < 2 ^ k := by
  obtain ⟨n, hfound, rfl⟩ := number_eq_ok_iff.1 h
  have hn := hbound n hfound
  have hpow : 2 ^ k ≤ 2 ^ 63 := Nat.pow_le_pow_right (by decide) hk
  refine ⟨Int64.ofNat n, rfl, ?_⟩
  rwa [toNat_ofNat_of_lt (Nat.lt_of_lt_of_le hn hpow)]

theorem toNat_lt_of_register {bank : Bank} (h : number (ctx.register bank s) = .ok (r, rest)) :
    ∃ v : Int64, r = .value v ∧ v.toBitVec.toNat < 2 ^ 5 :=
  toNat_lt_of_number (by decide) (fun _ => Context.register_lt_32) h

theorem bound_of_upTo {limit : Int64} (h : upTo ctx mnemonic what limit s = .ok (v, rest)) :
    0 ≤ v ∧ v ≤ limit := by
  unfold upTo at h
  split at h
  · split at h
    · rename_i hbound
      cases h
      exact hbound
    · cases h
  · cases h
  · cases h

theorem toNat_lt_of_ranged {limit : Int64} (hlimit : limit.toInt < 2 ^ k)
    (h : ranged ctx mnemonic what limit s = .ok (r, rest)) :
    ∃ v : Int64, r = .value v ∧ v.toBitVec.toNat < 2 ^ k := by
  obtain ⟨⟨v, after⟩, hupTo, h⟩ := bind_eq_ok_iff.1 h
  cases h
  obtain ⟨hlow, hhigh⟩ := bound_of_upTo hupTo
  exact ⟨v, rfl, toNat_lt_of_le hlow hhigh hlimit⟩

theorem toNat_lt_of_csr (h : csr ctx mnemonic s = .ok (r, rest)) :
    ∃ v : Int64, r = .value v ∧ v.toBitVec.toNat < 2 ^ 12 := by
  unfold csr at h
  split at h
  · rename_i found hfound
    refine toNat_lt_of_number (by decide) ?_ h
    intro n hn
    cases hn
    exact lt_of_lookupAnyCase (by decide) hfound
  · split at h
    · cases h
    · exact toNat_lt_of_ranged (by decide) h

theorem toNat_lt_of_keyword {p : Char → Bool} {table : List (String × Nat)} (hk : k ≤ 63)
    (hall : table.all (fun entry => entry.2 < 2 ^ k) = true)
    (h : number (lookupName p table s) = .ok (r, rest)) :
    ∃ v : Int64, r = .value v ∧ v.toBitVec.toNat < 2 ^ k :=
  toNat_lt_of_number hk (fun _ => lt_of_lookupName hall) h

theorem toNat_lt_of_opcode (h : opcode ctx mnemonic s = .ok (r, rest)) :
    ∃ v : Int64, r = .value v ∧ v.toBitVec.toNat < 2 ^ 7 := by
  unfold opcode at h
  split at h
  · rename_i found hfound
    rw [← hfound] at h
    exact toNat_lt_of_keyword (by decide) (by decide) h
  · obtain ⟨⟨v, after⟩, hupTo, h⟩ := bind_eq_ok_iff.1 h
    dsimp only at h
    split at h
    · cases h
      obtain ⟨hlow, hhigh⟩ := bound_of_upTo hupTo
      exact ⟨v, rfl, toNat_lt_of_le hlow hhigh (by decide)⟩
    · cases h

theorem gives_of_sameRegister {expected : Nat} (hbits : op.bits = 0)
    (h : sameRegister ctx expected s = .ok (r, rest)) : op.Gives x r := by
  obtain ⟨-, rfl⟩ := sameRegister_eq_ok_iff.1 h
  exact .nothing hbits

theorem gives_of_constantWith {allowed : Int64 → Bool}
    (hallowed : ∀ v, allowed v = true → op.Holds x v)
    (h : constantWith ctx allowed s = .ok (r, rest)) : op.Gives x r := by
  obtain ⟨v, -, hv, rfl⟩ := constantWith_eq_ok_iff.1 h
  exact .value (hallowed v hv)

theorem gives_of_symbol {kind : RelocType} (hdeferred : op.isDeferred = true)
    (hbranch : ∀ k, BranchKind.ofReloc? kind = some k → op = .target k)
    (h : symbol ctx kind s = .ok (r, rest)) : op.Gives x r := by
  obtain ⟨name, addend, -, rfl⟩ := symbol_eq_ok_iff.1 h
  exact .symbol hdeferred name addend hbranch

theorem gives_of_constant (hconstant : op.leavesConstant = true)
    (h : constant ctx s = .ok (r, rest)) : op.Gives x r := by
  unfold constant at h
  split at h
  · cases h
    exact .constant hconstant _
  · cases h

theorem gives_of_address (hdeferred : op.isDeferred = true) (hconstant : op.leavesConstant = true)
    (h : address ctx s = .ok (r, rest)) : op.Gives x r := by
  unfold address at h
  split at h
  · cases h
    exact .symbol hdeferred _ _ (by intro k hk; cases hk)
  · cases h
    exact .constant hconstant _
  · cases h

theorem gives_of_call (hdeferred : op.isDeferred = true) (h : call ctx s = .ok (r, rest)) :
    op.Gives x r := by
  unfold call at h
  split at h
  · split at h <;> cases h <;> exact .symbol hdeferred _ _ (by intro k hk; cases hk)
  · cases h

/-! ### Modifiers -/

/-- A modifier that was read is one of those allowed. -/
theorem mem_of_modified {ms : Modifiers} {kind : RelocType} {e : Expr}
    (h : modified ctx ms s = .ok (some kind, e, rest)) : kind ∈ ms.map Prod.snd := by
  unfold modified at h
  split at h
  · obtain ⟨⟨found, after⟩, hfind, h⟩ := bind_eq_ok_iff.1 h
    obtain ⟨inner, -, h⟩ := bind_eq_ok_iff.1 h
    obtain ⟨⟨e', close⟩, -, h⟩ := bind_eq_ok_iff.1 h
    dsimp only at h
    split at h
    · cases h
    · cases h
      obtain ⟨⟨name, k⟩, hmem, hk⟩ :=
        List.exists_of_findSome?_eq_some (fit_eq_ok_iff.1 hfind)
      dsimp only at hk
      split at hk
      · split at hk
        · cases hk
          exact List.mem_map_of_mem hmem
        · cases hk
      · cases hk
  · obtain ⟨⟨e', after⟩, -, h⟩ := bind_eq_ok_iff.1 h
    cases h

/-- The relocations that an operand may have: none is that of a branch, and those of a constant
fill the immediate of the operand. -/
def Suits (op : Operand) (kind : RelocType) : Prop :=
  BranchKind.ofReloc? kind = none ∧
    ∀ v, kind.constantBits? v = none ∨ op.takesPart = true ∧
      ∃ l, op.immediate? = some l ∧ kind.constantBits? v = some (l.encode (op.part v))

theorem gives_of_relocated (hdeferred : op.isDeferred = true) {kind : RelocType} {e : Expr}
    {after : List Char} (hsuits : Suits op kind)
    (h : (relocated kind e).map (·, after) = .ok (r, rest)) : op.Gives x r := by
  cases e with
  | constant v =>
    dsimp only [relocated] at h
    rcases hsuits.2 v with hnone | ⟨hpart, l, hl, hbits⟩
    · rw [hnone] at h
      cases h
    · rw [hbits] at h
      cases h
      exact .folded hpart hl hbits
  | symbol name addend =>
    cases h
    refine .symbol hdeferred name addend ?_
    intro k hk
    rw [hsuits.1] at hk
    cases hk
  | register name => cases h

theorem suits_of_mem_low {i : Imm12} {kind : RelocType}
    (h : kind ∈ (Modifiers.low i).map Prod.snd) : Suits (.imm12 i) kind := by
  cases i with
  | arithmetic | loadOffset | storeOffset =>
    rcases List.mem_cons.1 h with rfl | h
    · exact ⟨rfl, fun v => .inr ⟨rfl, _, rfl, rfl⟩⟩
    · rcases List.mem_cons.1 h with rfl | h
      · exact ⟨rfl, fun v => .inl rfl⟩
      · cases List.mem_singleton.1 h
        exact ⟨rfl, fun v => .inl rfl⟩

theorem suits_of_mem_upper {kind : RelocType} (h : kind ∈ Modifiers.upper.map Prod.snd) :
    Suits .upper kind := by
  simp only [Modifiers.upper, List.map_cons, List.map_nil, List.mem_cons, List.not_mem_nil,
    or_false] at h
  rcases h with rfl | rfl | rfl | rfl | rfl | rfl
  case inr.inr.inr.inr.inr => exact ⟨rfl, fun v => .inr ⟨rfl, _, rfl, rfl⟩⟩
  all_goals exact ⟨rfl, fun v => .inl rfl⟩

theorem gives_of_imm12 {i : Imm12} (h : imm12 ctx i s = .ok (r, rest)) :
    (Operand.imm12 i).Gives x r := by
  obtain ⟨⟨modifier, e, after⟩, hmodified, h⟩ := bind_eq_ok_iff.1 h
  split at h
  · rename_i heq
    cases heq
    exact gives_of_relocated rfl (suits_of_mem_low (mem_of_modified hmodified)) h
  · split at h
    · rename_i hbound
      cases h
      exact .value (i.fits_of_range hbound.1 hbound.2)
    · cases h
  · cases h

theorem gives_of_upper (h : upper ctx s = .ok (r, rest)) : Operand.upper.Gives x r := by
  obtain ⟨⟨modifier, e, after⟩, hmodified, h⟩ := bind_eq_ok_iff.1 h
  split at h
  · rename_i heq
    cases heq
    exact gives_of_relocated rfl (suits_of_mem_upper (mem_of_modified hmodified)) h
  · split at h
    · rename_i hbound
      cases h
      exact .value (toNat_lt_of_le hbound.1 hbound.2 (by decide))
    · cases h
  · cases h

theorem gives_of_tprelAdd (h : tprelAdd ctx s = .ok (r, rest)) : Operand.tprelAdd.Gives x r := by
  obtain ⟨⟨modifier, e, after⟩, hmodified, h⟩ := bind_eq_ok_iff.1 h
  split at h
  · rename_i heq
    cases heq
    have hkind := List.mem_singleton.1 (mem_of_modified hmodified)
    subst hkind
    exact gives_of_relocated rfl ⟨rfl, fun v => .inl rfl⟩ h
  · cases h

end Reading

namespace Operand

open Reading

/-- **What an operand can make of a text**, for every text, context and evaluator. -/
theorem gives_of_read {ctx : Context} {mnemonic : String} {word : Word} {op : Operand}
    {s rest : List Char} {r : Reading} (h : op.read ctx mnemonic word s = .ok (r, rest)) :
    op.Gives ctx.isa.xlen r := by
  unfold read at h
  split at h
  · rename_i homitted
    cases h
    exact .value (holds_zero_of_mayBeOmitted homitted.1)
  · cases op with
    | mark m =>
      cases hafter : Text.afterChar? m.char s with
      | none => simp [fit, hafter, Except.map] at h
      | some after =>
        simp only [fit, hafter, Except.map] at h
        cases h
        exact .nothing rfl
    | register bank slot =>
      obtain ⟨v, rfl, hv⟩ := toNat_lt_of_register h
      cases slot <;> exact .value hv
    | bothSources =>
      obtain ⟨v, rfl, hv⟩ := toNat_lt_of_register h
      exact .value hv
    | shortRegister bank slot =>
      obtain ⟨n, hfound, rfl⟩ := number_eq_ok_iff.1 h
      have hn : 8 ≤ n ∧ n < 16 := by simpa using (Option.filter_eq_some_iff.1 hfound).2
      cases slot <;> exact .value (toNat_sub_eight_lt hn)
    | repeated slot => exact gives_of_sameRegister rfl h
    | fixed r => exact gives_of_sameRegister rfl h
    | ranged r =>
      obtain ⟨v, rfl, hv⟩ := toNat_lt_of_ranged (r.limit_lt _) h
      exact .value hv
    | csr =>
      obtain ⟨v, rfl, hv⟩ := toNat_lt_of_csr h
      exact .value hv
    | keyword k =>
      cases k with
      | rounding =>
        obtain ⟨v, rfl, hv⟩ := toNat_lt_of_keyword (k := 3) (by decide) (by decide) h
        exact .value hv
      | predecessor | successor =>
        obtain ⟨v, rfl, hv⟩ := toNat_lt_of_keyword (k := 4) (by decide) (by decide) h
        exact .value hv
    | imm12 i => exact gives_of_imm12 h
    | tprelAdd => exact gives_of_tprelAdd h
    | zeroOffset => exact gives_of_constantWith (fun _ => eq_of_beq) h
    | zero => exact gives_of_constantWith (fun _ => eq_of_beq) h
    | upper => exact gives_of_upper h
    | target k =>
      refine gives_of_symbol rfl ?_ h
      intro k' hk'
      rw [BranchKind.ofReloc?_eq_some_iff.2 rfl] at hk'
      cases hk'
      rfl
    | call => exact gives_of_call rfl h
    | constant => exact gives_of_constant rfl h
    | symbol => exact gives_of_symbol rfl (by intro k hk; cases hk) h
    | address => exact gives_of_address rfl rfl h
    | opcode =>
      obtain ⟨v, rfl, hv⟩ := toNat_lt_of_opcode h
      exact .value hv
    | compressedImm i => exact gives_of_constantWith (fun _ hv => hv) h

end Operand

end RiscvAssembler
