import RiscvAssembler.Proofs.Encoding.Expansion

/-!
Compressed templates and their counterparts. The table of expansions lists the pairs of patterns that
compressed templates and wide ones are made from; each entry carries the proof that the one stands
for the other. A constant that a compressed upper immediate loads is the one pair besides, as its
counterpart is a pseudo-instruction. Main statement: a counterpart has the effect of its template
(`sameEffect_of_expandsTo`).
-/

namespace RiscvAssembler

/-! ### The table of expansions -/

/-- A compressed pattern that stands for a wide one, on registers of some width or of any. -/
structure Expansion where
  width : Option Xlen
  guard : Guard
  short : Pattern
  wide : Pattern
  sound : ∀ x, width.all (· == x) = true → Expands x guard short wide

namespace Expansion

variable {guard : Guard} {short wide : Pattern}

/-- An expansion on registers of any width. -/
def common (h : ∀ {x}, Expands x guard short wide) : Expansion :=
  ⟨none, guard, short, wide, fun _ _ => h⟩

/-- An expansion on registers of one width. -/
def only (x : Xlen) (h : Expands x guard short wide) : Expansion :=
  ⟨some x, guard, short, wide, fun _ hx => eq_of_beq hx ▸ h⟩

/-- Loads and stores on registers of any width. -/
def commonAccesses {bank : Bank} {size : AccessSize} (h : ∀ x, IsShortAccess x bank size) :
    List Expansion :=
  [common (expands_load (h _)), common (expands_store (h _)), common (expands_stackLoad (h _)),
    common (expands_stackStore (h _))]

/-- Loads and stores on registers of one width. -/
def onlyAccesses {x : Xlen} {bank : Bank} {size : AccessSize} (h : IsShortAccess x bank size) :
    List Expansion :=
  [only x (expands_load h), only x (expands_store h), only x (expands_stackLoad h),
    only x (expands_stackStore h)]

end Expansion

open Expansion in
/-- All expansions. -/
def expansions : List Expansion :=
  [common (expands_closed 0x0 0xc0001073 (i := .illegal) (by decide)),
    common (expands_closed 0x9002 0x100073 (i := .ebreak) (by decide)),
    common (expands_closed 0x8082 0x8067 (i := .jalr 0 1 0) (by decide)),
    common (expands_closed 0x1 0x13 (i := .opImm .add 0 0 0) (by decide)),
    common expands_jump,
    common (expands_jumpRegister 0x8002 0x67 (r := 0) (by decide) (by decide)),
    common (expands_jumpRegister 0x9002 0xe7 (r := 1) (by decide) (by decide)),
    common (expands_branchZero 0xc001 0x63 (o := .eq) (by decide) (by decide)),
    common (expands_branchZero 0xe001 0x1063 (o := .ne) (by decide) (by decide)),
    common (expands_branch 0xc001 0x63 (o := .eq) (by decide) (by decide)),
    common (expands_branch 0xe001 0x1063 (o := .ne) (by decide) (by decide)),
    common expands_upper,
    common expands_constant,
    common expands_constant_zero,
    common expands_move,
    common expands_move_zero,
    common expands_keep,
    only .rv64 expands_keep_narrow,
    common expands_add,
    common expands_add_swap,
    common expands_add_zero,
    common (expands_operation 0x8c61 0x7033 (o := .and) (by decide) (by decide) nofun),
    common (expands_operation 0x8c01 0x40000033 (o := .sub) (by decide) (by decide) nofun),
    common (expands_operation 0x8c41 0x6033 (o := .or) (by decide) (by decide) nofun),
    common (expands_operation 0x8c21 0x4033 (o := .xor) (by decide) (by decide) nofun),
    only .rv64 (expands_operation 0x9c21 0x3b (o := .addw) (by decide) (by decide) fun _ => rfl),
    only .rv64
      (expands_operation 0x9c01 0x4000003b (o := .subw) (by decide) (by decide) fun _ => rfl),
    common (expands_operation_swap 0x8c61 0x7033 (o := .and) (by decide) (by decide) nofun
      (by decide)),
    common (expands_operation_swap 0x8c41 0x6033 (o := .or) (by decide) (by decide) nofun
      (by decide)),
    common (expands_operation_swap 0x8c21 0x4033 (o := .xor) (by decide) (by decide) nofun
      (by decide)),
    only .rv64 (expands_operation_swap 0x9c21 0x3b (o := .addw) (by decide) (by decide)
      (fun _ => rfl) (by decide)),
    common (expands_increment 0x1 0x13 (o := .add) (.inl rfl) (by decide) (by decide) nofun),
    common (expands_increment 0x1 0x13 (o := .add) (.inr rfl) (by decide) (by decide) nofun),
    only .rv64 (expands_increment 0x2001 0x1b (o := .addw) (.inl rfl) (by decide) (by decide)
      fun _ => rfl),
    common expands_and,
    common expands_stackAddress,
    common expands_stackAdjustment,
    common expands_shiftLeft,
    common (expands_shiftRight 0x8001 0x5013 (s := .right) (by decide) (by decide)),
    common (expands_shiftRight 0x8401 0x40005013 (s := .rightArithmetic) (by decide)
      (by decide))] ++
  commonAccesses .word ++ commonAccesses .floatDouble ++ onlyAccesses .double ++
  onlyAccesses .floatWord

namespace Template

variable {x : Xlen} {t u : Template} {τs : List Token}

/-- The pattern of a template. -/
def pattern (t : Template) : Pattern :=
  ⟨t.operands, t.matchBits⟩

theorem rd_ne_of_extract {w : Word} {r : BitVec 5} (h : Field.rd.extract w ≠ r.setWidth 64) :
    w.extractLsb' 7 5 ≠ r := by
  rintro rfl
  exact h (Field.extract_eq_setWidth .rd w)

/-- A word that a template admits satisfies its guard. -/
theorem holds_of_admits {w : Word} (h : t.admits w = true) : t.guard.Holds w := by
  unfold admits at h
  cases hguard : t.guard with
  | rdNonZero =>
    simp only [hguard, Bool.and_eq_true, bne_iff_ne] at h
    exact rd_ne_of_extract (r := 0#5) h.2
  | cAdd =>
    simp only [hguard, Bool.and_eq_true, bne_iff_ne] at h
    intro hzero
    refine h.2 ((Field.extract_eq_setWidth .compressedRs2 w).trans ?_)
    exact congrArg (BitVec.setWidth 64) hzero
  | cLui =>
    simp only [hguard, Bool.and_eq_true, bne_iff_ne] at h
    exact ⟨rd_ne_of_extract (r := 0#5) h.1.1.2, rd_ne_of_extract (r := 2#5) h.1.2⟩
  | _ => trivial

/-- Whether the table has an expansion of the first template into the second. -/
def expandsTo (t u : Template) : Bool :=
  t.isCompressed && !u.isPseudo && u.length == 4 &&
    expansions.any fun e => e.width.all (t.width == some ·) && e.guard == t.guard &&
      e.short == t.pattern && e.wide == u.pattern

theorem instructions?_of_isCompressed (h : t.isCompressed = true) :
    (t.encoded τs).instructions? x =
      (decode16 x ((t.pattern.draft τs).bits.setWidth 16)).map ([·]) := by
  simp only [isCompressed, isPseudo, Bool.and_eq_true, Bool.not_eq_true', Option.isSome_eq_false_iff,
    Option.isNone_iff_eq_none, beq_iff_eq] at h
  unfold Encoded.instructions?
  rw [show (t.encoded τs).template.pseudo = none from h.1]
  exact if_pos h.2

theorem instructions?_of_wide (hpseudo : u.isPseudo = false) (hlength : u.length = 4) :
    (u.encoded τs).instructions? x =
      (decode32 x ((u.pattern.draft τs).bits.setWidth 32)).map ([·]) := by
  simp only [isPseudo, Option.isSome_eq_false_iff, Option.isNone_iff_eq_none] at hpseudo
  unfold Encoded.instructions?
  rw [show (u.encoded τs).template.pseudo = none from hpseudo]
  exact if_neg (by simp [Encoded.length, encoded, hlength])

theorem denotes_of_isCompressed (h : t.isCompressed = true) {i : Instr}
    (hdecode : decode16 x ((t.pattern.draft τs).bits.setWidth 16) = some i)
    (hleaves : i.Leaves true (t.pattern.draft τs).reloc (t.pattern.draft τs).imm) :
    (t.encoded τs).Denotes x i := by
  refine ⟨?_, ?_⟩
  · rw [instructions?_of_isCompressed h, hdecode]
    rfl
  · simp only [isCompressed, Bool.and_eq_true, Bool.not_eq_true'] at h
    rw [if_neg (by simp [encoded, h.1])]
    exact h.2 ▸ hleaves

theorem denotes_of_wide (hpseudo : u.isPseudo = false) (hlength : u.length = 4) {i : Instr}
    (hdecode : decode32 x ((u.pattern.draft τs).bits.setWidth 32) = some i)
    (hleaves : i.Leaves false (u.pattern.draft τs).reloc (u.pattern.draft τs).imm) :
    (u.encoded τs).Denotes x i := by
  refine ⟨?_, ?_⟩
  · rw [instructions?_of_wide hpseudo hlength, hdecode]
    rfl
  · rw [if_neg (by simp [encoded, hpseudo])]
    have hlong : ((u.encoded τs).length == 2) = false := by simp [Encoded.length, encoded, hlength]
    rw [hlong]
    exact hleaves

theorem sameEffect_of_expandsTo (h : t.expandsTo u = true) (hwidth : t.width.all (· == x) = true)
    (htakes : TakesAll x t.start t.operands τs)
    (hadmits : t.admits (t.encoded τs).bits = true) :
    (t.encoded τs).SameEffect x (u.encoded τs) := by
  simp only [expandsTo, Bool.and_eq_true, List.any_eq_true, beq_iff_eq, Bool.not_eq_true'] at h
  obtain ⟨⟨⟨hshort, hpseudo⟩, hlength⟩, e, -, ⟨⟨hw, hguard⟩, hp⟩, hq⟩ := h
  have hx : e.width.all (· == x) = true := by
    cases hew : e.width with
    | none => rfl
    | some y =>
      rw [hew] at hw
      rw [eq_of_beq hw] at hwidth
      exact hwidth
  have hsound := e.sound x hx
  rw [hguard, hp, hq] at hsound
  obtain ⟨hbranch, i, j, hi, hj, hleaves, hleaves', hsame⟩ :=
    hsound τs htakes (holds_of_admits hadmits)
  exact ⟨hbranch, i, j, denotes_of_isCompressed hshort hi hleaves,
    denotes_of_wide hpseudo hlength hj hleaves', hsame⟩

/-! ### Upper constants -/

/-- A value that a compressed upper immediate loads takes one instruction to load. -/
theorem loadConstant_of_allows {v : Int64} (h : CompressedImm.luiValue.allows x v = true) {r : Nat}
    (hr : r ≠ 0) : loadConstant x r v = [.lui r (v.toBitVec.extractLsb' 12 20).toNat] := by
  obtain ⟨hne, hmod, hfits⟩ := CompressedImm.of_allows_luiValue h
  have hnarrow : fits32 v = true := by
    have hrange := Immediate.Gapless.range_of_fits (by decide) (by decide) hfits
    rw [Int64.le_iff_toInt_le, Int64.le_iff_toInt_le, CompressedImm.stored, Int64.toInt_ofBitVec,
      BitVec.toInt_sshiftRight, Int64.toInt_toBitVec, Int.shiftRight_eq_div_pow] at hrange
    simp only [fits32, Bool.and_eq_true, decide_eq_true_eq, Int64.le_iff_toInt_le]
    have hlow : (-2048 : Int64).toInt = -2048 := rfl
    have hhigh : (2047 : Int64).toInt = 2047 := rfl
    have hlow32 : (-0x80000000 : Int64).toInt = -0x80000000 := rfl
    have hhigh32 : (0x7fffffff : Int64).toInt = 0x7fffffff := rfl
    omega
  have hlow : lowPart v = 0 := by
    have hbits : v.toBitVec.setWidth 12 = 0#12 := by
      apply BitVec.eq_of_toNat_eq
      rw [BitVec.toNat_setWidth]
      exact hmod
    rw [lowPart, hbits]
    rfl
  have hupper : upperPart v = v := by
    rw [upperPart, hlow, Int64.sub_zero]
  unfold loadConstant
  rw [dif_neg (by simp [hnarrow])]
  simp [loadNarrow, hlow, hupper, hne, hr]

/-- The upper bits of a value are those that the compressed immediate holds. -/
theorem upper_of_allows {v : Int64} (h : CompressedImm.luiValue.allows x v = true) :
    (CompressedImm.luiValue.stored v).toBitVec.extractLsb' 0 6 ≠ 0#6 ∧
      ((CompressedImm.luiValue.stored v).toBitVec.extractLsb' 0 6).signExtend 20 =
        v.toBitVec.extractLsb' 12 20 := by
  obtain ⟨hne, hmod, hfits⟩ := CompressedImm.of_allows_luiValue h
  have hstored : CompressedImm.luiValue.stored v ≠ 0 := by
    intro hzero
    have hshift : v.toInt / 4096 = 0 := by
      have := congrArg Int64.toInt hzero
      rw [CompressedImm.stored, Int64.toInt_ofBitVec, BitVec.toInt_sshiftRight,
        Int64.toInt_toBitVec, Int.shiftRight_eq_div_pow] at this
      exact this
    have hint := toInt_eq_toNat_or v
    exact hne (Int64.toInt_inj.1 (show v.toInt = 0 by omega))
  refine ⟨Immediate.extractLsb'_width_ne_zero_of_fits ⟨rfl, by decide⟩ hfits hstored, ?_⟩
  have hextend := Immediate.signExtend_of_fits (m := 20) rfl (by decide) hfits (by decide)
  refine hextend.trans ?_
  apply BitVec.eq_of_getLsbD_eq
  intro i hi
  rw [BitVec.getLsbD_setWidth, BitVec.getLsbD_extractLsb', CompressedImm.stored]
  have hbit : 12 + i < 64 := by omega
  simp [BitVec.getLsbD_sshiftRight, hi, hbit]
  omega

/-- Whether the first template loads an upper constant that the second one is to load as a
pseudo-instruction. -/
def loadsUpper (t u : Template) : Bool :=
  t.isCompressed && t.guard == .cLui &&
    t.pattern == ⟨pair .rd (.compressedImm .luiValue), 0x6001⟩ && u.pseudo == some .li &&
    u.operands == pair .rd .constant

/-- The compressed instruction of an upper constant. -/
theorem denotes_of_upper (hshort : t.isCompressed = true)
    (hp : t.pattern = ⟨pair .rd (.compressedImm .luiValue), 0x6001⟩) {n : Nat}
    (hn : BitVec.ofNat 5 n ≠ 2#5) {v : Int64} (hv : CompressedImm.luiValue.allows x v = true) :
    (t.encoded [.register .integer n, .mark .comma, .constant v]).Denotes x
      (.lui (BitVec.ofNat 5 n) (v.toBitVec.extractLsb' 12 20)) := by
  obtain ⟨hne, hupper⟩ := upper_of_allows hv
  have hdecode := decode16_upper (x := x) (Token.register .integer n).value.toBitVec
    (CompressedImm.luiValue.stored v) (register_slice .integer n ▸ hn) hne
  rw [register_slice, hupper] at hdecode
  exact denotes_of_isCompressed hshort (hp ▸ hdecode) (hp ▸ .nothing rfl)

/-- The instruction that a pseudo-instruction loads it with. -/
theorem denotes_of_li (hpseudo : u.pseudo = some .li) (hu : u.operands = pair .rd .constant)
    {n : Nat} (hn : BitVec.ofNat 5 n ≠ 0#5) {v : Int64}
    (hv : CompressedImm.luiValue.allows x v = true) :
    (u.encoded [.register .integer n, .mark .comma, .constant v]).Denotes x
      (.lui (BitVec.ofNat 5 n) (v.toBitVec.extractLsb' 12 20)) := by
  have hdraft : u.encoded [.register .integer n, .mark .comma, .constant v] =
      ⟨u, Field.rd.insert u.matchBits (Token.register .integer n).value.toBitVec,
        some (.constant v), none⟩ := by
    unfold encoded
    rw [hu]
    rfl
  have hrd : (Field.rd.extract (Field.rd.insert u.matchBits
      (Token.register .integer n).value.toBitVec)).toNat = (BitVec.ofNat 5 n).toNat := by
    rw [Field.extract_eq_setWidth, ← register_slice .integer n, ← rd_slice u.matchBits,
      BitVec.toNat_setWidth]
    exact Nat.mod_eq_of_lt (Nat.lt_trans (BitVec.isLt _) (show 2 ^ 5 < 2 ^ 64 by decide))
  have hne : (BitVec.ofNat 5 n).toNat ≠ 0 := fun h => hn (BitVec.eq_of_toNat_eq h)
  rw [hdraft]
  refine ⟨?_, ?_⟩
  · unfold Encoded.instructions?
    rw [hpseudo]
    simp only [hrd, loadConstant_of_allows hv hne, List.map_cons, List.map_nil, ConstantStep.instr,
      BitVec.ofNat_toNat, BitVec.setWidth_eq]
  · rw [if_pos (by simp [isPseudo, hpseudo])]

theorem sameEffect_of_loadsUpper (h : t.loadsUpper u = true)
    (htakes : TakesAll x t.start t.operands τs)
    (hadmits : t.admits (t.encoded τs).bits = true) :
    (t.encoded τs).SameEffect x (u.encoded τs) := by
  simp only [loadsUpper, Bool.and_eq_true, beq_iff_eq] at h
  obtain ⟨⟨⟨⟨hshort, hguard⟩, hp⟩, hpseudo⟩, hu⟩ := h
  obtain ⟨hops, hmatch⟩ := Pattern.mk.inj hp
  have hholds : Guard.cLui.Holds (t.pattern.draft τs).bits := hguard ▸ holds_of_admits hadmits
  rw [hops] at htakes
  obtain ⟨α, β, rfl, hα, hβ⟩ := tokens_of_pair htakes
  obtain ⟨n, rfl⟩ := Operand.takes_register_iff.1 hα
  obtain ⟨v, rfl, hv⟩ := Operand.takes_compressedImm_iff.1 hβ
  rw [hp] at hholds
  have hslice := (rd_slice_or (l := .ci) (by decide) 0x6001
    (Token.register .integer n).value.toBitVec (CompressedImm.luiValue.stored v)).trans
      (register_slice .integer n)
  refine ⟨?_, _, _, denotes_of_upper hshort hp (fun h => hholds.2 (hslice.trans h)) hv,
    denotes_of_li hpseudo hu (fun h => hholds.1 (hslice.trans h)) hv, .refl _⟩
  unfold Encoded.branch? encoded
  rw [hops, hu]
  rfl

/-- Whether the second template is the counterpart of the first. -/
def hasCounterpart (t u : Template) : Bool :=
  t.expandsTo u || t.loadsUpper u

theorem length_of_hasCounterpart (h : t.hasCounterpart u = true) :
    u.length = 4 ∨ u.pseudo = some .li := by
  rcases Bool.or_eq_true_iff.1 h with h | h
  · simp only [expandsTo, Bool.and_eq_true, beq_iff_eq] at h
    exact .inl h.1.2
  · simp only [loadsUpper, Bool.and_eq_true, beq_iff_eq] at h
    exact .inr h.1.2

/-- **A counterpart has the effect of its template.** -/
theorem sameEffect_of_hasCounterpart (h : t.hasCounterpart u = true)
    (hwidth : t.width.all (· == x) = true) (htakes : TakesAll x t.start t.operands τs)
    (hadmits : t.admits (t.encoded τs).bits = true) :
    (t.encoded τs).SameEffect x (u.encoded τs) := by
  rcases Bool.or_eq_true_iff.1 h with h | h
  · exact sameEffect_of_expandsTo h hwidth htakes hadmits
  · exact sameEffect_of_loadsUpper h htakes hadmits

end Template

end RiscvAssembler
