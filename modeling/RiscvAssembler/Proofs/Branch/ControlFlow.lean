import RiscvAssembler.Proofs.Machine.Control
import RiscvAssembler.Proofs.Machine.Fetch
import RiscvAssembler.Proofs.Section.Filling
import RiscvAssembler.Proofs.Word.Range

/-!
Branches after layout. Whatever length layout gives a branch, a machine that runs its bytes ends up
where the original instruction would have gone, with the registers that it would have left:
`layout_preserves_control_flow`. For the forms of 2 and 4 bytes this takes one step, for those of 6
and 8 bytes one or two.
-/

namespace RiscvAssembler

variable {x : Xlen}

/-! ### Genuine branches -/

namespace BranchKind

/-- The instruction that the word of a branch spells. -/
def instr? (x : Xlen) (k : BranchKind) (insn : Word) : Option Instr :=
  if k.isShort then decode16 x (insn.setWidth 16) else decode32 x (insn.setWidth 32)

/-- Whether an instruction is a branch or jump of this kind, with no distance in it. -/
def admits (k : BranchKind) : Instr → Bool
  | .branch _ _ _ offset => !k.isJump && offset == 0
  | .jal _ offset => k.isJump && offset == 0
  | _ => false

theorem eq_of_admits {k : BranchKind} {i : Instr} (h : k.admits i = true) :
    (k.isJump = false ∧ ∃ c r s, i = .branch c r s 0) ∨ k.isJump = true ∧ ∃ r, i = .jal r 0 := by
  cases i with
  | branch c r s o =>
    obtain ⟨hk, ho⟩ := Bool.and_eq_true_iff.1 h
    exact .inl ⟨by simpa using hk, c, r, s, by rw [beq_iff_eq.1 ho]⟩
  | jal r o =>
    obtain ⟨hk, ho⟩ := Bool.and_eq_true_iff.1 h
    exact .inr ⟨hk, r, by rw [beq_iff_eq.1 ho]⟩
  | _ => cases h

/-- Bits of a distance that a branch of this kind holds, without the sign. -/
def distanceBits : BranchKind → Nat
  | .branch => 12
  | .jump => 20
  | .shortBranch => 8
  | .shortJump => 11

/-- The relocation of a compressed branch or jump is about two bytes. -/
theorem size_reloc_of_isShort {k : BranchKind} (h : k.isShort = true) : k.reloc.info.size = 2 := by
  revert h
  cases k <;> decide

theorem instr?_wide (k : BranchKind) (insn : Word) :
    k.wide.instr? x insn = decode32 x (insn.setWidth 32) := by
  cases k <;> rfl

theorem admits_wide (k : BranchKind) (i : Instr) : k.wide.admits i = k.admits i := by
  cases k <;> rfl

theorem size_reloc_wide (k : BranchKind) : k.wide.reloc.info.size = 4 := by
  cases k <;> rfl

/-- A distance is even and in the range of the kind. -/
structure Spans (k : BranchKind) (d : Int64) : Prop where
  even : d.toBitVec.extractLsb' 0 1 = 0#1
  range : -2 ^ k.distanceBits ≤ d.toInt ∧ d.toInt < 2 ^ k.distanceBits

theorem immediate_mem (k : BranchKind) : k.immediate ∈ Immediate.all := by
  cases k <;> decide

/-- The field of a branch can hold the distances that it spans, and no others. -/
theorem fits_iff_spans (k : BranchKind) (d : Int64) : k.immediate.fits d = true ↔ k.Spans d := by
  have hlow : k.immediate.low = 1 := by cases k <;> rfl
  have hwidth : k.immediate.width = k.distanceBits + 1 := by cases k <;> rfl
  have hsigned : k.immediate.signed = true := by cases k <;> rfl
  rw [(Immediate.gapless_of_mem k.immediate_mem).fits_iff, Immediate.Holds, hlow, hwidth,
    if_pos hsigned, ← extractLsb'_eq_zero_iff (by decide)]
  exact ⟨fun ⟨heven, hrange⟩ => ⟨heven, hrange⟩, fun h => ⟨h.even, h.range⟩⟩

theorem branchBits?_eq_some_iff {k : BranchKind} {d : Int64} {field : Word} :
    k.reloc.branchBits? d = some field ↔ k.Spans d ∧ field = k.immediate.encode d := by
  rw [← fits_iff_spans, RelocType.branchBits?, ofReloc?_eq_some_iff.2 rfl]
  dsimp only
  split
  · rename_i hfits
    rw [Option.some.injEq]
    exact ⟨fun h => ⟨hfits, h.symm⟩, fun h => h.2.symm⟩
  · rename_i hfits
    exact iff_of_false (Option.some_ne_none field).symm fun h => hfits h.1

theorem Spans.branchBits? {k : BranchKind} {d : Int64} (h : k.Spans d) :
    k.reloc.branchBits? d = some (k.immediate.encode d) :=
  branchBits?_eq_some_iff.2 ⟨h, rfl⟩

end BranchKind

/-- Whether an operation appends nothing that merely looks like a branch: every branch is one of its
kind, with no distance in it, and data has no relocation of a branch. -/
def SectionOp.isGenuine (x : Xlen) : SectionOp → Bool
  | .data _ fixup => fixup.all fun f => (BranchKind.ofReloc? f.kind).isNone
  | .branch insn kind _ _ =>
    (BranchKind.ofReloc? kind).all fun k => (k.instr? x insn).any k.admits
  | .define _ => true

/-! ### Execution of one word -/

/-- The offset of a branch or jump moves the program counter by the distance. -/
theorem signExtend_offset {n : Nat} {d : Int64} (hn : n < 64)
    (h : -2 ^ n ≤ d.toInt ∧ d.toInt < 2 ^ n) :
    (d.toBitVec.extractLsb' 0 (n + 1)).signExtend x.bits = d.toBitVec.setWidth x.bits :=
  signExtend_extractLsb' hn (by cases x <;> decide) h

/-- The offset of a compressed branch or jump, in the instruction it stands for. -/
theorem signExtend_short {n m : Nat} {d : Int64} (hn : n < 64) (hm : m ≤ 64)
    (h : -2 ^ n ≤ d.toInt ∧ d.toInt < 2 ^ n) :
    (d.toBitVec.extractLsb' 0 (n + 1)).signExtend m = d.toBitVec.extractLsb' 0 m := by
  rw [← BitVec.setWidth_eq_extractLsb' hm]
  exact signExtend_extractLsb' hn hm h

/-- One step over the word of a branch or jump with its distance filled in. -/
theorem Machine.step_of_filled {m : Machine x} {k : BranchKind} {w : Word} {i : Instr} {d : Int64}
    (hi : k.instr? x w = some i) (ha : k.admits i = true) (hd : k.Spans d)
    (hm : m.Holds m.pc ((w ||| k.immediate.encode d).toBytes k.reloc.info.size)) :
    m.step = i.exec (m.pc + BitVec.ofNat x.bits k.reloc.info.size)
      (m.pc + d.toBitVec.setWidth x.bits) m := by
  obtain ⟨heven, hrange⟩ := hd
  cases k with
  | branch =>
    have hoff : (d.toBitVec.extractLsb' 0 13).signExtend x.bits = d.toBitVec.setWidth x.bits :=
      signExtend_offset (by decide) hrange
    obtain ⟨-, c, r, s, rfl⟩ | ⟨hj, -⟩ := BranchKind.eq_of_admits ha
    · rw [step_of_decode32 hm (decode32_branch_or_encode hi heven), Instr.target, hoff]
      rfl
    · cases hj
  | jump =>
    have hoff : (d.toBitVec.extractLsb' 0 21).signExtend x.bits = d.toBitVec.setWidth x.bits :=
      signExtend_offset (by decide) hrange
    obtain ⟨hj, -⟩ | ⟨-, r, rfl⟩ := BranchKind.eq_of_admits ha
    · cases hj
    · rw [step_of_decode32 hm (decode32_jal_or_encode hi heven), Instr.target, hoff]
      rfl
  | shortBranch =>
    have hshort : (d.toBitVec.extractLsb' 0 9).signExtend 13 = d.toBitVec.extractLsb' 0 13 :=
      signExtend_short (by decide) (by decide) hrange
    have hoff : (d.toBitVec.extractLsb' 0 13).signExtend x.bits = d.toBitVec.setWidth x.bits := by
      simp only [BranchKind.distanceBits] at hrange
      exact signExtend_offset (by decide) (by omega)
    obtain ⟨-, c, r, s, rfl⟩ | ⟨hj, -⟩ := BranchKind.eq_of_admits ha
    · rw [step_of_decode16 hm (decode16_branch_or_encode hi heven), Instr.target, hshort, hoff]
      rfl
    · cases hj
  | shortJump =>
    have hshort : (d.toBitVec.extractLsb' 0 12).signExtend 21 = d.toBitVec.extractLsb' 0 21 :=
      signExtend_short (by decide) (by decide) hrange
    have hoff : (d.toBitVec.extractLsb' 0 21).signExtend x.bits = d.toBitVec.setWidth x.bits := by
      simp only [BranchKind.distanceBits] at hrange
      exact signExtend_offset (by decide) (by omega)
    obtain ⟨hj, -⟩ | ⟨-, r, rfl⟩ := BranchKind.eq_of_admits ha
    · cases hj
    · rw [step_of_decode16 hm (decode16_jal_or_encode hi heven), Instr.target, hshort, hoff]
      rfl

/-! ### Execution of one branch -/

namespace Machine

theorem run_one (m : Machine x) : m.run 1 = m.step := by
  unfold run
  cases m.step <;> rfl

theorem run_two {m m' : Machine x} (h : m.step = .ok m') : m.run 2 = m'.step := by
  rw [run, h, ← run_one]
  rfl

/-- A branch on the opposite condition over a jump does what the branch itself would do. -/
theorem run_over {m : Machine x} {c : Condition} {r s : Reg} {d : Int64} {before n : Nat}
    {skip : BitVec 13}
    (hstep : m.step = (Instr.branch c.opposite r s skip).exec (m.pc + BitVec.ofNat x.bits before)
      (m.pc + BitVec.ofNat x.bits n) m)
    (hjump : m.Holds (m.pc + BitVec.ofNat x.bits before)
      ((BranchWord.jal ||| Immediate.j.encode d).toBytes 4)) (hd : BranchKind.jump.Spans d) :
    ∃ steps, 0 < steps ∧ steps ≤ 2 ∧ m.run steps =
      (Instr.branch c r s 0).exec (m.pc + BitVec.ofNat x.bits n)
        (m.pc + BitVec.ofNat x.bits before + d.toBitVec.setWidth x.bits) m := by
  simp only [Instr.exec, Condition.holds_opposite] at hstep
  cases hc : c.holds (m.read r) (m.read s) with
  | false =>
    refine ⟨1, by decide, by decide, ?_⟩
    rw [run_one, hstep]
    simp [Instr.exec, hc]
  | true =>
    refine ⟨2, by decide, by decide, ?_⟩
    simp only [hc, Bool.not_true, Bool.false_eq_true, if_false] at hstep
    have hi : BranchKind.jump.instr? x BranchWord.jal = some (.jal 0 0) := by
      rw [BranchKind.instr?, if_neg (by decide)]
      exact decode32_eq_jal_iff.2 ⟨rfl, rfl, rfl⟩
    rw [run_two hstep, step_of_filled hi rfl hd hjump]
    simp [Instr.exec, hc, goto, write]

end Machine

/-- The wide word of a branch spells the instruction that its own word spells. -/
theorem Branch.instr?_wideWord {b : Branch} {i : Instr} (hi : b.kind.instr? x b.insn = some i)
    (ha : b.kind.admits i = true) {w : Word} (hw : b.wideWord = .ok w) :
    b.kind.wide.instr? x w = some i := by
  rw [BranchKind.instr?_wide]
  unfold wideWord at hw
  unfold BranchKind.instr? at hi
  cases hs : b.kind.isShort with
  | false =>
    rw [hs] at hi hw
    cases hw
    exact hi
  | true =>
    rw [hs] at hi hw
    obtain ⟨-, c, r, s, rfl⟩ | ⟨-, r, rfl⟩ := BranchKind.eq_of_admits ha
    · obtain ⟨w', hw', hdec⟩ := decode32_expand_branch hi
      cases hw'.symm.trans hw
      exact hdec
    · obtain ⟨w', hw', hdec⟩ := decode32_expand_jal hi
      cases hw'.symm.trans hw
      exact hdec

/-- Whatever its form, a branch with its distance filled in does what its instruction says. -/
theorem Branch.Form.run {b : Branch} {k : BranchKind} {before : List UInt8} {w : Word}
    (hform : b.Form k before w) {distance : Option Int64}
    (hr : b.kind.reaches b.length distance = true) {i : Instr}
    (hi : b.kind.instr? x b.insn = some i) (ha : b.kind.admits i = true) {d : Int64}
    (hd : k.Spans d) {m : Machine x}
    (hm : m.Holds m.pc (before ++ (w ||| k.immediate.encode d).toBytes k.reloc.info.size)) :
    ∃ steps, 0 < steps ∧ steps ≤ 2 ∧ m.run steps =
      i.exec (m.pc + BitVec.ofNat x.bits b.length)
        (m.pc + BitVec.ofNat x.bits before.length + d.toBitVec.setWidth x.bits) m := by
  cases hform with
  | short hl =>
    rw [hl] at hr
    have hsize := BranchKind.size_reloc_of_isShort (short_of_reaches_two hr).1
    refine ⟨1, by decide, by decide, ?_⟩
    rw [Machine.run_one, Machine.step_of_filled hi ha hd hm, hsize, hl]
    simp
  | wide hl hw =>
    have hi' := instr?_wideWord hi ha hw
    rw [← BranchKind.admits_wide] at ha
    refine ⟨1, by decide, by decide, ?_⟩
    rw [Machine.run_one, Machine.step_of_filled hi' ha hd hm, BranchKind.size_reloc_wide, hl]
    simp
  | shortOver hl =>
    rw [hl] at hr
    have hk : b.kind = .shortBranch := of_decide_eq_true hr
    rw [hk] at hi ha
    obtain ⟨-, c, r, s, rfl⟩ | ⟨hj, -⟩ := BranchKind.eq_of_admits ha
    · have hskip := Machine.step_of_decode16 hm.left (decode16_skipShort hi)
      have hjump := hm.right
      rw [Word.length_toBytes] at hjump ⊢
      rw [hl]
      have hsix : (6#13).signExtend x.bits = BitVec.ofNat x.bits 6 := by cases x <;> rfl
      rw [Instr.target, BitVec.ofNat_eq_ofNat, hsix] at hskip
      exact Machine.run_over hskip hjump hd
    · cases hj
  | wideOver hl hw =>
    rw [hl] at hr
    have hnot : (!b.kind.isJump) = true := hr
    have hk : b.kind.isJump = false := by simpa using hnot
    have hi' := instr?_wideWord hi ha hw
    rw [BranchKind.instr?_wide] at hi'
    obtain ⟨-, c, r, s, rfl⟩ | ⟨hj, -⟩ := BranchKind.eq_of_admits ha
    · have hskip := Machine.step_of_decode32 hm.left (decode32_skip hi')
      have hjump := hm.right
      rw [Word.length_toBytes] at hjump ⊢
      rw [hl]
      have height : (8#13).signExtend x.bits = BitVec.ofNat x.bits 8 := by cases x <;> rfl
      rw [Instr.target, BitVec.ofNat_eq_ofNat, height] at hskip
      exact Machine.run_over hskip hjump hd
    · rw [hk] at hj
      cases hj

/-! ### Distances -/

namespace Branch

/-- The distance that is filled in for a branch at an address. It counts from the last word. -/
def delta (b : Branch) (address target : Nat) : Int64 :=
  Int64.ofNat target + b.offset - Int64.ofNat (address + (b.length - 4))

theorem delta_of_length_le {b : Branch} {address target : Nat} (h : b.length ≤ 4) :
    b.delta address target = Int64.ofNat target + b.offset - Int64.ofNat address := by
  rw [delta, Nat.sub_eq_zero_of_le h, Nat.add_zero]

theorem toBitVec_delta (b : Branch) (address target : Nat) :
    (b.delta address target).toBitVec =
      BitVec.ofInt 64 (target + b.offset.toInt - (address + (b.length - 4) : Nat)) := by
  have hoffset : BitVec.ofInt 64 b.offset.toInt = b.offset.toBitVec := BitVec.ofInt_toInt
  rw [delta, Int64.toBitVec_sub, Int64.toBitVec_add, Int.sub_eq_add_neg, BitVec.ofInt_add,
    BitVec.ofInt_add, BitVec.ofInt_neg, BitVec.ofInt_natCast, BitVec.ofInt_natCast, hoffset,
    BitVec.sub_eq_add_neg]
  rfl

theorem extractLsb'_delta {b : Branch} {address target : Nat}
    (hl : 2 ∣ b.length) (h : (2 : Int) ∣ target + b.offset.toInt - address) :
    (b.delta address target).toBitVec.extractLsb' 0 1 = 0#1 := by
  apply BitVec.eq_of_toNat_eq
  rw [toBitVec_delta, BitVec.extractLsb'_toNat, BitVec.toNat_ofInt]
  simp
  omega

theorem setWidth_ofInt (z : Int) : (BitVec.ofInt 64 z).setWidth x.bits = BitVec.ofInt x.bits z := by
  apply BitVec.eq_of_toNat_eq
  rw [BitVec.toNat_setWidth, BitVec.toNat_ofInt, BitVec.toNat_ofInt]
  cases x
  · simp only [Xlen.bits]
    omega
  · simp only [Xlen.bits]
    omega

/-- The distance leads to the target. -/
theorem add_setWidth_delta (b : Branch) (address target : Nat) (base : BitVec x.bits) :
    base + BitVec.ofNat x.bits address + BitVec.ofNat x.bits (b.length - 4) +
        (b.delta address target).toBitVec.setWidth x.bits =
      base + BitVec.ofInt x.bits (target + b.offset.toInt) := by
  rw [toBitVec_delta, setWidth_ofInt, ← BitVec.ofInt_natCast, ← BitVec.ofInt_natCast,
    BitVec.add_assoc, BitVec.add_assoc, ← BitVec.ofInt_add, ← BitVec.ofInt_add]
  congr 2
  omega

theorem Form.length_before {b : Branch} {k : BranchKind} {before : List UInt8} {w : Word}
    (h : b.Form k before w) : before.length = b.length - 4 := by
  cases h with
  | short hl => rw [hl]; rfl
  | wide hl _ => rw [hl]; rfl
  | shortOver hl => rw [hl]; rfl
  | wideOver hl _ => rw [hl]; rfl

/-- A form that layout chose can hold the distance, if a jump can. -/
theorem Form.spans {b : Branch} {k : BranchKind} {before : List UInt8} {w : Word}
    (hform : b.Form k before w) {address target : Nat}
    (hr : b.kind.reaches b.length
      (some (Int64.ofNat target + b.offset - Int64.ofNat address)) = true)
    (heven : (2 : Int) ∣ target + b.offset.toInt - address)
    (hfits : -2 ^ 20 ≤ (b.delta address target).toInt ∧ (b.delta address target).toInt < 2 ^ 20) :
    k.Spans (b.delta address target) := by
  refine ⟨extractLsb'_delta ?_ heven, ?_⟩
  · rcases length_of_reaches hr with hl | hl | hl | hl <;> rw [hl] <;> decide
  cases hform with
  | short hl =>
    rw [← delta_of_length_le (by omega), hl] at hr
    obtain ⟨hk, d, hsome, hd⟩ := short_of_reaches_two hr
    cases hsome
    rw [BranchKind.within_iff (by cases b.kind <;> decide)] at hd
    cases hkind : b.kind with
    | branch | jump =>
      rw [hkind] at hk
      cases hk
    | shortBranch | shortJump =>
      rw [hkind] at hd
      exact hd
  | wide hl hw =>
    rw [← delta_of_length_le (by omega), hl] at hr
    cases hj : b.kind.isJump with
    | true =>
      rw [BranchKind.wide, hj]
      exact hfits
    | false =>
      have hd := within_of_reaches_four hj hr
      rw [BranchKind.within_iff (by decide)] at hd
      rw [BranchKind.wide, hj]
      exact hd
  | shortOver hl => exact hfits
  | wideOver hl hw => exact hfits

end Branch

/-! ### Layouts -/

/-- An item of genuine operations. -/
def Item.Genuine (x : Xlen) : Item → Prop
  | .data bytes fixup => Item.Inert (.data bytes fixup)
  | .branch b _ => ∃ i, b.kind.instr? x b.insn = some i ∧ b.kind.admits i = true

theorem Item.Genuine.inert {item : Item} (h : item.Genuine x) : item.Inert := by
  cases item with
  | data bytes fixup => exact h
  | branch b relax => trivial

theorem Item.genuine_appended {item : Item} : item.appended.Genuine x ↔ item.Genuine x := by
  cases item <;> rfl

theorem SectionOp.genuine_of_item? {op : SectionOp} (hop : op.isGenuine x = true) {item : Item}
    (h : op.item? = some item) : item.Genuine x := by
  cases op with
  | data bytes fixup =>
    cases h
    intro f hf
    cases hf
    simpa [isGenuine] using hop
  | branch insn kind target relax =>
    cases target with
    | symbol name addend =>
      obtain ⟨k, hk, rfl⟩ := Option.map_eq_some_iff.1 h
      have hany : ((k.instr? x insn).any k.admits) = true := by simpa [isGenuine, hk] using hop
      exact (Option.any_eq_true _ _).1 hany
    | constant v => cases h
    | register r => cases h
  | define name => cases h

/-- Layout keeps items genuine. -/
theorem Section.LaidOut.genuine {ops : List SectionOp} {s' mid : Section} {l : Layout}
    {pieces : List Piece} (h : LaidOut (build ops) s' l mid pieces)
    (hops : ∀ op ∈ ops, op.isGenuine x = true) : ∀ item ∈ s'.items.toList, item.Genuine x := by
  intro item hitem
  have hmem : item.appended ∈ ops.filterMap SectionOp.item? := by
    rw [← items_build, ← map_appended_build, ← h.appended]
    exact List.mem_map_of_mem hitem
  obtain ⟨op, hop, heq⟩ := List.mem_filterMap.1 hmem
  exact Item.genuine_appended.1 (SectionOp.genuine_of_item? (hops op hop) heq)

/-- The distance from an address to a symbol of a layout. -/
theorem Section.LaidOut.distance? {ops : List SectionOp} {s' mid : Section} {l : Layout}
    {pieces : List Piece} (h : LaidOut (build ops) s' l mid pieces) {name : String} {target : Nat}
    (htarget : (name, target) ∈ l.symbols) (addend : Int64) (start : Nat) :
    mid.distance? mid.offsets name addend start =
      some (Int64.ofNat target + addend - Int64.ofNat start) := by
  have hbound := bounded_build ops
  rw [h.symbols_eq hbound] at htarget
  obtain ⟨⟨name', i⟩, hmem, heq⟩ := List.mem_map.1 htarget
  obtain ⟨rfl, rfl⟩ := Prod.mk.inj heq
  have hi := Std.TreeMap.mem_toList_iff_getElem?_eq_some.1 hmem
  rw [Section.distance?, Layout.distance?, h.address?, hi, Option.bind_some,
    if_pos (hbound _ i hi)]
  rfl

/-- **Layout preserves control flow.** A machine that comes to a branch of a layout, wherever in
memory the section stands, goes on as if it had executed the original instruction with the length
that layout chose: to the target if the condition holds, else to the address after the branch, with
no register changed but the link register of a jump. -/
theorem layout_preserves_control_flow (x : Xlen) (ops : List SectionOp)
    (hops : ∀ op ∈ ops, op.isGenuine x = true) {l : Layout}
    (hl : (Section.build ops).layout.2 = .ok l) {n : Nat} {b : Branch} {relax : Bool}
    (hb : (Section.build ops).layout.1.items.toList[n]? = some (.branch b relax))
    {address target : Nat}
    (haddress : startOf (Section.build ops).layout.1.items.toList n = address)
    (htarget : (b.target, target) ∈ l.symbols)
    (heven : (2 : Int) ∣ target + b.offset.toInt - address)
    (hfits : -2 ^ 20 ≤ (b.delta address target).toInt ∧ (b.delta address target).toInt < 2 ^ 20)
    (m : Machine x) (base : BitVec x.bits) (hpc : m.pc = base + BitVec.ofNat x.bits address)
    (hm : m.Holds m.pc ((l.bytes.drop address).take b.length)) :
    ∃ i, b.kind.instr? x b.insn = some i ∧ b.kind.admits i = true ∧
      ∃ steps, 0 < steps ∧ steps ≤ 2 ∧ m.run steps =
        i.exec (m.pc + BitVec.ofNat x.bits b.length)
          (base + BitVec.ofInt x.bits (target + b.offset.toInt)) m := by
  obtain ⟨s', hs'⟩ : ∃ s', (Section.build ops).layout.1 = s' := ⟨_, rfl⟩
  rw [hs'] at hb haddress
  obtain ⟨mid, pieces, hlaid⟩ := Section.laidOut_of_layout (Prod.ext hs' hl)
  have hgenuine := hlaid.genuine hops
  have hfilled := hlaid.filled (fun item hitem => (hgenuine item hitem).inert) hb
  obtain ⟨i, hi, ha⟩ := hgenuine _ (List.mem_of_getElem? hb)
  obtain ⟨k, before, w, hform, hr, hout⟩ := hfilled
  rw [haddress, hlaid.distance? htarget] at hr
  have hspans := hform.spans hr heven hfits
  rw [haddress, hlaid.distance? htarget, hform.length_before, Option.bind_some] at hout
  rw [show (Item.branch b relax).size = b.length from rfl] at hout
  have hbits := hspans.branchBits?
  rw [Branch.delta] at hbits
  rw [hbits, Option.getD_some] at hout
  rw [hout] at hm
  obtain ⟨steps, hpos, hle, hrun⟩ := hform.run hr hi ha hspans hm
  refine ⟨i, hi, ha, steps, hpos, hle, ?_⟩
  rw [hrun, hform.length_before, hpc, Branch.add_setWidth_delta]

/-- A machine about to run bytes from address zero on, with zero in every register. -/
def Machine.boot (x : Xlen) (bytes : List UInt8) : Machine x :=
  ⟨0, fun _ => 0, fun _ => 0, fun a => (bytes[a.toNat]?.getD 0).toBitVec⟩

theorem Machine.holds_boot {bytes : List UInt8} (h : bytes.length ≤ 2 ^ 32) :
    (boot x bytes).Holds 0 bytes := by
  intro i b hb
  have hi : i < 2 ^ x.bits := by
    have hlt := (List.getElem?_eq_some_iff.1 hb).1
    cases x <;> simp only [Xlen.bits] <;> omega
  simp [boot, Nat.mod_eq_of_lt hi, hb]

/-- A compressed branch on `x8 = 0`, too far from its target for one instruction. -/
def farOps : List SectionOp :=
  [.branch 0xc001 .rvcBranch (.symbol "end" 0) true, .data (List.replicate 4096 0) none,
    .define "end"]

/-- The branch of `farOps` after layout: a compressed branch on `x8 ≠ 0` over a jump. -/
def farBranch : Branch :=
  ⟨.shortBranch, 6, "end", 0, 0xc001, .emitted⟩

theorem layout_farOps :
    ∃ l, (Section.build farOps).layout.2 = .ok l ∧ l.symbols = [("end", 4102)] ∧
      l.bytes.take 6 = [0x19, 0xe0, 0x6f, 0x10, 0x40, 0x00] := by
  have h : (Section.build farOps).layout.2.toOption.map (fun l => (l.symbols, l.bytes.take 6)) =
      some ([("end", 4102)], [0x19, 0xe0, 0x6f, 0x10, 0x40, 0x00]) := by
    decide +kernel
  obtain ⟨l, hl, heq⟩ := Option.map_eq_some_iff.1 h
  obtain ⟨hsymbols, hbytes⟩ := Prod.mk.inj heq
  exact ⟨l, eq_ok_of_toOption hl, hsymbols, hbytes⟩

theorem items_farOps :
    (Section.build farOps).layout.1.items.toList[0]? = some (.branch farBranch true) := by
  decide +kernel

theorem layout_preserves_control_flow_farOps :
    ∃ l, (Section.build farOps).layout.2 = .ok l ∧ ("end", 4102) ∈ l.symbols ∧
      ∃ steps, 0 < steps ∧ steps ≤ 2 ∧ (Machine.boot .rv64 (l.bytes.take 6)).run steps =
        .ok ((Machine.boot .rv64 (l.bytes.take 6)).goto 4102) := by
  obtain ⟨l, hl, hsymbols, hbytes⟩ := layout_farOps
  have hmem : ("end", 4102) ∈ l.symbols := by simp [hsymbols]
  have hholds : (Machine.boot .rv64 (l.bytes.take 6)).Holds 0 ((l.bytes.drop 0).take 6) :=
    Machine.holds_boot (by rw [hbytes]; decide)
  obtain ⟨i, hi, -, steps, hpos, hle, hrun⟩ :=
    layout_preserves_control_flow .rv64 farOps (by decide +kernel) hl items_farOps
      (startOf_zero _) hmem (by decide) (by decide) (Machine.boot .rv64 (l.bytes.take 6)) 0 rfl
      hholds
  have hdec : farBranch.kind.instr? .rv64 farBranch.insn = some (.branch .eq 8 0 0) := by decide
  cases hdec.symm.trans hi
  exact ⟨l, hl, hmem, steps, hpos, hle, hrun⟩

end RiscvAssembler
