import RiscvAssembler.Proofs.Branch.Stray
import RiscvAssembler.Proofs.Section.Relaxation

/-!
Lengths of branches and their fields. Lengths are chosen by the reach of each form, while a field is
filled in if its layout can hold the distance, at the bits that the relocation names. The three
agree: a form is chosen for just the even distances that its field can hold (`shortReach_iff_spans`,
`conditionalReach_iff_spans`), and the field stands at the bits of the relocation.
-/

namespace RiscvAssembler.BranchKind

variable {k : BranchKind} {d : Int64}

/-! ### Reaches -/

/-- The even distances that a branch spans are those in its range. -/
theorem spans_iff_of_even (heven : 2 ∣ d.toInt) :
    k.Spans d ↔ -2 ^ k.distanceBits ≤ d.toInt ∧ d.toInt < 2 ^ k.distanceBits :=
  ⟨Spans.range, fun hrange => ⟨(extractLsb'_eq_zero_iff (by decide) d).2 heven, hrange⟩⟩

theorem shortReach_iff_spans (hk : k.isShort = true) (heven : 2 ∣ d.toInt) :
    within k.shortReach d = true ↔ k.Spans d := by
  have hreach : k.shortReach.toInt = 2 ^ k.distanceBits := by
    cases k with
    | shortBranch | shortJump => rfl
    | branch | jump => cases hk
  rw [within_iff k.shortReach_pos, spans_iff_of_even heven, hreach]

theorem conditionalReach_iff_spans (heven : 2 ∣ d.toInt) :
    within conditionalReach d = true ↔ branch.Spans d := by
  rw [within_iff (by decide), spans_iff_of_even heven]
  exact Iff.rfl

/-! ### Fields -/

theorem isSome_branchBits?_iff : (k.reloc.branchBits? d).isSome = true ↔ k.Spans d := by
  rw [Option.isSome_iff_exists]
  constructor
  · rintro ⟨field, hfield⟩
    exact (branchBits?_eq_some_iff.1 hfield).1
  · intro hspans
    exact ⟨_, hspans.branchBits?⟩

theorem lengthAt_eq_two_iff (k : BranchKind) (d : Int64) :
    k.lengthAt (some d) = 2 ↔ k.isShort = true ∧ within k.shortReach d = true := by
  rw [← lengthAt_le_two_iff]
  have hcases := k.lengthAt_cases (some d)
  omega

/-- **Lengths and fields agree.** For every even distance: a branch gets two bytes exactly if it has
a compressed form whose field can hold the distance, and a conditional branch gets at most four
bytes exactly if the field of a conditional branch can hold it. A field that holds a distance lies
in the bits of its relocation, is the encoding of the distance, and gives the distance back. -/
theorem lengths_agree_with_fields (heven : 2 ∣ d.toInt) :
    (∀ k : BranchKind, k.lengthAt (some d) = 2 ↔
      k.isShort = true ∧ (k.reloc.branchBits? d).isSome = true) ∧
    (∀ k : BranchKind, k.isJump = false →
      (k.lengthAt (some d) ≤ 4 ↔ (RelocType.branch.branchBits? d).isSome = true)) ∧
    ∀ (k : BranchKind) (field : Word), k.reloc.branchBits? d = some field →
      field &&& ~~~k.reloc.info.mask = 0 ∧ field = k.immediate.encode d ∧
        k.immediate.extract field = d := by
  refine ⟨fun k => ?_, fun k hk => ?_, fun k field hfield => ?_⟩
  · rw [lengthAt_eq_two_iff, isSome_branchBits?_iff]
    exact and_congr_right fun hk => shortReach_iff_spans hk heven
  · rw [lengthAt_le_four_iff hk, conditionalReach_iff_spans heven, ← isSome_branchBits?_iff]
    exact Iff.rfl
  · obtain ⟨hspans, rfl⟩ := branchBits?_eq_some_iff.1 hfield
    refine ⟨?_, rfl, eq_of_beq ((k.fits_iff_spans d).2 hspans)⟩
    rw [mask_reloc, Immediate.encode_and_not_mask]

/-- The farthest distance back that a compressed branch reaches. -/
theorem lengths_agree_with_fields_farthest :
    2 ∣ (-256 : Int64).toInt ∧ shortBranch.lengthAt (some (-256)) = 2 ∧
      ∃ field, RelocType.rvcBranch.branchBits? (-256) = some field ∧
        field &&& ~~~RelocType.rvcBranch.info.mask = 0 ∧
        field = Immediate.cBranch.encode (-256) ∧ Immediate.cBranch.extract field = -256 := by
  have heven : 2 ∣ (-256 : Int64).toInt := by decide
  have hlength : shortBranch.lengthAt (some (-256)) = 2 := by decide
  obtain ⟨htwo, -, hfields⟩ := lengths_agree_with_fields heven
  obtain ⟨field, hfield⟩ := Option.isSome_iff_exists.1 ((htwo shortBranch).1 hlength).2
  exact ⟨heven, hlength, field, hfield, hfields shortBranch field hfield⟩

end RiscvAssembler.BranchKind
