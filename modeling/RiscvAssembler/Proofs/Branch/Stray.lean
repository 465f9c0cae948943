import RiscvAssembler.Proofs.Encoding.Ownership
import RiscvAssembler.Proofs.Section.Filling
import RiscvAssembler.Proofs.Template.Shape

/-!
Words of branches under their relocations. The word that the distance of a branch goes into is clear
where the distance goes (`Branch.Form.and_mask`), unless it was widened from a compressed word of
another kind (`BranchKind.strayBits`), which only misnamed branches have
(`BranchKind.isMisnamed_of_strayBits`).
-/

namespace RiscvAssembler

/-! ### Fields of branches -/

theorem BranchKind.reloc_ne_relax (k : BranchKind) : k.reloc ≠ .relax := by
  cases k <;> decide

/-- A relocation of a branch replaces the bits that the distance takes up. -/
theorem BranchKind.mask_reloc (k : BranchKind) : k.reloc.info.mask = k.immediate.mask := by
  cases k <;> decide

/-- The field of a branch is among the bits of its relocation. -/
theorem BranchKind.branchBits?_and_mask (k : BranchKind) (distance : Option Int64) :
    (distance.bind k.reloc.branchBits?).getD 0 &&& k.reloc.info.mask =
      (distance.bind k.reloc.branchBits?).getD 0 := by
  cases distance with
  | none => exact BitVec.zero_and
  | some d =>
    rw [Option.bind_some, RelocType.branchBits?, ofReloc?_eq_some_iff.2 rfl]
    dsimp only
    split
    · rw [Option.getD_some, mask_reloc, Immediate.encode_and_mask]
    · exact BitVec.zero_and

theorem BranchKind.lowMask_and_mask (k : BranchKind) :
    Word.lowMask (8 * k.reloc.info.size) &&& k.reloc.info.mask = k.reloc.info.mask := by
  cases k <;> decide

/-! ### Stray bits -/

/-- The bits that a compressed branch has in the field of its relocation once it is widened. There are
some only if its word is that of another kind of branch. -/
def BranchKind.strayBits (k : BranchKind) (insn : Word) (kind : RelocType) : Word :=
  match BranchWord.expand insn with
  | .ok w => if k.isShort ∧ kind = k.wide.reloc then w &&& kind.info.mask else 0
  | .error _ => 0

/-- Whether a compressed branch has a word that is widened to another kind of branch, with bits where
its own kind has the distance: a jump with the word of a branch on a register, or a branch with the word
of a jump that keeps its return address. -/
def BranchKind.isMisnamed (k : BranchKind) (insn : Word) : Bool :=
  match k with
  | .shortJump => [0xc001, 0xe001].contains (insn &&& shortBranchBits).toNat
  | .shortBranch => (insn &&& shortBranchBits).toNat == 0x2001
  | .branch | .jump => false

/-- **No other branch has stray bits.** -/
theorem BranchKind.isMisnamed_of_strayBits {k : BranchKind} {insn : Word} {kind : RelocType}
    (h : k.strayBits insn kind ≠ 0) : k.isMisnamed insn = true := by
  unfold strayBits at h
  split at h
  · rename_i w hw
    by_cases hwide : k.isShort ∧ kind = k.wide.reloc
    · rw [if_pos hwide] at h
      obtain ⟨hshort, rfl⟩ := hwide
      unfold BranchWord.expand at hw
      unfold isMisnamed shortBranchBits
      generalize (insn &&& 0xe003).toNat = n at hw ⊢
      cases k with
      | branch | jump => cases hshort
      | shortBranch =>
        dsimp only at hw
        split at hw
        · cases hw
          exact absurd (by decide) h
        · rfl
        · cases hw
          exact absurd (Field.insert_and_of_apart (by decide) _ _) h
        · cases hw
          exact absurd (Field.insert_and_of_apart (by decide) _ _) h
        · cases hw
      | shortJump =>
        dsimp only at hw
        split at hw
        · cases hw
          exact absurd (by decide) h
        · cases hw
          exact absurd (by decide) h
        · rfl
        · rfl
        · cases hw
    · rw [if_neg hwide] at h
      exact absurd rfl h
  · exact absurd rfl h

theorem BranchKind.isMisnamed_congr {insn insn' : Word}
    (h : insn &&& shortBranchBits = insn' &&& shortBranchBits) (k : BranchKind) :
    k.isMisnamed insn = k.isMisnamed insn' := by
  unfold isMisnamed
  rw [h]

/-! ### Forms -/

/-- The form of a branch is told by its length. -/
theorem Branch.Form.unique {b : Branch} {k k' : BranchKind} {before before' : List UInt8}
    {w w' : Word} (h : b.Form k before w) (h' : b.Form k' before' w') :
    k = k' ∧ before = before' ∧ w = w' := by
  cases h with
  | short hl =>
    cases h' with
    | short _ => exact ⟨rfl, rfl, rfl⟩
    | wide hl' _ | shortOver hl' | wideOver hl' _ => cases hl.symm.trans hl'
  | wide hl hw =>
    cases h' with
    | wide _ hw' =>
      cases hw.symm.trans hw'
      exact ⟨rfl, rfl, rfl⟩
    | short hl' | shortOver hl' | wideOver hl' _ => cases hl.symm.trans hl'
  | shortOver hl =>
    cases h' with
    | shortOver _ => exact ⟨rfl, rfl, rfl⟩
    | short hl' | wide hl' _ | wideOver hl' _ => cases hl.symm.trans hl'
  | wideOver hl hw =>
    cases h' with
    | wideOver _ hw' =>
      cases hw.symm.trans hw'
      exact ⟨rfl, rfl, rfl⟩
    | short hl' | wide hl' _ | shortOver hl' => cases hl.symm.trans hl'

theorem BranchKind.reloc_wide (k : BranchKind) (h : k.isShort = false) : k.wide.reloc = k.reloc := by
  cases k with
  | branch | jump => rfl
  | shortBranch | shortJump => cases h

/-- The word that the distance of a branch goes into has no bits there but those of a wide form. -/
theorem Branch.Form.and_mask {b : Branch} {k : BranchKind} {before : List UInt8} {w : Word}
    (h : b.Form k before w) (hclear : b.insn &&& b.kind.reloc.info.mask = 0)
    {distance : Option Int64} (hr : b.kind.reaches b.length distance = true) :
    w &&& k.reloc.info.mask = b.kind.strayBits b.insn k.reloc := by
  have hnone : ∀ {kind : RelocType}, (b.kind.isShort = true → kind ≠ b.kind.wide.reloc) →
      b.kind.strayBits b.insn kind = 0 := by
    intro kind hkind
    unfold BranchKind.strayBits
    split
    · exact if_neg fun hshort => hkind hshort.1 hshort.2
    · rfl
  cases h with
  | short hl =>
    rw [hclear, hnone]
    intro hshort
    cases hk : b.kind with
    | branch | jump =>
      rw [hk] at hshort
      cases hshort
    | shortBranch | shortJump => decide
  | wide hl hw =>
    unfold wideWord at hw
    by_cases hshort : b.kind.isShort = true
    · rw [if_pos hshort] at hw
      unfold BranchKind.strayBits
      rw [hw]
      exact (if_pos ⟨hshort, rfl⟩).symm
    · rw [if_neg hshort] at hw
      cases hw
      rw [BranchKind.reloc_wide _ (by simpa using hshort), hclear, hnone fun h => absurd h hshort]
  | shortOver hl =>
    rw [hl] at hr
    rw [hnone]
    · decide
    · intro _
      rw [of_decide_eq_true hr]
      decide
  | wideOver hl hw =>
    rw [hl] at hr
    rw [hnone]
    · decide
    · intro _
      cases hk : b.kind with
      | branch | shortBranch => decide
      | jump | shortJump =>
        rw [hk] at hr
        cases hr

end RiscvAssembler
