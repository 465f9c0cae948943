import RiscvAssembler.Proofs.Machine.Decode
import RiscvAssembler.Proofs.Word.Slice

/-!
Instructions in memory. The bytes of a word in memory are fetched as that word, and the lowest two
bits tell the decoder that takes it: `step_of_decode32` and `step_of_decode16`.
-/

namespace RiscvAssembler

variable {x : Xlen}

/-! ### Lengths -/

/-- A word of 32 bits ends in `11`. -/
theorem extractLsb'_of_decode32 {w : BitVec 32} {i : Instr} (h : decode32 x w = some i) :
    w.extractLsb' 0 2 = 0b11 := by
  have hmod : Wide.opcode w % 4 = 3 := by
    unfold decode32 at h
    split at h
    case h_14 => cases h
    all_goals
      rename_i hop
      rw [hop]
  apply BitVec.eq_of_toNat_eq
  rw [Wide.opcode, BitVec.extractLsb'_toNat] at hmod
  rw [BitVec.extractLsb'_toNat]
  simp only [Nat.shiftRight_zero, Nat.reducePow, BitVec.ofNat_eq_ofNat, BitVec.toNat_ofNat,
    Nat.reduceMod] at hmod ⊢
  omega

/-- A compressed word does not end in `11`. -/
theorem extractLsb'_of_decode16 {h : BitVec 16} {i : Instr} (hd : decode16 x h = some i) :
    h.extractLsb' 0 2 ≠ 0b11 := by
  intro hlow
  have hq : Short.quadrant h = 3 := by
    rw [Short.quadrant, hlow]
    rfl
  unfold decode16 at hd
  rw [hq] at hd
  cases hd

/-! ### Bytes in memory -/

namespace Machine

theorem Holds.left {m : Machine x} {a : BitVec x.bits} {bs cs : List UInt8}
    (h : m.Holds a (bs ++ cs)) : m.Holds a bs := by
  intro i b hb
  refine h i b ?_
  rw [List.getElem?_append_left (List.getElem?_eq_some_iff.1 hb).1]
  exact hb

theorem Holds.right {m : Machine x} {a : BitVec x.bits} {bs cs : List UInt8}
    (h : m.Holds a (bs ++ cs)) : m.Holds (a + BitVec.ofNat x.bits bs.length) cs := by
  intro i b hb
  rw [BitVec.add_assoc, ← BitVec.ofNat_add]
  refine h (bs.length + i) b ?_
  rwa [List.getElem?_append_right (Nat.le_add_right _ _), Nat.add_sub_cancel_left]

theorem Holds.mem_toBytes {m : Machine x} {a : BitVec x.bits} {w : Word} {n : Nat}
    (h : m.Holds a (w.toBytes n)) {i : Nat} (hi : i < n) :
    m.mem (a + BitVec.ofNat x.bits i) = w.extractLsb' (8 * i) 8 := by
  rw [h i (UInt8.ofBitVec ((w >>> (8 * i)).setWidth 8)) (by simp [Word.toBytes, hi])]
  change (w >>> (8 * i)).setWidth 8 = _
  exact BitVec.setWidth_ushiftRight_eq_extractLsb

theorem Holds.half_toBytes {m : Machine x} {a : BitVec x.bits} {w : Word} {n : Nat}
    (h : m.Holds a (w.toBytes n)) {i : Nat} (hi : i + 1 < n) :
    m.half (a + BitVec.ofNat x.bits i) = w.extractLsb' (8 * i) 16 := by
  have hnext : a + BitVec.ofNat x.bits i + 1 = a + BitVec.ofNat x.bits (i + 1) := by
    rw [BitVec.ofNat_add, BitVec.add_assoc]
    rfl
  rw [half, hnext, h.mem_toBytes hi, h.mem_toBytes (Nat.lt_of_succ_lt hi)]
  exact extractLsb'_append_of_eq w (by omega)

/-- The first two bytes of a word. -/
theorem Holds.half {m : Machine x} {a : BitVec x.bits} {w : Word} {n : Nat}
    (h : m.Holds a (w.toBytes n)) (hn : 1 < n) : m.half a = w.setWidth 16 := by
  have hlow := h.half_toBytes (i := 0) hn
  rwa [BitVec.add_zero, ← BitVec.setWidth_eq_extractLsb' (by decide)] at hlow

/-- All four bytes of a word. -/
theorem Holds.word {m : Machine x} {a : BitVec x.bits} {w : Word}
    (h : m.Holds a (w.toBytes 4)) : m.word a = w.setWidth 32 := by
  have hhigh : m.half (a + 2) = w.extractLsb' 16 16 := h.half_toBytes (by decide)
  rw [Machine.word, hhigh, h.half (by decide), BitVec.setWidth_eq_extractLsb' (by decide),
    BitVec.setWidth_eq_extractLsb' (by decide)]
  exact extractLsb'_append_of_eq w rfl

/-- A step on a word of 32 bits. -/
theorem step_of_decode32 {m : Machine x} {w : Word} {i : Instr}
    (hm : m.Holds m.pc (w.toBytes 4)) (h : decode32 x (w.setWidth 32) = some i) :
    m.step = i.exec (m.pc + 4) (i.target m.pc) m := by
  have hlow := extractLsb'_of_decode32 h
  rw [extractLsb'_setWidth_of_le _ (by decide)] at hlow
  have hfetch : m.fetch = some (i, 4) := by
    rw [fetch, hm.half (by decide), extractLsb'_setWidth_of_le _ (by decide), if_pos hlow, hm.word,
      h]
    rfl
  rw [step, hfetch]
  rfl

/-- A step on a compressed word. -/
theorem step_of_decode16 {m : Machine x} {w : Word} {i : Instr}
    (hm : m.Holds m.pc (w.toBytes 2)) (h : decode16 x (w.setWidth 16) = some i) :
    m.step = i.exec (m.pc + 2) (i.target m.pc) m := by
  have hfetch : m.fetch = some (i, 2) := by
    rw [fetch, hm.half (by decide), if_neg (extractLsb'_of_decode16 h), h]
    rfl
  rw [step, hfetch]
  rfl

end Machine

end RiscvAssembler
