import RiscvAssembler.Proofs.Word.Slice

/-!
Words and their bytes: the low bytes of a word make up its low bits (`Word.ofBytes_toBytes`), and bytes
one after the other make up words side by side (`Word.ofBytes_append`).
-/

namespace RiscvAssembler

namespace Word

theorem toBytes_succ (w : Word) (n : Nat) :
    w.toBytes (n + 1) = UInt8.ofBitVec (w.setWidth 8) :: toBytes (w >>> 8) n := by
  unfold toBytes
  rw [List.range_succ_eq_map, List.map_cons, List.map_map]
  refine List.cons_eq_cons.2 ⟨by simp, List.map_congr_left fun i _ => ?_⟩
  rw [Function.comp_apply, Nat.mul_succ, Nat.add_comm, BitVec.shiftRight_add]

/-- The low bytes of a word make up its low bits. -/
theorem ofBytes_toBytes (w : Word) (n : Nat) : ofBytes (w.toBytes n) = w &&& lowMask (8 * n) := by
  induction n generalizing w with
  | zero =>
    apply BitVec.eq_of_getLsbD_eq
    intro i _
    simp [toBytes, ofBytes, getLsbD_lowMask]
  | succ n ih =>
    rw [toBytes_succ, ofBytes, ih]
    apply BitVec.eq_of_getLsbD_eq
    intro i hi
    simp only [BitVec.getLsbD_or, BitVec.getLsbD_setWidth, BitVec.getLsbD_shiftLeft,
      BitVec.getLsbD_and, BitVec.getLsbD_ushiftRight, getLsbD_lowMask]
    by_cases hlow : i < 8
    · have : i < 8 * (n + 1) := by omega
      simp [hi, hlow, this]
    · have hsum : 8 + (i - 8) = i := by omega
      have hless : i - 8 < 8 * n ↔ i < 8 * (n + 1) := by omega
      have hword : i - 8 < 64 := by omega
      simp [hi, hlow, hsum, hless, hword]

theorem ofBytes_append (front back : List UInt8) :
    ofBytes (front ++ back) = ofBytes front ||| ofBytes back <<< (8 * front.length) := by
  induction front with
  | nil => simp [ofBytes]
  | cons b front ih =>
    rw [List.cons_append, ofBytes, ofBytes, ih, BitVec.shiftLeft_or_distrib, BitVec.or_assoc,
      ← BitVec.shiftLeft_add, List.length_cons, Nat.mul_succ]

/-- Bits that a word has in its bytes can be read there. -/
theorem ofBytes_toBytes_and {m : Word} {n : Nat} (hm : lowMask (8 * n) &&& m = m) (w : Word) :
    ofBytes (w.toBytes n) &&& m = w &&& m := by
  rw [ofBytes_toBytes, BitVec.and_assoc, hm]

theorem shiftLeft_and_lowMask (w : Word) (n : Nat) : w <<< n &&& lowMask n = 0 := by
  apply BitVec.eq_of_getLsbD_eq
  intro i hi
  simp only [BitVec.getLsbD_and, BitVec.getLsbD_shiftLeft, getLsbD_lowMask]
  by_cases hlow : i < n
  · simp [hlow]
  · simp [hlow]

end Word

end RiscvAssembler
