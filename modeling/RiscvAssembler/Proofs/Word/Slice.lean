import Mathlib.Algebra.Order.Ring.Int
import RiscvAssembler.Word.Field
import RiscvAssembler.Word.Immediate

/-!
Slices of instruction words. A slice of a word with a field inserted, or of an encoded immediate, is
a slice of what was put in if it lies within the field or run, and unchanged if it lies apart from
it; slices next to each other join. With these lemmas `simp` reads any instruction format off a word
that the tables of the assembler put together.
-/

namespace RiscvAssembler

/-! ### Fields and runs -/

theorem Word.getLsbD_lowMask (n i : Nat) :
    (Word.lowMask n).getLsbD i = (decide (i < 64) && decide (i < n)) := by
  simp [Word.lowMask]

theorem Field.getLsbD_mask (f : Field) (i : Nat) :
    f.mask.getLsbD i =
      (decide (i < 64) && decide (f.shift ≤ i) && decide (i < f.shift + f.width)) := by
  rw [mask, BitVec.getLsbD_shiftLeft, Word.getLsbD_lowMask]
  grind

theorem Field.getLsbD_insert (f : Field) (w v : Word) (i : Nat) :
    (f.insert w v).getLsbD i =
      if f.shift ≤ i ∧ i < f.shift + f.width ∧ i < 64 then v.getLsbD (i - f.shift)
      else w.getLsbD i := by
  rw [insert, BitVec.getLsbD_or, BitVec.getLsbD_and, BitVec.getLsbD_and, BitVec.getLsbD_not,
    getLsbD_mask, BitVec.getLsbD_shiftLeft]
  by_cases hi : i < 64
  · grind
  · have := BitVec.getLsbD_of_ge w i (Nat.le_of_not_lt hi)
    grind

theorem Segment.getLsbD_scatter (s : Segment) (v : Word) (i : Nat) :
    (s.scatter v).getLsbD i =
      if s.wordBit ≤ i ∧ i < s.wordBit + s.width ∧ i < 64 then
        v.getLsbD (s.immBit + (i - s.wordBit))
      else false := by
  rw [scatter, BitVec.getLsbD_shiftLeft, BitVec.getLsbD_and, BitVec.getLsbD_ushiftRight,
    Word.getLsbD_lowMask]
  grind

/-- The value of a field is the slice it takes up. -/
theorem Field.extract_eq_setWidth (f : Field) (w : Word) :
    f.extract w = (w.extractLsb' f.shift f.width).setWidth 64 := by
  apply BitVec.eq_of_getLsbD_eq
  intro i hi
  rw [extract, BitVec.getLsbD_ushiftRight, BitVec.getLsbD_and, getLsbD_mask,
    BitVec.getLsbD_setWidth, BitVec.getLsbD_extractLsb']
  by_cases hw : f.shift + i < 64
  · grind
  · rw [BitVec.getLsbD_of_ge w _ (Nat.le_of_not_lt hw)]
    simp

/-- A slice within a field that was inserted. -/
@[simp] theorem Field.extractLsb'_insert_of_within {f : Field} {a n : Nat} (w v : Word)
    (h : f.shift ≤ a ∧ a + n ≤ f.shift + f.width ∧ a + n ≤ 64) :
    (f.insert w v).extractLsb' a n = v.extractLsb' (a - f.shift) n := by
  apply BitVec.eq_of_getLsbD_eq
  intro i hi
  rw [BitVec.getLsbD_extractLsb', BitVec.getLsbD_extractLsb', getLsbD_insert,
    if_pos (by omega), show a + i - f.shift = a - f.shift + i by omega]

/-- A slice apart from a field that was inserted. -/
@[simp] theorem Field.extractLsb'_insert_of_apart {f : Field} {a n : Nat} (w v : Word)
    (h : a + n ≤ f.shift ∨ f.shift + f.width ≤ a) :
    (f.insert w v).extractLsb' a n = w.extractLsb' a n := by
  apply BitVec.eq_of_getLsbD_eq
  intro i hi
  rw [BitVec.getLsbD_extractLsb', BitVec.getLsbD_extractLsb', getLsbD_insert, if_neg (by omega)]

/-- A slice within a run. -/
@[simp] theorem Segment.extractLsb'_scatter_of_within {s : Segment} {a n : Nat} (v : Word)
    (h : s.wordBit ≤ a ∧ a + n ≤ s.wordBit + s.width ∧ a + n ≤ 64) :
    (s.scatter v).extractLsb' a n = v.extractLsb' (s.immBit + (a - s.wordBit)) n := by
  apply BitVec.eq_of_getLsbD_eq
  intro i hi
  rw [BitVec.getLsbD_extractLsb', BitVec.getLsbD_extractLsb', getLsbD_scatter,
    if_pos (by omega), show a + i - s.wordBit = a - s.wordBit + i by omega, Nat.add_assoc]

/-- A slice apart from a run. -/
@[simp] theorem Segment.extractLsb'_scatter_of_apart {s : Segment} {a n : Nat} (v : Word)
    (h : a + n ≤ s.wordBit ∨ s.wordBit + s.width ≤ a) :
    (s.scatter v).extractLsb' a n = 0 := by
  apply BitVec.eq_of_getLsbD_eq
  intro i hi
  rw [BitVec.getLsbD_extractLsb', getLsbD_scatter, if_neg (by omega)]
  simp

/-- A slice apart from all runs of an immediate that was added to a word. -/
theorem Immediate.extractLsb'_or_encode_of_apart {l : Immediate} {a n : Nat} (w : Word) (v : Int64)
    (h : ∀ s ∈ l.segments, a + n ≤ s.wordBit ∨ s.wordBit + s.width ≤ a) :
    (w ||| l.encode v).extractLsb' a n = w.extractLsb' a n := by
  obtain ⟨segments, signed⟩ := l
  simp only [encode]
  induction segments with
  | nil => simp
  | cons s rest ih =>
    rw [List.foldr_cons, BitVec.or_comm (s.scatter _), ← BitVec.or_assoc, BitVec.extractLsb'_or,
      ih fun t ht => h t (.tail _ ht), Segment.extractLsb'_scatter_of_apart _ (h s (.head _))]
    exact BitVec.or_zero

/-! ### Masks -/

theorem and_eq_and_of_getLsbD {v w m : Word}
    (h : ∀ i, m.getLsbD i = true → v.getLsbD i = w.getLsbD i) : v &&& m = w &&& m := by
  apply BitVec.eq_of_getLsbD_eq
  intro i _
  rw [BitVec.getLsbD_and, BitVec.getLsbD_and]
  cases hm : m.getLsbD i with
  | false => simp
  | true => rw [h i hm]

theorem and_eq_self_of_getLsbD {w m : Word}
    (h : ∀ i, m.getLsbD i = false → w.getLsbD i = false) : w &&& m = w := by
  apply BitVec.eq_of_getLsbD_eq
  intro i _
  rw [BitVec.getLsbD_and]
  cases hm : m.getLsbD i with
  | false => rw [h i hm, Bool.and_false]
  | true => rw [Bool.and_true]

theorem Segment.getLsbD_mask (s : Segment) (i : Nat) :
    s.mask.getLsbD i =
      (decide (i < 64) && decide (s.wordBit ≤ i) && decide (i < s.wordBit + s.width)) := by
  rw [mask, BitVec.getLsbD_shiftLeft, Word.getLsbD_lowMask]
  grind

theorem Immediate.getLsbD_encode_of_mask {l : Immediate} {i : Nat} (h : l.mask.getLsbD i = false)
    (v : Int64) : (l.encode v).getLsbD i = false := by
  obtain ⟨segments, signed⟩ := l
  simp only [mask, encode] at h ⊢
  induction segments with
  | nil => simp
  | cons s rest ih =>
    rw [List.foldr_cons, BitVec.getLsbD_or, Bool.or_eq_false_iff] at h
    rw [List.foldr_cons, BitVec.getLsbD_or, ih h.2, Segment.getLsbD_scatter, if_neg]
    · rfl
    · have hs := h.1
      rw [Segment.getLsbD_mask] at hs
      simp only [Bool.and_eq_false_iff, decide_eq_false_iff_not] at hs
      omega

theorem Immediate.encode_and_mask (l : Immediate) (v : Int64) :
    l.encode v &&& l.mask = l.encode v :=
  and_eq_self_of_getLsbD fun _ hi => l.getLsbD_encode_of_mask hi v

theorem Immediate.encode_and_not_mask (l : Immediate) (v : Int64) :
    l.encode v &&& ~~~l.mask = 0 := by
  rw [← encode_and_mask, BitVec.and_assoc, BitVec.and_not_self]
  exact BitVec.and_zero

/-! ### Slices of slices -/

/-- A slice of the low bits of a word. -/
@[simp] theorem extractLsb'_setWidth_of_le {k m a n : Nat} (w : BitVec k) (h : a + n ≤ m) :
    (w.setWidth m).extractLsb' a n = w.extractLsb' a n := by
  apply BitVec.eq_of_getLsbD_eq
  intro i hi
  have : a + i < m := by omega
  simp [this]

/-- Slices next to each other join. -/
theorem extractLsb'_append_of_eq {k a b m n : Nat} (w : BitVec k) (h : a = b + n) :
    w.extractLsb' a m ++ w.extractLsb' b n = w.extractLsb' b (m + n) := by
  subst h
  exact BitVec.extractLsb'_append_extractLsb'_eq_extractLsb' (by omega)

/-- A slice goes down to the lowest bit if there are zeros below it. -/
theorem extractLsb'_append_zero {k n : Nat} {w : Word} (h : w.extractLsb' 0 k = 0#k) :
    w.extractLsb' k n ++ 0#k = w.extractLsb' 0 (n + k) := by
  rw [← h]
  exact extractLsb'_append_of_eq w (Nat.zero_add k).symm

/-! ### Signed values -/

theorem toInt_eq_toNat_or (v : Int64) :
    v.toInt = v.toBitVec.toNat ∨ v.toInt = v.toBitVec.toNat - 2 ^ 64 := by
  rw [← Int64.toInt_toBitVec, BitVec.toInt_eq_toNat_cond]
  split
  · exact .inl rfl
  · exact .inr rfl

theorem toNat_of_nonneg {v : Int64} (h : 0 ≤ v.toInt) : (v.toBitVec.toNat : Int) = v.toInt := by
  have hlt := v.toBitVec.isLt
  rcases toInt_eq_toNat_or v with hv | hv <;> omega

theorem setWidth_signExtend_of_le {n k m : Nat} (x : BitVec n) (h : m ≤ k) :
    (x.signExtend k).setWidth m = x.signExtend m := by
  apply BitVec.eq_of_getLsbD_eq
  intro i hi
  rw [BitVec.getLsbD_setWidth, BitVec.getLsbD_signExtend, BitVec.getLsbD_signExtend]
  have hk : i < k := by omega
  simp [hi, hk]

/-- The low bits of a value extend to any width as the value does, if they hold all of it. -/
theorem signExtend_extractLsb' {k n m : Nat} {v : BitVec k} (hn : n < k) (hm : m ≤ k)
    (h : -2 ^ n ≤ v.toInt ∧ v.toInt < 2 ^ n) :
    (v.extractLsb' 0 (n + 1)).signExtend m = v.setWidth m := by
  have hlow : (v.extractLsb' 0 (n + 1)).toInt = v.toInt := by
    rw [← BitVec.setWidth_eq_extractLsb' hn, ← BitVec.signExtend_eq_setWidth_of_le _ hn,
      BitVec.toInt_signExtend_eq_toInt_bmod_of_le _ hn]
    have hpow : ((2 ^ (n + 1) : Nat) : Int) = 2 ^ n * 2 := by
      push_cast
      exact Int.pow_succ 2 n
    refine Int.bmod_eq_of_le_mul_two ?_ ?_ <;> rw [hpow] <;> omega
  rw [BitVec.signExtend, hlow]
  exact BitVec.signExtend_eq_setWidth_of_le v hm

end RiscvAssembler
