import RiscvAssembler.Proofs.Word.Slice

/-!
Immediates read back from the words they were encoded in. The runs of a layout stand apart in the
word, so decoding undoes encoding bit by bit (`raw_encode`). A value that fits is its low bits,
extended (`signExtend_of_fits`, `setWidth_of_fits`), and has no bits below those that the layout
carries (`extractLsb'_of_fits`).
-/

namespace RiscvAssembler

/-! ### One run -/

namespace Segment

/-- The bits of an immediate that a run carries. -/
def carried (s : Segment) : Word :=
  Word.lowMask s.width <<< s.immBit

/-- Two runs take different bits of the word. -/
def Apart (s t : Segment) : Prop :=
  s.wordBit + s.width ≤ t.wordBit ∨ t.wordBit + t.width ≤ s.wordBit

instance : DecidableRel Apart := fun s t => by unfold Apart; infer_instance

theorem Apart.symm {s t : Segment} (h : s.Apart t) : t.Apart s :=
  Or.symm h

theorem getLsbD_gather (s : Segment) (w : Word) (i : Nat) :
    (s.gather w).getLsbD i =
      if s.immBit ≤ i ∧ i < s.immBit + s.width ∧ i < 64 then
        w.getLsbD (s.wordBit + (i - s.immBit))
      else false := by
  rw [gather, BitVec.getLsbD_shiftLeft, BitVec.getLsbD_and, BitVec.getLsbD_ushiftRight,
    Word.getLsbD_lowMask]
  grind

theorem getLsbD_carried (s : Segment) (i : Nat) :
    s.carried.getLsbD i =
      (decide (i < 64) && decide (s.immBit ≤ i) && decide (i < s.immBit + s.width)) := by
  rw [carried, BitVec.getLsbD_shiftLeft, Word.getLsbD_lowMask]
  grind

theorem gather_or (s : Segment) (a b : Word) : s.gather (a ||| b) = s.gather a ||| s.gather b := by
  apply BitVec.eq_of_getLsbD_eq
  intro i _
  rw [BitVec.getLsbD_or, getLsbD_gather, getLsbD_gather, getLsbD_gather, BitVec.getLsbD_or]
  split <;> rfl

@[simp] theorem gather_zero (s : Segment) : s.gather 0 = 0 := by
  apply BitVec.eq_of_getLsbD_eq
  intro i _
  rw [getLsbD_gather]
  simp

theorem gather_scatter_self {s : Segment} (h : s.wordBit + s.width ≤ 64) (v : Word) :
    s.gather (s.scatter v) = v &&& s.carried := by
  apply BitVec.eq_of_getLsbD_eq
  intro i hi
  rw [BitVec.getLsbD_and, getLsbD_carried, getLsbD_gather]
  by_cases hin : s.immBit ≤ i ∧ i < s.immBit + s.width
  · rw [if_pos ⟨hin.1, hin.2, hi⟩, getLsbD_scatter, if_pos (by omega),
      show s.immBit + (s.wordBit + (i - s.immBit) - s.wordBit) = i by omega]
    simp [hi, hin.1, hin.2]
  · rw [if_neg fun h => hin ⟨h.1, h.2.1⟩]
    grind

theorem gather_scatter_of_apart {s t : Segment} (h : s.Apart t) (v : Word) :
    s.gather (t.scatter v) = 0 := by
  apply BitVec.eq_of_getLsbD_eq
  intro i _
  rw [getLsbD_gather, getLsbD_scatter, BitVec.ofNat_eq_ofNat, BitVec.getLsbD_zero]
  unfold Apart at h
  split
  · rw [if_neg (by omega)]
  · rfl

end Segment

/-! ### Layouts -/

namespace Immediate

/-- The bits of an immediate that a layout carries. -/
def carried (l : Immediate) : Word :=
  l.segments.foldr (fun s acc => s.carried ||| acc) 0

/-- The runs lie in the word, each on bits of its own. -/
def Consistent (l : Immediate) : Prop :=
  l.segments.Pairwise Segment.Apart ∧ ∀ s ∈ l.segments, s.wordBit + s.width ≤ 64

instance (l : Immediate) : Decidable l.Consistent := by unfold Consistent; infer_instance

theorem raw_or (l : Immediate) (a b : Word) : l.raw (a ||| b) = l.raw a ||| l.raw b := by
  obtain ⟨segments, signed⟩ := l
  simp only [raw]
  induction segments with
  | nil => simp
  | cons s rest ih =>
    rw [List.foldr_cons, List.foldr_cons, List.foldr_cons, ih, Segment.gather_or]
    ac_rfl

theorem raw_scatter_of_apart {l : Immediate} {t : Segment} (h : ∀ s ∈ l.segments, s.Apart t)
    (v : Word) : l.raw (t.scatter v) = 0 := by
  obtain ⟨segments, signed⟩ := l
  simp only [raw]
  induction segments with
  | nil => rfl
  | cons s rest ih =>
    rw [List.foldr_cons, ih fun u hu => h u (.tail _ hu),
      Segment.gather_scatter_of_apart (h s (.head _))]
    rfl

theorem gather_encode_of_apart {l : Immediate} {s : Segment} (h : ∀ t ∈ l.segments, s.Apart t)
    (v : Int64) : s.gather (l.encode v) = 0 := by
  obtain ⟨segments, signed⟩ := l
  simp only [encode]
  induction segments with
  | nil => exact s.gather_zero
  | cons t rest ih =>
    rw [List.foldr_cons, Segment.gather_or, ih fun u hu => h u (.tail _ hu),
      Segment.gather_scatter_of_apart (h t (.head _))]
    rfl

/-- Decoding undoes encoding on the bits that a layout carries. -/
theorem raw_encode {l : Immediate} (h : l.Consistent) (v : Int64) :
    l.raw (l.encode v) = v.toBitVec &&& l.carried := by
  obtain ⟨segments, signed⟩ := l
  induction segments with
  | nil => simp [raw, encode, carried]
  | cons s rest ih =>
    obtain ⟨happart, hbound⟩ := h
    obtain ⟨hs, hrest⟩ := List.pairwise_cons.1 happart
    have hih := ih ⟨hrest, fun t ht => hbound t (.tail _ ht)⟩
    have hself := Segment.gather_scatter_self (hbound s (.head _)) v.toBitVec
    have hapart : Immediate.raw ⟨rest, signed⟩ (s.scatter v.toBitVec) = 0 :=
      raw_scatter_of_apart (fun t ht => (hs t ht).symm) _
    have hgather : s.gather (Immediate.encode ⟨rest, signed⟩ v) = 0 :=
      gather_encode_of_apart (l := ⟨rest, signed⟩) hs v
    calc raw ⟨s :: rest, signed⟩ (encode ⟨s :: rest, signed⟩ v)
        = s.gather (s.scatter v.toBitVec ||| encode ⟨rest, signed⟩ v) |||
            raw ⟨rest, signed⟩ (s.scatter v.toBitVec ||| encode ⟨rest, signed⟩ v) := rfl
      _ = v.toBitVec &&& s.carried ||| v.toBitVec &&& carried ⟨rest, signed⟩ := by
          rw [Segment.gather_or, raw_or, hself, hapart, hgather, hih]
          simp
      _ = v.toBitVec &&& carried ⟨s :: rest, signed⟩ := by
          rw [← BitVec.and_or_distrib_left]
          rfl

/-- A signed layout that carries all its low bits keeps those of every value. -/
theorem extract_encode_of_full {l : Immediate} (h : l.Consistent) (hsigned : l.signed = true)
    (hcarried : l.carried = Word.lowMask l.width) (v : Int64) :
    l.extract (l.encode v) = Int64.ofBitVec ((v.toBitVec.setWidth l.width).signExtend 64) := by
  have hlow : (v.toBitVec &&& l.carried).setWidth l.width = v.toBitVec.setWidth l.width := by
    apply BitVec.eq_of_getLsbD_eq
    intro i hi
    rw [hcarried, BitVec.getLsbD_setWidth, BitVec.getLsbD_setWidth, BitVec.getLsbD_and,
      Word.getLsbD_lowMask]
    by_cases hword : i < 64
    · simp [hi, hword]
    · simp [BitVec.getLsbD_of_ge v.toBitVec i (Nat.le_of_not_lt hword)]
  rw [extract, if_pos hsigned, raw_encode h, hlow]

/-! ### Values that fit -/

/-- The bits of a value that fits a layout. -/
theorem raw_of_fits {l : Immediate} {v : Int64} (h : l.fits v = true) :
    if l.signed then ((l.raw (l.encode v)).setWidth l.width).signExtend 64 = v.toBitVec
    else l.raw (l.encode v) = v.toBitVec := by
  have hv := eq_of_beq h
  unfold extract at hv
  split at hv
  · rename_i hsigned
    rw [if_pos hsigned]
    exact congrArg Int64.toBitVec hv
  · rename_i hsigned
    rw [if_neg hsigned]
    exact congrArg Int64.toBitVec hv

/-- The low bits of a value that fits a signed layout extend to the value. -/
theorem signExtend_of_fits {l : Immediate} (hsigned : l.signed = true) (hwidth : l.width ≤ 64)
    {v : Int64} (h : l.fits v = true) {m : Nat} (hm : m ≤ 64) :
    (v.toBitVec.extractLsb' 0 l.width).signExtend m = v.toBitVec.setWidth m := by
  have hv := raw_of_fits h
  rw [if_pos hsigned] at hv
  have hlow : v.toBitVec.extractLsb' 0 l.width = (l.raw (l.encode v)).setWidth l.width := by
    rw [← BitVec.setWidth_eq_extractLsb' hwidth, ← hv, setWidth_signExtend_of_le _ hwidth,
      BitVec.signExtend_eq]
  rw [hlow, ← hv, setWidth_signExtend_of_le _ hm]

/-- A value that fits has no bits that the layout does not carry, up to its sign. -/
theorem getLsbD_of_fits {l : Immediate} (hl : l.Consistent) {v : Int64} (h : l.fits v = true)
    {i : Nat} (hi : i < l.width) (hcarried : l.carried.getLsbD i = false) :
    v.toBitVec.getLsbD i = false := by
  have hv := raw_of_fits h
  rw [raw_encode hl] at hv
  split at hv
  · rw [← hv, BitVec.getLsbD_signExtend, BitVec.getLsbD_setWidth, BitVec.getLsbD_and, hcarried]
    simp [hi]
  · rw [← hv, BitVec.getLsbD_and, hcarried, Bool.and_false]

/-- The low bits of a value that fits an unsigned layout are all of it. -/
theorem setWidth_of_fits {l : Immediate} (hl : l.Consistent) (hunsigned : l.signed = false)
    {n : Nat} (hcarried : l.carried >>> n = 0) {v : Int64} (h : l.fits v = true) (m : Nat) :
    (v.toBitVec.extractLsb' 0 n).setWidth m = v.toBitVec.setWidth m := by
  have hv := raw_of_fits h
  rw [raw_encode hl, if_neg (by simp [hunsigned])] at hv
  apply BitVec.eq_of_getLsbD_eq
  intro i hi
  rw [BitVec.getLsbD_setWidth, BitVec.getLsbD_setWidth, BitVec.getLsbD_extractLsb', Nat.zero_add]
  by_cases hn : i < n
  · simp [hn]
  · have hzero : l.carried.getLsbD i = false := by
      have hbit := congrArg (·.getLsbD (i - n)) hcarried
      rw [BitVec.getLsbD_ushiftRight, Nat.add_sub_cancel' (Nat.le_of_not_lt hn)] at hbit
      simpa using hbit
    rw [← hv, BitVec.getLsbD_and, hzero]
    simp [hn]

/-- A value that fits has no bits below the layout. -/
theorem extractLsb'_of_fits {l : Immediate} (hl : l.Consistent) {k : Nat} (hk : k ≤ l.width)
    (hcarried : l.carried.extractLsb' 0 k = 0) {v : Int64} (h : l.fits v = true) :
    v.toBitVec.extractLsb' 0 k = 0#k := by
  apply BitVec.eq_of_getLsbD_eq
  intro i hi
  have hbit := congrArg (·.getLsbD i) hcarried
  rw [BitVec.getLsbD_extractLsb', Nat.zero_add] at hbit
  rw [BitVec.getLsbD_extractLsb', Nat.zero_add,
    getLsbD_of_fits hl h (Nat.lt_of_lt_of_le hi hk) (by simpa [hi] using hbit)]
  simp

end Immediate

end RiscvAssembler
