import Mathlib.Algebra.Order.Ring.Int
import RiscvAssembler.Pseudo.Constant

/-!
The weight of a number: how many steps the sequence for its odd part takes. Zeros at the end weigh
nothing, and each shift of a sequence accounts for two. A number weighs no less than what is left of it
when low bits are cut off and rounded (`weight_ediv_le`) or when upper bits are (`weight_le_of_congr`),
and twelve more bits add two at most (`weight_add_le`).
-/

namespace RiscvAssembler

namespace Constant

/-- The numbers that one addition can make. -/
def IsSmall (v : Int) : Prop :=
  -0x800 ≤ v ∧ v < 0x800

/-- The numbers that 32 bits hold. -/
def IsNarrow (v : Int) : Prop :=
  -0x80000000 ≤ v ∧ v < 0x80000000

instance (v : Int) : Decidable (IsSmall v) :=
  inferInstanceAs (Decidable (_ ∧ _))

instance (v : Int) : Decidable (IsNarrow v) :=
  inferInstanceAs (Decidable (_ ∧ _))

/-- The weight of a number. -/
def weight (v : Int) : Nat :=
  if v = 0 then 1
  else if v % 2 = 0 then weight (v / 2)
  else if IsSmall v then 1
  else if IsNarrow v then 2
  else 2 + weight ((v + 0x800) / 0x1000)
termination_by v.natAbs
decreasing_by
  · omega
  · unfold IsNarrow at *
    omega

theorem weight_zero : weight 0 = 1 := by
  rw [weight, if_pos rfl]

theorem weight_two_mul (v : Int) : weight (2 * v) = weight v := by
  by_cases hv : v = 0
  · rw [hv, Int.mul_zero]
  · rw [weight, if_neg (by omega), if_pos (by omega), Int.mul_ediv_cancel_left v (by decide)]

theorem weight_two_pow_mul (s : Nat) (v : Int) : weight (2 ^ s * v) = weight v := by
  induction s with
  | zero => rw [Int.pow_zero, Int.one_mul]
  | succ s ih => rw [Int.pow_succ', Int.mul_assoc, weight_two_mul, ih]

theorem weight_of_even {v : Int} (h : v % 2 = 0) : weight v = weight (v / 2) := by
  rw [← weight_two_mul (v / 2)]
  congr 1
  omega

theorem weight_of_odd {v : Int} (h : v % 2 ≠ 0) :
    weight v = if IsSmall v then 1 else if IsNarrow v then 2
      else 2 + weight ((v + 0x800) / 0x1000) := by
  rw [weight, if_neg (by omega), if_neg h]

theorem weight_of_wide {v : Int} (h : v % 2 ≠ 0) (hwide : ¬IsNarrow v) :
    weight v = 2 + weight ((v + 0x800) / 0x1000) := by
  have hlarge : ¬IsSmall v := by
    unfold IsNarrow IsSmall at *
    omega
  rw [weight_of_odd h, if_neg hlarge, if_neg hwide]

theorem weight_pos (v : Int) : 1 ≤ weight v := by
  fun_induction weight v with
  | case1 => exact Nat.le_refl 1
  | case2 v _ _ ih => exact ih
  | case3 => exact Nat.le_refl 1
  | case4 => decide
  | case5 v _ _ _ _ ih => omega

theorem weight_eq_one {v : Int} (h : -0x800 ≤ v ∧ v ≤ 0x800) : weight v = 1 := by
  fun_induction weight v with
  | case1 => rfl
  | case2 v _ _ ih => exact ih (by omega)
  | case3 => rfl
  | case4 v _ _ hsmall _ =>
    unfold IsSmall at hsmall
    omega
  | case5 v _ _ hsmall _ _ =>
    unfold IsSmall at hsmall
    omega

theorem weight_le_two {v : Int} (h : -0x80000000 ≤ v ∧ v ≤ 0x80000000) : weight v ≤ 2 := by
  fun_induction weight v with
  | case1 => decide
  | case2 v _ _ ih => exact ih (by omega)
  | case3 => decide
  | case4 => exact Nat.le_refl 2
  | case5 v _ _ _ hnarrow _ =>
    unfold IsNarrow at hnarrow
    omega

/-! ### Low bits -/

/-- That twelve more bits add two at most, for sums below a bound. -/
def AddsTwo (n : Nat) : Prop :=
  ∀ a c, IsSmall c → (a + c).natAbs < n → weight (a + c) ≤ weight a + 2

section

variable {n : Nat} {a t : Int}

theorem AddsTwo.weight_half_le (h : AddsTwo n) (ht : 0 ≤ t ∧ t ≤ 1)
    (ha : ¬IsNarrow a → a.natAbs + 1 < 2 * n) : weight ((a + t) / 2) ≤ weight a := by
  by_cases heven : a % 2 = 0
  · have hhalf : (a + t) / 2 = a / 2 := by omega
    exact Nat.le_of_eq (by rw [hhalf, ← weight_of_even heven])
  by_cases hwide : IsNarrow a
  · rw [weight_of_odd heven, if_pos hwide]
    split
    · rename_i hsmall
      unfold IsSmall at hsmall
      exact Nat.le_of_eq (weight_eq_one (by omega))
    · unfold IsNarrow at hwide
      exact weight_le_two (by omega)
  · -- Half of the number is half of its upper digits, and a digit that is half as large.
    have hsmall : IsSmall ((a - 0x1000 * ((a + 0x800) / 0x1000) + t) / 2) := by
      unfold IsSmall
      omega
    have hsum : (a + t) / 2 = 2 ^ 11 * ((a + 0x800) / 0x1000) +
        (a - 0x1000 * ((a + 0x800) / 0x1000) + t) / 2 := by omega
    have hbound := ha hwide
    have hadd := h (2 ^ 11 * ((a + 0x800) / 0x1000)) _ hsmall (by omega)
    rw [← hsum, weight_two_pow_mul] at hadd
    rw [weight_of_wide heven hwide]
    omega

theorem AddsTwo.weight_ediv_le (h : AddsTwo n) (i : Nat) (ht : 0 ≤ t ∧ t < 2 ^ i)
    (ha : a.natAbs + 1 < 2 * n) : weight ((a + t) / 2 ^ i) ≤ weight a := by
  induction i generalizing a t with
  | zero =>
    have hzero : t = 0 := by omega
    exact Nat.le_of_eq (by rw [hzero, Int.add_zero, Int.pow_zero, Int.ediv_one])
  | succ i ih =>
    rw [Int.pow_succ] at ht
    have hsplit : (a + t) / 2 = (a + t % 2) / 2 + t / 2 := by omega
    rw [Int.pow_succ', ← Int.ediv_ediv_of_nonneg (by decide), hsplit]
    calc weight (((a + t % 2) / 2 + t / 2) / 2 ^ i)
        ≤ weight ((a + t % 2) / 2) := ih (by omega) (by omega)
      _ ≤ weight a := h.weight_half_le (by omega) fun _ => ha

/-- Both kinds of rounding are about smaller sums, so the bound on sums is proved with them. -/
theorem addsTwo (n : Nat) : AddsTwo n := by
  induction n with
  | zero => exact fun a c _ h => absurd h (Nat.not_lt_zero _)
  | succ n ih =>
    intro a c hc hlt
    by_cases hzero : a + c = 0
    · rw [hzero, weight_zero]
      omega
    by_cases heven : (a + c) % 2 = 0
    · unfold IsSmall at hc
      have hsum : (a + c) / 2 = (a + a % 2) / 2 + (c - a % 2) / 2 := by omega
      have hhalf : IsSmall ((c - a % 2) / 2) := by
        unfold IsSmall
        omega
      have hadd := ih ((a + a % 2) / 2) _ hhalf (by omega)
      have hround : weight ((a + a % 2) / 2) ≤ weight a := by
        refine ih.weight_half_le (by omega) fun hwide => ?_
        unfold IsNarrow at hwide
        omega
      rw [weight_of_even heven, hsum]
      omega
    by_cases hnarrow : IsNarrow (a + c)
    · have htwo : weight (a + c) ≤ 2 := weight_le_two ⟨hnarrow.1, Int.le_of_lt hnarrow.2⟩
      omega
    · have hsum : a + c + 0x800 = a + (c + 0x800) := by omega
      have hround : weight ((a + (c + 0x800)) / 2 ^ 12) ≤ weight a := by
        unfold IsSmall at hc
        unfold IsNarrow at hnarrow
        exact ih.weight_ediv_le 12 (by omega) (by omega)
      rw [weight_of_wide heven hnarrow, hsum]
      exact Nat.le_trans (Nat.add_le_add_left hround 2) (Nat.le_of_eq (Nat.add_comm 2 _))

end

/-- **Twelve more bits add two at most.** -/
theorem weight_add_le (a : Int) {c : Int} (hc : IsSmall c) : weight (a + c) ≤ weight a + 2 :=
  addsTwo _ a c hc (Nat.lt_succ_self _)

theorem weight_half_le (a : Int) {t : Int} (ht : 0 ≤ t ∧ t ≤ 1) :
    weight ((a + t) / 2) ≤ weight a :=
  (addsTwo (a.natAbs + 2)).weight_half_le ht fun _ => by omega

/-- **Rounded upper bits weigh no more.** -/
theorem weight_ediv_le (a : Int) (i : Nat) {t : Int} (ht : 0 ≤ t ∧ t < 2 ^ i) :
    weight ((a + t) / 2 ^ i) ≤ weight a :=
  (addsTwo (a.natAbs + 2)).weight_ediv_le i ht (by omega)

/-- A number weighs at most two more than its half. -/
theorem weight_le_half_add_two (v : Int) : weight v ≤ weight (v / 2) + 2 := by
  by_cases heven : v % 2 = 0
  · rw [weight_of_even heven]
    omega
  · by_cases hnarrow : IsNarrow v
    · have htwo : weight v ≤ 2 := weight_le_two ⟨hnarrow.1, Int.le_of_lt hnarrow.2⟩
      omega
    · have hround := weight_ediv_le (v / 2) 11 (t := 0x400) (by decide)
      have hsame : (v / 2 + 0x400) / 2 ^ 11 = (v + 0x800) / 0x1000 := by omega
      rw [weight_of_wide heven hnarrow, ← hsame]
      omega

/-! ### Upper bits -/

theorem two_pow_mul_cases (k : Nat) (q : Int) :
    2 ^ k * q = 0 ∨ 2 ^ k ≤ 2 ^ k * q ∨ 2 ^ k * q ≤ -2 ^ k := by
  have hpos : (0 : Int) ≤ 2 ^ k := Int.pow_nonneg (by decide)
  rcases Int.lt_trichotomy q 0 with hq | rfl | hq
  · refine .inr (.inr ?_)
    have hmul := Int.mul_le_mul_of_nonneg_left (show q ≤ -1 by omega) hpos
    omega
  · exact .inl (Int.mul_zero _)
  · refine .inr (.inl ?_)
    have hmul := Int.mul_le_mul_of_nonneg_left (show 1 ≤ q by omega) hpos
    omega

/-- **The value of the low bits, with or without a sign, weighs no more.** -/
theorem weight_le_of_congr {v w : Int} (k : Nat) {q : Int} (hw : w = v + 2 ^ k * q)
    (hbounds : -2 ^ k ≤ 2 * w ∧ 2 * w ≤ 2 ^ k) : weight w ≤ weight v := by
  fun_induction weight v generalizing w k with
  | case1 =>
    have hq := two_pow_mul_cases k q
    obtain rfl : w = 0 := by omega
    exact Nat.le_of_eq weight_zero
  | case2 v hv heven ih =>
    cases k with
    | zero =>
      obtain rfl : w = 0 := by omega
      rw [weight_zero]
      exact weight_pos _
    | succ k =>
      rw [Int.pow_succ', Int.mul_assoc] at hw
      rw [Int.pow_succ'] at hbounds
      rw [weight_of_even (v := w) (by omega)]
      exact ih k (by omega) (by omega)
  | case3 v hv hodd hsmall =>
    have hq := two_pow_mul_cases k q
    unfold IsSmall at hsmall
    exact Nat.le_of_eq (weight_eq_one (by omega))
  | case4 v hv hodd hsmall hnarrow =>
    have hq := two_pow_mul_cases k q
    unfold IsNarrow at hnarrow
    exact weight_le_two (by omega)
  | case5 v hv hodd hsmall hwide ih =>
    by_cases hnarrow : IsNarrow w
    · have htwo : weight w ≤ 2 := weight_le_two ⟨hnarrow.1, Int.le_of_lt hnarrow.2⟩
      omega
    · have hk : 13 ≤ k := by
        refine Nat.le_of_not_lt fun hk => ?_
        have hpow : (2 : Int) ^ k ≤ 2 ^ 12 := by
          exact_mod_cast Nat.pow_le_pow_right (show 0 < 2 by decide) (show k ≤ 12 by omega)
        unfold IsNarrow at hnarrow
        omega
      obtain ⟨k, rfl⟩ := Nat.exists_eq_add_of_le' hk
      have hpow : (2 : Int) ^ (k + 13) = 0x1000 * 2 ^ (k + 1) := by
        rw [show k + 13 = 12 + (k + 1) by omega, Int.pow_add]
        rfl
      have hpow' : (2 : Int) ^ (k + 1) = 2 * 2 ^ k := Int.pow_succ' ..
      rw [hpow, Int.mul_assoc] at hw
      rw [hpow] at hbounds
      have hround : (w + 0x800) / 0x1000 = (v + 0x800) / 0x1000 + 2 ^ (k + 1) * q := by omega
      have hrest := ih (k + 1) hround (by omega)
      rw [weight_of_wide (v := w) (by omega) hnarrow]
      omega

end Constant

end RiscvAssembler
