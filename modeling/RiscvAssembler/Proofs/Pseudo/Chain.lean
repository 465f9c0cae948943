import RiscvAssembler.Proofs.Pseudo.Weight

/-!
Numbers that chains of instructions make of zero, by additions of twelve bits, shifts and the upper
twenty of 32 bits. They are taken without a bound on their size; a register has their low bits only.

`cost` is what the sequence for a number takes. After at most four steps a number is one of 32 bits
after some additions, or a number of little weight after some (`Shape`), so the cost of a number that a
chain makes is never far above the length of the chain (`Reaches.cost_le`).
-/

namespace RiscvAssembler

namespace Constant

/-! ### Cost -/

/-- The steps that the sequence for a number of more than 32 bits takes. -/
def cost (v : Int) : Nat :=
  if v % 0x1000 = 0 then weight v + 1 else weight ((v + 0x800) / 0x1000) + 2

/-- A shift by twelve bits or more takes no addition. -/
theorem weight_of_mod_eq_zero {v : Int} (h : v % 0x1000 = 0) :
    weight v = weight ((v + 0x800) / 0x1000) := by
  have hv : v = 2 ^ 12 * ((v + 0x800) / 0x1000) := by omega
  conv => lhs; rw [hv, weight_two_pow_mul]

theorem cost_le (v : Int) : cost v ≤ weight ((v + 0x800) / 0x1000) + 2 := by
  unfold cost
  split
  · rename_i hmod
    rw [weight_of_mod_eq_zero hmod]
    omega
  · exact Nat.le_refl _

/-- The cost of the low 64 bits of a number is no higher than that of the number. -/
theorem cost_le_of_congr {v w q : Int} (hw : w = v + 2 ^ 64 * q)
    (hbounds : -2 ^ 63 ≤ w ∧ w < 2 ^ 63) : cost w ≤ cost v := by
  unfold cost
  have hmod : w % 0x1000 = v % 0x1000 := by omega
  rw [hmod]
  split
  · exact Nat.succ_le_succ (weight_le_of_congr 64 hw (by omega))
  · refine Nat.add_le_add_right (weight_le_of_congr 52 (q := q) ?_ ?_) 2
    · omega
    · omega

/-- Upper bounds for the weights of a number and of its two halves. -/
structure Weighs (p q : Nat) (v : Int) : Prop where
  whole : weight v ≤ p
  half : ∀ t, 0 ≤ t → t ≤ 1 → weight ((v + t) / 2) ≤ q

section

variable {p q : Nat} {v : Int}

theorem Weighs.of_weight (h : weight v ≤ p) : Weighs p p v :=
  ⟨h, fun _ h₀ h₁ => Nat.le_trans (weight_half_le v ⟨h₀, h₁⟩) h⟩

theorem Weighs.of_half (h : ∀ t, 0 ≤ t → t ≤ 1 → weight ((v + t) / 2) ≤ q) : Weighs (q + 2) q v := by
  refine ⟨Nat.le_trans (weight_le_half_add_two v) ?_, h⟩
  have hhalf := h 0 (by decide) (by decide)
  rw [Int.add_zero] at hhalf
  omega

theorem Weighs.mono {p' q' : Nat} (h : Weighs p q v) (hp : p ≤ p') (hq : q ≤ q') : Weighs p' q' v :=
  ⟨Nat.le_trans h.whole hp, fun t h₀ h₁ => Nat.le_trans (h.half t h₀ h₁) hq⟩

theorem Weighs.ediv_le (h : Weighs p q v) (i : Nat) {t : Int} (ht : 0 ≤ t ∧ t < 2 ^ (i + 1)) :
    weight ((v + t) / 2 ^ (i + 1)) ≤ q := by
  rw [Int.pow_succ] at ht
  have hsplit : (v + t) / 2 = (v + t % 2) / 2 + t / 2 := by omega
  rw [Int.pow_succ', ← Int.ediv_ediv_of_nonneg (by decide), hsplit]
  exact Nat.le_trans (weight_ediv_le _ i (by omega)) (h.half (t % 2) (by omega) (by omega))

theorem Weighs.cost_add (h : Weighs p q v) {c : Int} (hc : IsSmall c) : cost (v + c) ≤ q + 2 := by
  have hround : weight ((v + c + 0x800) / 0x1000) ≤ q := by
    rw [Int.add_assoc]
    unfold IsSmall at hc
    exact h.ediv_le 11 (by omega)
  exact Nat.le_trans (cost_le _) (Nat.add_le_add_right hround 2)

theorem Weighs.cost_shift (h : Weighs p q v) (s : Nat) : cost (2 ^ s * v) ≤ max (p + 1) (q + 2) := by
  unfold cost
  split
  · rw [weight_two_pow_mul]
    exact Nat.le_trans (Nat.succ_le_succ h.whole) (Nat.le_max_left _ _)
  · rename_i hmod
    have hs : s ≤ 11 := by
      refine Nat.le_of_not_lt fun hs => hmod ?_
      obtain ⟨s, rfl⟩ := Nat.exists_eq_add_of_lt hs
      rw [show 11 + s + 1 = 12 + s by omega, Int.pow_add, Int.mul_assoc]
      exact Int.mul_emod_right _ _
    obtain ⟨i, hi⟩ := Nat.exists_eq_add_of_le hs
    -- Rounding after a shift is rounding by as many bits fewer.
    have hpos : (0 : Int) < 2 ^ s := Int.pow_pos (by decide)
    have hsum : 2 ^ s * v + 0x800 = 2 ^ s * (v + 2 ^ i) := by
      rw [Int.mul_add, ← Int.pow_add, ← hi]
      rfl
    have hdiv : (2 ^ s * v + 0x800) / 0x1000 = (v + 2 ^ i) / 2 ^ (i + 1) := by
      rw [hsum, show (0x1000 : Int) = 2 ^ s * 2 ^ (i + 1) by
        rw [← Int.pow_add, ← Nat.add_assoc, ← hi]; rfl]
      exact Int.mul_ediv_mul_of_pos _ _ hpos
    rw [hdiv]
    have hpow : (0 : Int) < 2 ^ i := Int.pow_pos (by decide)
    have hround := h.ediv_le i (t := 2 ^ i) ⟨Int.le_of_lt hpow, by rw [Int.pow_succ]; omega⟩
    exact Nat.le_trans (Nat.add_le_add_right hround 2) (Nat.le_max_right _ _)

end

/-! ### Chains -/

/-- What an instruction makes of the number in its register. -/
inductive Makes (v : Int) : Int → Prop where
  /-- The upper twenty of 32 bits. -/
  | upper {c : Int} (h : -0x80000 ≤ c ∧ c < 0x80000) : Makes v (0x1000 * c)
  | small {c : Int} (h : IsSmall c) : Makes v c
  | add {c : Int} (h : IsSmall c) : Makes v (v + c)
  /-- A sum of 32-bit values. -/
  | addWord {c : Int} (h : IsSmall c) : Makes v (Int.bmod (v + c) (2 ^ 32))
  | shift (s : Nat) : Makes v (2 ^ s * v)
  | same : Makes v v

/-- The numbers that a chain of a certain length makes of zero. -/
inductive Reaches : Nat → Int → Prop where
  | zero : Reaches 0 0
  | succ {n : Nat} {v w : Int} (h : Reaches n v) (hw : Makes v w) : Reaches (n + 1) w

section

variable {n : Nat} {v w : Int}

theorem isNarrow_bmod (v : Int) : IsNarrow (Int.bmod v (2 ^ 32)) := by
  unfold IsNarrow
  have hlow := Int.le_bmod (x := v) (m := 2 ^ 32) (by decide)
  have hhigh := Int.bmod_lt (x := v) (m := 2 ^ 32) (by decide)
  omega

/-- The numbers that one instruction makes. -/
theorem Reaches.of_one (h : Reaches 1 w) :
    IsSmall w ∨ ∃ c, (-0x80000 ≤ c ∧ c < 0x80000) ∧ w = 0x1000 * c := by
  cases h with
  | succ hzero hw =>
    cases hzero
    cases hw with
    | upper h => exact .inr ⟨_, h, rfl⟩
    | small h => exact .inl h
    | add h =>
      rw [Int.zero_add]
      exact .inl h
    | @addWord c h =>
      refine .inl ?_
      have hc := h
      unfold IsSmall at hc
      rw [Int.zero_add, Int.bmod_eq_of_le (by omega) (by omega)]
      exact h
    | shift s =>
      rw [Int.mul_zero]
      exact .inl (by decide)
    | same => exact .inl (by decide)

theorem Reaches.isNarrow_of_one (h : Reaches 1 w) : IsNarrow w := by
  rcases h.of_one with hsmall | ⟨c, hc, rfl⟩
  · unfold IsSmall at hsmall
    unfold IsNarrow
    omega
  · unfold IsNarrow
    omega

/-- A number of 32 bits after some additions, or one of little weight after some. -/
inductive Shape (n : Nat) (v : Int) : Prop where
  | near (t : Nat) (ht : t + 1 ≤ n) (h : -0x80000000 - 0x800 * t ≤ v ∧ v < 0x80000000 + 0x800 * t)
  | sum (z r : Int) (m t : Nat) (hm : 2 ≤ m) (ht : m + t ≤ n) (hz : weight z ≤ m)
    (hr : -0x800 * t ≤ r ∧ r ≤ 0x7ff * t) (h : v = z + r)

theorem weight_round_of_near (h : -0x80000800 ≤ v ∧ v < 0x80000800)
    (hwide : ¬IsNarrow v) : weight ((v + 0x800) / 0x1000) = 1 := by
  unfold IsNarrow at hwide
  have hround : (v + 0x800) / 0x1000 = 2 ^ 19 * 1 ∨ (v + 0x800) / 0x1000 = 2 ^ 19 * -1 := by omega
  rcases hround with hround | hround
  · rw [hround, weight_two_pow_mul]
    exact weight_eq_one (by decide)
  · rw [hround, weight_two_pow_mul]
    exact weight_eq_one (by decide)

theorem weight_le_three (h : -0x80000800 ≤ v ∧ v < 0x80000800) : weight v ≤ 3 := by
  by_cases hnarrow : IsNarrow v
  · exact Nat.le_succ_of_le (weight_le_two ⟨hnarrow.1, Int.le_of_lt hnarrow.2⟩)
  by_cases heven : v % 2 = 0
  · rw [weight_of_even heven]
    exact Nat.le_succ_of_le (weight_le_two (by omega))
  · exact Nat.le_of_eq (by rw [weight_of_wide heven hnarrow, weight_round_of_near h hnarrow])

/-- Two additions to a number are less than one to its half. -/
theorem weight_half_add_le {z r : Int} (hr : -0x1000 ≤ r ∧ r ≤ 0xffe) {t : Int} (h₀ : 0 ≤ t)
    (h₁ : t ≤ 1) : weight ((z + r + t) / 2) ≤ weight z + 2 := by
  have hsplit : (z + r + t) / 2 = (z + (r + t) % 2) / 2 + (r + t) / 2 := by omega
  have hsmall : IsSmall ((r + t) / 2) := by
    unfold IsSmall
    omega
  rw [hsplit]
  exact Nat.le_trans (weight_add_le _ hsmall)
    (Nat.add_le_add_right (weight_half_le z (by omega)) 2)

/-- **Few steps make numbers of little weight.** -/
theorem Shape.weighs (h : Shape n v) (hn : n ≤ 4) :
    Weighs (n + 2) (n + 1) v ∧ (n ≤ 3 → weight v ≤ n + 1) ∧ (n ≤ 2 → Weighs 3 2 v) := by
  cases h with
  | near t ht h =>
    have hhalf : ∀ d, 0 ≤ d → d ≤ 1 → weight ((v + d) / 2) ≤ 2 :=
      fun d h₀ h₁ => weight_le_two (by omega)
    have hfour := Weighs.of_half hhalf
    have hlow : t ≤ 1 → weight v ≤ t + 2 := by
      intro ht
      rcases Nat.le_one_iff_eq_zero_or_eq_one.1 ht with rfl | rfl
      · exact weight_le_two (by omega)
      · exact weight_le_three (by omega)
    have hwhole : weight v ≤ n + 1 := by
      by_cases hone : t ≤ 1
      · exact Nat.le_trans (hlow hone) (by omega)
      · exact Nat.le_trans hfour.whole (by omega)
    refine ⟨⟨by omega, fun d h₀ h₁ => Nat.le_trans (hhalf d h₀ h₁) (by omega)⟩, fun _ => hwhole,
      fun htwo => ⟨Nat.le_trans (hlow (by omega)) (by omega), hhalf⟩⟩
  | sum z r m t hm ht hz hr h =>
    subst h
    by_cases hzero : t = 0
    · obtain rfl : r = 0 := by subst hzero; omega
      rw [Int.add_zero]
      have hboth := Weighs.of_weight hz
      exact ⟨hboth.mono (by omega) (by omega), fun _ => Nat.le_trans hz (by omega),
        fun htwo => hboth.mono (by omega) (by omega)⟩
    · have hhalf : ∀ d, 0 ≤ d → d ≤ 1 → weight ((z + r + d) / 2) ≤ m + 2 := fun d h₀ h₁ =>
        Nat.le_trans (weight_half_add_le (by omega) h₀ h₁) (Nat.add_le_add_right hz 2)
      have hone : t = 1 → weight (z + r) ≤ m + 2 := by
        rintro rfl
        have hsmall : IsSmall r := by
          unfold IsSmall
          omega
        exact Nat.le_trans (weight_add_le z hsmall) (Nat.add_le_add_right hz 2)
      have hwhole := (Weighs.of_half hhalf).whole
      refine ⟨⟨?_, fun d h₀ h₁ => Nat.le_trans (hhalf d h₀ h₁) (by omega)⟩, fun hthree => ?_,
        fun htwo => by omega⟩
      · by_cases ht₁ : t = 1
        · exact Nat.le_trans (hone ht₁) (by omega)
        · omega
      · exact Nat.le_trans (hone (by omega)) (by omega)

theorem shape_of_isNarrow (hn : 1 ≤ n) (h : IsNarrow v) : Shape n v := by
  unfold IsNarrow at h
  exact .near 0 hn (by omega)

theorem Shape.makes (h : Shape n v) (hn : 1 ≤ n) (hn' : n ≤ 3) (hw : Makes v w) :
    Shape (n + 1) w := by
  cases hw with
  | upper hc =>
    refine shape_of_isNarrow (by omega) ?_
    unfold IsNarrow
    omega
  | small hc =>
    refine shape_of_isNarrow (by omega) ?_
    unfold IsSmall at hc
    unfold IsNarrow
    omega
  | @add c hc =>
    unfold IsSmall at hc
    cases h with
    | near t ht h => exact .near (t + 1) (by omega) (by omega)
    | sum z r m t hm ht hz hr h =>
      exact .sum z (r + c) m (t + 1) hm (by omega) hz (by omega) (by rw [h, Int.add_assoc])
  | addWord hc => exact shape_of_isNarrow (by omega) (isNarrow_bmod _)
  | shift s =>
    have hweight : weight (2 ^ s * v) ≤ n + 1 := by
      rw [weight_two_pow_mul]
      exact (h.weighs (by omega)).2.1 hn'
    exact .sum _ 0 (n + 1) 0 (by omega) (by omega) hweight (by omega) (Int.add_zero _).symm
  | same =>
    cases h with
    | near t ht h => exact .near t (by omega) h
    | sum z r m t hm ht hz hr h => exact .sum z r m t hm (by omega) hz hr h

/-- The shape of the numbers that short chains make. -/
theorem Reaches.shape (h : Reaches n v) (hn : 1 ≤ n) (hn' : n ≤ 4) : Shape n v := by
  induction h with
  | zero => omega
  | @succ n v w hv hw ih =>
    by_cases hzero : n = 0
    · subst hzero
      exact shape_of_isNarrow (by omega) (Reaches.succ hv hw).isNarrow_of_one
    · exact (ih (by omega) (by omega)).makes (by omega) (by omega) hw

theorem Weighs.cost_makes {p q : Nat} (h : Weighs p q v) (hw : Makes v w) (hwide : ¬IsNarrow w) :
    cost w ≤ max (p + 1) (q + 2) := by
  cases hw with
  | upper hc =>
    unfold IsNarrow at hwide
    omega
  | small hc =>
    unfold IsSmall at hc
    unfold IsNarrow at hwide
    omega
  | add hc => exact Nat.le_trans (h.cost_add hc) (Nat.le_max_right _ _)
  | addWord hc => exact absurd (isNarrow_bmod _) hwide
  | shift s => exact h.cost_shift s
  | same =>
    have hsame := h.cost_shift 0
    rwa [Int.pow_zero, Int.one_mul] at hsame

/-- The cost of a number of more than 32 bits that two instructions make. -/
theorem Reaches.cost_of_two (h : Reaches 2 w) (hwide : ¬IsNarrow w) : cost w ≤ 3 := by
  cases h with
  | @succ _ v _ hv hw =>
    rcases hv.of_one with hsmall | ⟨c, hc, rfl⟩
    · unfold IsSmall at hsmall
      have hone : weight v ≤ 1 := Nat.le_of_eq (weight_eq_one (by omega))
      exact (Weighs.of_weight hone).cost_makes hw hwide
    · unfold IsNarrow at hwide
      cases hw with
      | upper hd => omega
      | small hd =>
        unfold IsSmall at hd
        omega
      | add hd =>
        unfold IsSmall at hd
        refine Nat.le_trans (cost_le _) (Nat.le_of_eq ?_)
        rw [weight_round_of_near (by omega) hwide]
      | addWord hd => exact absurd (isNarrow_bmod _) hwide
      | shift s =>
        have hmod : 2 ^ s * (0x1000 * c) % 0x1000 = 0 := by
          rw [Int.mul_left_comm]
          exact Int.mul_emod_right _ _
        rw [cost, if_pos hmod, weight_two_pow_mul]
        exact Nat.succ_le_succ (weight_le_two (by omega))
      | same => omega

/-- **The cost of what a chain makes is not far above its length.** -/
theorem Reaches.cost_le (h : Reaches n w) (hn : n ≤ 5) (hwide : ¬IsNarrow w) :
    cost w ≤ n + 2 ∧ 2 * cost w ≤ 3 * n := by
  match n, h with
  | 0, .zero => exact absurd (by decide) hwide
  | 1, h => exact absurd h.isNarrow_of_one hwide
  | 2, h =>
    have hcost := h.cost_of_two hwide
    omega
  | n + 3, .succ hv hw =>
    obtain ⟨hweighs, -, htwo⟩ := (hv.shape (by omega) (by omega)).weighs (by omega)
    have hcost := hweighs.cost_makes hw hwide
    by_cases hn₂ : n + 2 ≤ 2
    · have hcost' := (htwo hn₂).cost_makes hw hwide
      omega
    · omega

end

end Constant

end RiscvAssembler
