import RiscvAssembler.Text.Numeral

/-!
Reading what was written. A run of characters of one kind is taken off a text as a whole if another
kind follows it, and numerals read back as the numbers they were written for.
-/

namespace RiscvAssembler.Text

/-! ### Runs of characters -/

section Runs

variable {p : Char → Bool} {run rest : List Char}

theorem takeWhile_run (hrun : ∀ c ∈ run, p c = true) (hrest : ∀ c ∈ rest.head?, p c = false) :
    (run ++ rest).takeWhile p = run := by
  rw [List.takeWhile_append_of_pos hrun]
  cases rest with
  | nil => simp
  | cons c rest => simp [hrest c rfl]

theorem dropWhile_run (hrun : ∀ c ∈ run, p c = true) (hrest : ∀ c ∈ rest.head?, p c = false) :
    (run ++ rest).dropWhile p = rest := by
  rw [List.dropWhile_append_of_pos hrun]
  cases rest with
  | nil => rfl
  | cons c rest => simp [hrest c rfl]

end Runs

/-! ### Numerals -/

theorem digitValue?_digitChar {radix d : Nat} (hd : d < radix) (hradix : radix ≤ 16) :
    digitValue? radix d.digitChar = some d := by
  have hvalue : ∀ d < 16, digitValue? 16 d.digitChar = some d := by decide
  have hsome := hvalue d (Nat.lt_of_lt_of_le hd hradix)
  unfold digitValue? at hsome ⊢
  obtain ⟨hval, -⟩ := Option.filter_eq_some_iff.1 hsome
  simp only [hval, Option.filter_some, hd, decide_true, if_true]

theorem readDigits?_append (radix value : Nat) (s t : List Char) :
    readDigits? radix value (s ++ t) =
      (readDigits? radix value s).bind (readDigits? radix · t) := by
  induction s generalizing value with
  | nil => rfl
  | cons c s ih =>
    simp only [List.cons_append, readDigits?]
    cases digitValue? radix c with
    | none => rfl
    | some d => exact ih _

/-- Digits spell the number they were written for. -/
theorem readDigits?_toDigits {radix : Nat} (hlow : 1 < radix) (hhigh : radix ≤ 16) (n : Nat) :
    readDigits? radix 0 (Nat.toDigits radix n) = some n := by
  induction n using Nat.strongRecOn with
  | ind n ih =>
    rw [Nat.toDigits_eq_if hlow]
    split
    · rename_i hn
      simp [readDigits?, digitValue?_digitChar hn hhigh]
    · rename_i hn
      have hmod : n % radix < radix := Nat.mod_lt n (by omega)
      rw [readDigits?_append, ih (n / radix) (Nat.div_lt_self (by omega) hlow)]
      simp [readDigits?, digitValue?_digitChar hmod hhigh, Nat.div_add_mod]

theorem decimal_natCast (n : Nat) : decimal n = Nat.toDigits 10 n := by
  rw [decimal, if_neg (by omega), Int.natAbs_natCast]

theorem isDigit_of_mem_decimal {n : Nat} {c : Char} (h : c ∈ decimal n) : c.isDigit = true := by
  rw [decimal_natCast] at h
  exact Nat.isDigit_of_mem_toDigits (by decide) (by decide) h

theorem exists_cons_of_decimal (n : Nat) : ∃ d digits, decimal n = d :: digits := by
  rw [decimal_natCast]
  exact List.exists_cons_of_ne_nil Nat.toDigits_ne_nil

theorem readNumeral?_decimal (n : Nat) : readNumeral? 10 (decimal n) = some n := by
  obtain ⟨d, digits, hd⟩ := exists_cons_of_decimal n
  have hread : readDigits? 10 0 (Nat.toDigits 10 n) = some n :=
    readDigits?_toDigits (by decide) (by decide) n
  rw [← decimal_natCast, hd] at hread
  rw [hd]
  exact hread

/-- Numbers are told from each other by their digits. -/
theorem decimalText_natCast_inj {n m : Nat} : decimalText n = decimalText m ↔ n = m := by
  refine ⟨fun h => ?_, fun h => by rw [h]⟩
  have hdigits : Nat.toDigits 10 n = Nat.toDigits 10 m := by
    rw [← decimal_natCast, ← decimal_natCast]
    exact String.ofList_inj.1 h
  have hread := readDigits?_toDigits (by decide) (by decide : 10 ≤ 16) n
  rw [hdigits, readDigits?_toDigits (by decide) (by decide)] at hread
  exact (Option.some.inj hread).symm

end RiscvAssembler.Text
