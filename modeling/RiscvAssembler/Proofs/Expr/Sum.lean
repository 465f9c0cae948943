import Mathlib.Data.Nat.Digits.Defs
import RiscvAssembler.Expr.Evaluator
import RiscvAssembler.Proofs.Text.Numeral

/-!
Sums as they are written, and what they mean. A sum is a list of summands, each a literal or a name
after a run of signs and blanks. The meaning is said without reading anything: literals add up,
signs cancel in pairs, and a name stands in a sum once and is not negated (`SumText.meaning`). The
basic evaluator reads a summand as one term (`term?_run`), so it adds the summands one after the
other (`moreTerms_summands`) and gives the meaning with the text after the sum (`basic_reads_sums`).
-/

namespace RiscvAssembler.Evaluator

/-! ### Literals -/

/-- The radix of a literal. -/
inductive Radix where
  | decimal
  | hexadecimal
  | octal
  | binary
deriving DecidableEq, Repr

namespace Radix

/-- The number of digits of a radix. -/
def base : Radix → Nat
  | .decimal => 10
  | .hexadecimal => 16
  | .octal => 8
  | .binary => 2

instance (r : Radix) : NeZero r.base :=
  ⟨by cases r <;> decide⟩

/-- What announces a radix, in small or capital letters. -/
def mark (capital : Bool) : Radix → List Char
  | .decimal => []
  | .hexadecimal => ['0', if capital then 'X' else 'x']
  | .octal => ['0', if capital then 'O' else 'o']
  | .binary => ['0', if capital then 'B' else 'b']

end Radix

/-- A digit of a radix; letters may be small or capital. -/
structure Digit (r : Radix) where
  value : Fin r.base
  capital : Bool
deriving DecidableEq, Repr

/-- The character of a digit. -/
def Digit.char {r : Radix} (d : Digit r) : Char :=
  if d.capital then d.value.val.digitChar.toUpper else d.value.val.digitChar

/-- A literal. After its first digit, underscores may stand anywhere. -/
structure Literal where
  radix : Radix
  /-- Whether the radix is announced in capital letters. -/
  capital : Bool
  first : Digit radix
  /-- Digits, and `none` for an underscore. -/
  more : List (Option (Digit radix))
deriving DecidableEq, Repr

namespace Literal

/-- The digits, the most significant first. -/
def digits (l : Literal) : List (Digit l.radix) :=
  l.first :: l.more.filterMap id

/-- The text from the first digit on. -/
def body (l : Literal) : List Char :=
  l.first.char :: l.more.map fun d => d.elim '_' Digit.char

/-- The text of a literal. -/
def text (l : Literal) : List Char :=
  l.radix.mark l.capital ++ l.body

/-- The number that a literal stands for. -/
def value (l : Literal) : Nat :=
  Nat.ofDigits l.radix.base (l.digits.map (·.value.val)).reverse

end Literal

/-! ### Sums -/

/-- Whether a text is a name: a letter, `_`, `.` or `$`, and then any of these and digits. -/
def isIdentifier (s : List Char) : Bool :=
  s.head?.any Text.isSymbolStart && s.all Text.isSymbolChar

/-- What is added up: literals below 2^64, and names. -/
inductive Atom where
  | literal (l : Literal) (hl : l.value < 2 ^ 64)
  | name (n : List Char) (hn : isIdentifier n = true)
deriving DecidableEq, Repr

namespace Atom

/-- The text of an atom. -/
def text : Atom → List Char
  | .literal l _ => l.text
  | .name n _ => n

/-- The number of a literal. -/
def number : Atom → Int
  | .literal l _ => l.value
  | .name _ _ => 0

/-- The text of a name. -/
def name? : Atom → Option (List Char)
  | .literal _ _ => none
  | .name n _ => some n

/-- Whether a character continues an atom that it stands right after. -/
def continuedBy : Atom → Char → Bool
  | .literal _ _ => Text.isWordChar
  | .name _ _ => Text.isSymbolChar

theorem continuedBy_of_name?_eq_none {a : Atom} (h : a.name? = none) (c : Char) :
    a.continuedBy c = Text.isWordChar c := by
  cases a with
  | literal l hl => rfl
  | name n hn => cases h

end Atom

/-- Whether a character may stand in a run of signs. -/
def isSign (c : Char) : Bool :=
  Text.isBlank c || c == '+' || c == '-'

/-- Whether a run of signs negates: minus signs cancel in pairs. -/
def isNegative (run : List Char) : Bool :=
  run.count '-' % 2 == 1

/-- An atom after a run of signs and blanks, which may be empty. -/
structure Summand where
  run : List Char
  atom : Atom
  isSign_run : run.all isSign = true
deriving DecidableEq, Repr

namespace Summand

/-- The text of a summand. -/
def text (s : Summand) : List Char :=
  s.run ++ s.atom.text

/-- The signed number of a summand. -/
def number (s : Summand) : Int :=
  if isNegative s.run then -s.atom.number else s.atom.number

/-- The name of a summand, and whether it is negated. -/
def name? (s : Summand) : Option (Bool × List Char) :=
  s.atom.name?.map (isNegative s.run, ·)

/-- Whether a summand can follow another one: there is a sign in its run. -/
def joins (s : Summand) : Bool :=
  s.run.any fun c => c == '+' || c == '-'

end Summand

/-- The last atom, where `a` stands before the summands. -/
def lastAtom (a : Atom) : List Summand → Atom
  | [] => a
  | s :: ss => lastAtom s.atom ss

/-- A sum of one or more summands, joined by signs. -/
structure SumText where
  first : Summand
  more : List Summand
  joined : more.all Summand.joins = true
deriving DecidableEq, Repr

namespace SumText

/-- The summands, in order. -/
def summands (t : SumText) : List Summand :=
  t.first :: t.more

/-- The text of a sum. -/
def text (t : SumText) : List Char :=
  t.summands.flatMap Summand.text

/-- The sum of the signed literals. -/
def total (t : SumText) : Int :=
  (t.summands.map Summand.number).sum

/-- The names of a sum, and whether each is negated. -/
def names (t : SumText) : List (Bool × List Char) :=
  t.summands.filterMap Summand.name?

/-- What a sum means: a constant, or a name with an addend. Totals are taken modulo 2^64. A negated
name and a second name mean nothing, and neither does the name of a register with anything else. -/
def meaning (t : SumText) : Option Expr :=
  match t.names with
  | [] => some (.constant (Int64.ofInt t.total))
  | [(false, n)] =>
    if Register.isName n then
      if t.more.isEmpty then some (.register (String.ofList n)) else none
    else some (.symbol (String.ofList n) (Int64.ofInt t.total))
  | _ => none

/-- The text after a sum neither continues its last atom nor goes on with a sign. -/
def EndsBefore (t : SumText) (rest : List Char) : Prop :=
  (∀ c ∈ rest.head?, (lastAtom t.first.atom t.more).continuedBy c = false) ∧
    ∀ c ∈ (Text.dropBlanks rest).head?, c ≠ '+' ∧ c ≠ '-'

theorem meaning_of_names_eq_nil {t : SumText} (h : t.names = []) :
    t.meaning = some (.constant (Int64.ofInt t.total)) := by
  rw [meaning, h]

theorem meaning_of_names_eq_singleton {t : SumText} {n : List Char} (h : t.names = [(false, n)])
    (hn : Register.isName n = false) :
    t.meaning = some (.symbol (String.ofList n) (Int64.ofInt t.total)) := by
  rw [meaning, h]
  simp [hn]

end SumText

/-! ### Reading a literal -/

namespace Digit

variable {r : Radix}

theorem digitValue?_char (d : Digit r) : Text.digitValue? r.base d.char = some d.value.val := by
  obtain ⟨v, capital⟩ := d
  cases r <;> revert v capital <;> decide

theorem isAlphanum_char (d : Digit r) : d.char.isAlphanum = true := by
  obtain ⟨v, capital⟩ := d
  cases r <;> revert v capital <;> decide

theorem char_of_decimal (d : Digit .decimal) :
    d.char.isDigit = true ∧ d.char.isAlpha = false := by
  obtain ⟨v, capital⟩ := d
  revert v capital
  decide

theorem char_of_binary (d : Digit .binary) : d.char = '0' ∨ d.char = '1' := by
  obtain ⟨v, capital⟩ := d
  revert v capital
  decide

theorem char_ne_underscore (d : Digit r) : d.char ≠ '_' := by
  intro h
  have hword := d.isAlphanum_char
  rw [h] at hword
  cases hword

/-- Digits spell the number that they are the digits of. -/
theorem readDigits?_map_char (ds : List (Digit r)) (value : Nat) :
    Text.readDigits? r.base value (ds.map Digit.char) =
      some (r.base ^ ds.length * value +
        Nat.ofDigits r.base (ds.map (·.value.val)).reverse) := by
  induction ds generalizing value with
  | nil => simp [Text.readDigits?]
  | cons d ds ih =>
    rw [List.map_cons, Text.readDigits?, digitValue?_char]
    dsimp only
    rw [ih, List.map_cons, List.reverse_cons, Nat.ofDigits_append, Nat.ofDigits_singleton,
      List.length_reverse, List.length_map, List.length_cons, Nat.pow_succ]
    congr 1
    ring

end Digit

namespace Literal

theorem isWordChar_of_mem_body {l : Literal} {c : Char} (h : c ∈ l.body) :
    Text.isWordChar c = true := by
  have hdigit : ∀ d : Digit l.radix, Text.isWordChar d.char = true := fun d => by
    simp [Text.isWordChar, d.isAlphanum_char]
  rcases List.mem_cons.1 h with rfl | h
  · exact hdigit l.first
  · obtain ⟨d, -, rfl⟩ := List.mem_map.1 h
    cases d with
    | none => rfl
    | some d => exact hdigit d

/-- Underscores do not count. -/
theorem filter_body (l : Literal) : l.body.filter (· != '_') = l.digits.map Digit.char := by
  have hmore : ∀ ds : List (Option (Digit l.radix)),
      (ds.map fun d => d.elim '_' Digit.char).filter (· != '_') =
        (ds.filterMap id).map Digit.char := by
    intro ds
    induction ds with
    | nil => rfl
    | cons d ds ih =>
      cases d with
      | none => simpa using ih
      | some d => simpa [d.char_ne_underscore] using ih
  unfold body digits
  rw [List.filter_cons_of_pos (by simpa using l.first.char_ne_underscore), hmore, List.map_cons]

/-- No letter announces a radix where the second character is no letter. -/
theorem radix_of_second {s : List Char}
    (h : ∀ c d r, s = c :: d :: r → d.isAlpha = false) : Evaluator.radix s = (10, s) := by
  unfold Evaluator.radix
  split
  case h_1 r => exact absurd (h _ _ _ rfl) (by decide)
  case h_2 r => exact absurd (h _ _ _ rfl) (by decide)
  case h_3 d r => exact absurd (h _ _ _ rfl) (by decide)
  case h_4 d r => exact absurd (h _ _ _ rfl) (by decide)
  case h_5 r => exact absurd (h _ _ _ rfl) (by decide)
  case h_6 r => exact absurd (h _ _ _ rfl) (by decide)
  case h_7 => rfl

/-- The second character of a decimal literal, or the one after it, is no letter. -/
theorem second_of_decimal {capital : Bool} {first : Digit .decimal}
    {more : List (Option (Digit .decimal))} {rest : List Char}
    (hrest : ∀ c ∈ rest.head?, Text.isWordChar c = false) {c d : Char} {r : List Char}
    (h : (Literal.mk .decimal capital first more).body ++ rest = c :: d :: r) :
    d.isAlpha = false := by
  cases more with
  | nil =>
    cases rest with
    | nil => cases h
    | cons a rest =>
      cases h
      have hword := hrest d rfl
      simp only [Text.isWordChar, Char.isAlphanum, Bool.or_eq_false_iff] at hword
      exact hword.1.1
  | cons a more =>
    cases a with
    | none =>
      cases h
      rfl
    | some a =>
      cases h
      exact a.char_of_decimal.2

theorem radix_text (l : Literal) {rest : List Char}
    (hrest : ∀ c ∈ rest.head?, Text.isWordChar c = false) :
    Evaluator.radix (l.text ++ rest) = (l.radix.base, l.body ++ rest) := by
  obtain ⟨r, capital, first, more⟩ := l
  cases r with
  | decimal => exact radix_of_second fun c d r => second_of_decimal hrest
  | hexadecimal => cases capital <;> rfl
  | octal => cases capital <;> rfl
  | binary =>
    have hfirst := first.char_of_binary
    cases capital <;> exact if_pos hfirst

/-- A literal is read as its value. -/
theorem literal?_text {l : Literal} (hl : l.value < 2 ^ 64) {rest : List Char}
    (hrest : ∀ c ∈ rest.head?, Text.isWordChar c = false) :
    literal? (l.text ++ rest) = some (Int64.ofInt l.value, rest) := by
  have hword : ∀ c ∈ l.body, Text.isWordChar c = true := fun c hc => isWordChar_of_mem_body hc
  have hnumeral : Text.readNumeral? l.radix.base (l.digits.map Digit.char) = some l.value := by
    have hread := Digit.readDigits?_map_char l.digits 0
    rw [Nat.mul_zero, Nat.zero_add] at hread
    exact hread
  have hint : Int64.ofBitVec (BitVec.ofNat 64 l.value) = Int64.ofInt l.value :=
    congrArg Int64.ofBitVec (BitVec.ofInt_natCast 64 l.value).symm
  unfold literal?
  rw [radix_text l hrest]
  dsimp only
  rw [Text.takeWhile_run hword hrest, Text.dropWhile_run hword hrest, filter_body, hnumeral,
    Option.filter_some, if_pos (by simpa using hl), Option.map_some, hint]

/-- A literal starts with a digit. -/
theorem exists_digit_of_text (l : Literal) : ∃ c r, l.text = c :: r ∧ c.isDigit = true := by
  obtain ⟨r, capital, first, more⟩ := l
  cases r with
  | decimal => exact ⟨_, _, rfl, first.char_of_decimal.1⟩
  | hexadecimal | octal | binary => exact ⟨_, _, rfl, rfl⟩

end Literal

/-! ### Reading a term -/

/-- The term that an atom is read as. -/
def Atom.term : Atom → Term
  | .literal l _ => .number (Int64.ofInt l.value)
  | .name n _ => .name n

theorem isSign_of_isSymbolChar {c : Char} (h : Text.isSymbolChar c = true) : isSign c = false := by
  have hne : ∀ d, Text.isSymbolChar d = false → c ≠ d := by
    rintro d hd rfl
    rw [hd] at h
    cases h
  simp [isSign, Text.isBlank, hne ' ' rfl, hne '\t' rfl, hne '+' rfl, hne '-' rfl]

theorem isSymbolStart_of_isDigit {c : Char} (h : c.isDigit = true) :
    Text.isSymbolStart c = false := by
  have hall : ∀ n ≤ 57, (Char.ofNat n).isDigit = true →
      Text.isSymbolStart (Char.ofNat n) = false := by decide
  have hc := hall c.toNat (Char.isDigit_iff_toNat.1 h).2
  rw [Char.ofNat_toNat] at hc
  exact hc h

theorem isNegative_cons (c : Char) (run : List Char) :
    isNegative (c :: run) = ((c == '-') != isNegative run) := by
  unfold isNegative
  rw [List.count_cons]
  rcases Nat.mod_two_eq_zero_or_one (run.count '-') with hcount | hcount
  · cases hc : c == '-' <;> simp [hcount, Nat.add_mod]
  · cases hc : c == '-' <;> simp [hcount, Nat.add_mod]

/-- A run of signs is taken off as a whole if something else follows it. -/
theorem signs_run {run rest : List Char} (hrun : run.all isSign = true)
    (hrest : ∀ c ∈ rest.head?, isSign c = false) (negative : Bool) :
    signs negative (run ++ rest) = (negative != isNegative run, rest) := by
  induction run generalizing negative with
  | nil =>
    cases rest with
    | nil => simp [signs, isNegative]
    | cons c rest =>
      have hc := hrest c rfl
      simp only [isSign, Bool.or_eq_false_iff] at hc
      simp [signs, isNegative, hc]
  | cons c run ih =>
    obtain ⟨hc, hrun⟩ := Bool.and_eq_true_iff.1 hrun
    rw [List.cons_append, signs, isNegative_cons]
    split
    · rename_i hplain
      have hminus : (c == '-') = false := by
        rw [beq_eq_false_iff_ne]
        rintro rfl
        cases hplain
      rw [ih hrun, hminus, Bool.false_bne]
    · rename_i hplain
      have hminus : (c == '-') = true := by
        rw [Bool.not_eq_true] at hplain
        rw [isSign, hplain] at hc
        exact hc
      rw [if_pos hminus, ih hrun, hminus, Bool.true_bne, Bool.not_bne, Bool.bne_not]

theorem isSymbolChar_of_isWordChar {c : Char} (h : Text.isWordChar c = true) :
    Text.isSymbolChar c = true := by
  simp only [Text.isWordChar, Char.isAlphanum, Bool.or_eq_true] at h
  rcases h with (halpha | hdigit) | hunderscore
  · simp [Text.isSymbolChar, Text.isSymbolStart, halpha]
  · simp [Text.isSymbolChar, hdigit]
  · simp [Text.isSymbolChar, Text.isSymbolStart, eq_of_beq hunderscore]

/-- Only characters of names continue an atom. -/
theorem Atom.isSymbolChar_of_continuedBy {a : Atom} {c : Char} (h : a.continuedBy c = true) :
    Text.isSymbolChar c = true := by
  cases a with
  | name n hn => exact h
  | literal l hl => exact isSymbolChar_of_isWordChar h

theorem Atom.exists_cons_of_text (a : Atom) :
    ∃ c r, a.text = c :: r ∧ Text.isSymbolChar c = true := by
  cases a with
  | literal l hl =>
    obtain ⟨c, r, htext, hdigit⟩ := l.exists_digit_of_text
    exact ⟨c, r, htext, by simp [Text.isSymbolChar, hdigit]⟩
  | name n hn =>
    cases n with
    | nil => cases hn
    | cons c r => exact ⟨c, r, rfl, (Bool.and_eq_true_iff.1 (Bool.and_eq_true_iff.1 hn).2).1⟩

/-- **An atom after a run of signs is one term.** -/
theorem term?_run {run rest : List Char} (hrun : run.all isSign = true) {a : Atom}
    (hrest : ∀ c ∈ rest.head?, a.continuedBy c = false) :
    term? (run ++ (a.text ++ rest)) = some (isNegative run, a.term, rest) := by
  obtain ⟨c, r, htext, hc⟩ := a.exists_cons_of_text
  have hsigns : signs false (run ++ (a.text ++ rest)) = (isNegative run, a.text ++ rest) := by
    rw [signs_run hrun, Bool.false_bne]
    intro d hd
    rw [htext] at hd
    cases hd
    exact isSign_of_isSymbolChar hc
  unfold term?
  rw [hsigns, htext, List.cons_append]
  dsimp only
  rw [← List.cons_append, ← htext]
  cases a with
  | literal l hl =>
    obtain ⟨d, r', htext', hdigit⟩ := l.exists_digit_of_text
    cases htext.symm.trans htext'
    rw [if_pos hdigit]
    simp only [Atom.text]
    rw [Literal.literal?_text hl hrest]
    rfl
  | name n hn =>
    obtain ⟨hfirst, hall⟩ := Bool.and_eq_true_iff.1 hn
    have hstart : Text.isSymbolStart c = true := by
      rw [show n = c :: r from htext] at hfirst
      exact hfirst
    have hdigit : ¬ c.isDigit = true := by
      intro hdigit
      rw [isSymbolStart_of_isDigit hdigit] at hstart
      cases hstart
    rw [if_neg hdigit, if_pos hstart]
    simp only [Atom.text]
    rw [Text.takeWhile_run (List.all_eq_true.1 hall) hrest,
      Text.dropWhile_run (List.all_eq_true.1 hall) hrest]
    rfl

/-! ### Reading a sum -/

/-- One more term after a sign. -/
theorem moreTerms_of_sign {sum : Sum} {s after : List Char} {c : Char} (hc : c = '+' ∨ c = '-')
    (hs : Text.dropBlanks s = c :: after) :
    moreTerms sum s = (term? after).bind fun (inner, t, rest) =>
      (sum.add? ((c == '-') != inner) t).bind (moreTerms · rest) := by
  rw [moreTerms.eq_def]
  split
  · rename_i d after' heq
    cases hs.symm.trans heq
    rw [if_pos hc]
    split
    · rename_i hterm
      rw [hterm]
      rfl
    · rename_i inner t rest hterm
      simp only [hterm, Option.bind_some]
      cases sum.add? ((c == '-') != inner) t <;> rfl
  · rename_i heq
    cases hs.symm.trans heq

/-- Without a sign there are no more terms. -/
theorem moreTerms_of_end {sum : Sum} {s : List Char}
    (hs : ∀ c ∈ (Text.dropBlanks s).head?, c ≠ '+' ∧ c ≠ '-') :
    moreTerms sum s = some (sum, s) := by
  rw [moreTerms.eq_def]
  split
  · rename_i c after heq
    rw [heq] at hs
    obtain ⟨hplus, hminus⟩ := hs c rfl
    rw [if_neg (by simp [hplus, hminus])]
  · rfl

/-- The sum with a summand added. -/
def Sum.addSummand? (sum : Sum) (s : Summand) : Option Sum :=
  sum.add? (isNegative s.run) s.atom.term

/-- The first sign of a run stands after blanks; the rest of the run decides whether it counts. -/
theorem Summand.exists_sign {s : Summand} (h : s.joins = true) :
    ∃ blanks c run, s.run = blanks ++ c :: run ∧ (∀ b ∈ blanks, Text.isBlank b = true) ∧
      (c = '+' ∨ c = '-') ∧ run.all isSign = true ∧
      isNegative s.run = ((c == '-') != isNegative run) := by
  obtain ⟨run, atom, hrun⟩ := s
  dsimp only [joins] at h ⊢
  induction run with
  | nil => cases h
  | cons c run ih =>
    obtain ⟨hc, hrun⟩ := Bool.and_eq_true_iff.1 hrun
    by_cases hsign : c = '+' ∨ c = '-'
    · exact ⟨[], c, run, rfl, by simp, hsign, hrun, isNegative_cons c run⟩
    · rw [not_or] at hsign
      obtain ⟨blanks, d, tail, rfl, hblanks, hd, htail, hneg⟩ := ih hrun (by simpa [hsign] using h)
      have hblank : Text.isBlank c = true := by simpa [isSign, hsign] using hc
      refine ⟨c :: blanks, d, tail, rfl, List.forall_mem_cons.2 ⟨hblank, hblanks⟩, hd, htail, ?_⟩
      rw [isNegative_cons, hneg, beq_eq_false_iff_ne.2 hsign.2, Bool.false_bne]

/-- What follows an atom in a sum does not continue it. -/
theorem continuedBy_of_joins {a : Atom} {ss : List Summand} (hjoins : ss.all Summand.joins = true)
    {rest : List Char} (hrest : ∀ c ∈ rest.head?, (lastAtom a ss).continuedBy c = false) :
    ∀ c ∈ (ss.flatMap Summand.text ++ rest).head?, a.continuedBy c = false := by
  cases ss with
  | nil => exact hrest
  | cons s ss =>
    obtain ⟨run, atom, hrun⟩ := s
    cases run with
    | nil => cases (Bool.and_eq_true_iff.1 hjoins).1
    | cons d run =>
      intro c hc
      cases hc
      cases hcontinued : a.continuedBy d with
      | false => rfl
      | true =>
        have hsign := (Bool.and_eq_true_iff.1 hrun).1
        rw [isSign_of_isSymbolChar (Atom.isSymbolChar_of_continuedBy hcontinued)] at hsign
        cases hsign

/-- **Reading the summands after the first one adds them in order**, up to the end of the sum. -/
theorem moreTerms_summands {a : Atom} {ss : List Summand} (hjoins : ss.all Summand.joins = true)
    {rest : List Char} (hrest : ∀ c ∈ rest.head?, (lastAtom a ss).continuedBy c = false)
    (hend : ∀ c ∈ (Text.dropBlanks rest).head?, c ≠ '+' ∧ c ≠ '-') (sum : Sum) :
    moreTerms sum (ss.flatMap Summand.text ++ rest) =
      (ss.foldlM Sum.addSummand? sum).map (·, rest) := by
  induction ss generalizing a sum with
  | nil => exact moreTerms_of_end hend
  | cons s ss ih =>
    obtain ⟨hs, hss⟩ := Bool.and_eq_true_iff.1 hjoins
    obtain ⟨blanks, c, run, hrun, hblanks, hc, hsigns, hnegative⟩ := s.exists_sign hs
    have htext : (s :: ss).flatMap Summand.text ++ rest =
        blanks ++ c :: (run ++ (s.atom.text ++ (ss.flatMap Summand.text ++ rest))) := by
      simp [Summand.text, hrun]
    have hdrop : Text.dropBlanks ((s :: ss).flatMap Summand.text ++ rest) =
        c :: (run ++ (s.atom.text ++ (ss.flatMap Summand.text ++ rest))) := by
      rw [htext, Text.dropBlanks, Text.dropWhile_run hblanks]
      rintro d hd
      cases hd
      rcases hc with rfl | rfl <;> rfl
    rw [moreTerms_of_sign hc hdrop, term?_run hsigns (continuedBy_of_joins hss hrest),
      Option.bind_some, List.foldlM_cons]
    dsimp only
    rw [← hnegative]
    change (sum.addSummand? s).bind _ = _
    cases sum.addSummand? s with
    | none => rfl
    | some sum' => exact ih hss hrest sum'

/-- A sum is read by adding its summands. -/
theorem basic_text_append (t : SumText) {rest : List Char} (hrest : t.EndsBefore rest) :
    basic (t.text ++ rest) =
      ((t.summands.foldlM Sum.addSummand? Sum.empty).bind Sum.toExpr?).map (·, rest) := by
  obtain ⟨first, more, hjoined⟩ := t
  obtain ⟨hatom, hend⟩ := hrest
  have htext : (SumText.mk first more hjoined).text ++ rest =
      first.run ++ (first.atom.text ++ (more.flatMap Summand.text ++ rest)) := by
    simp [SumText.text, SumText.summands, Summand.text]
  unfold basic
  rw [htext, term?_run first.isSign_run (continuedBy_of_joins hjoined hatom)]
  simp only [SumText.summands, List.foldlM_cons]
  change (Sum.empty.addSummand? first).bind _ = _
  cases Sum.empty.addSummand? first with
  | none => rfl
  | some sum =>
    simp only [Option.bind_some, bind, moreTerms_summands hjoined hatom hend]
    cases more.foldlM Sum.addSummand? sum with
    | none => rfl
    | some sum' => cases h : sum'.toExpr? <;> simp [h]

/-! ### The meaning of a sum -/

/-- The name in a sum, where `symbol` was there before: there is at most one, and it is not
negated. -/
def soleName? : (symbol : Option (List Char)) → List (Bool × List Char) →
    Option (Option (List Char))
  | symbol, [] => some symbol
  | none, (false, n) :: names => soleName? (some n) names
  | _, _ => none

theorem addSummand?_literal (sum : Sum) {run : List Char} {l : Literal} (hl : l.value < 2 ^ 64)
    (hrun : run.all isSign = true) :
    sum.addSummand? ⟨run, .literal l hl, hrun⟩ =
      some ⟨sum.constant + Int64.ofInt (Summand.number ⟨run, .literal l hl, hrun⟩), sum.symbol,
        sum.terms + 1⟩ := by
  simp only [Sum.addSummand?, Atom.term, Sum.add?, Summand.number, Atom.number]
  cases isNegative run with
  | false => rfl
  | true =>
    rw [if_pos rfl, if_pos rfl, Int64.ofInt_neg, Int64.sub_eq_add_neg]

/-- Adding summands adds up their numbers and finds the one name among them. -/
theorem foldlM_addSummand? (ss : List Summand) (sum : Sum) :
    ss.foldlM Sum.addSummand? sum =
      (soleName? sum.symbol (ss.filterMap Summand.name?)).map fun symbol =>
        ⟨sum.constant + Int64.ofInt (ss.map Summand.number).sum, symbol,
          sum.terms + ss.length⟩ := by
  induction ss generalizing sum with
  | nil =>
    obtain ⟨constant, symbol, terms⟩ := sum
    cases symbol <;> simp [soleName?]
  | cons s ss ih =>
    have hterms : sum.terms + 1 + ss.length = sum.terms + (s :: ss).length := by
      rw [List.length_cons, Nat.add_assoc, Nat.add_comm 1]
    have htotal : sum.constant + Int64.ofInt s.number + Int64.ofInt (ss.map Summand.number).sum =
        sum.constant + Int64.ofInt ((s :: ss).map Summand.number).sum := by
      rw [List.map_cons, List.sum_cons, Int64.ofInt_add, Int64.add_assoc]
    obtain ⟨run, atom, hrun⟩ := s
    rw [List.foldlM_cons]
    cases atom with
    | literal l hl =>
      rw [addSummand?_literal, ← hterms, ← htotal]
      exact ih _
    | name n hn =>
      have hzero : Summand.number ⟨run, .name n hn, hrun⟩ = 0 := by
        unfold Summand.number
        split <;> rfl
      have hnames : List.filterMap Summand.name? (⟨run, .name n hn, hrun⟩ :: ss) =
          (isNegative run, n) :: ss.filterMap Summand.name? := rfl
      rw [hzero, show Int64.ofInt 0 = 0 from rfl, Int64.add_zero] at htotal
      rw [hnames, ← hterms, ← htotal]
      simp only [Sum.addSummand?, Atom.term, Sum.add?]
      cases hnegative : isNegative run with
      | true => cases sum.symbol <;> rfl
      | false =>
        obtain ⟨constant, symbol, terms⟩ := sum
        cases symbol with
        | some m => rfl
        | none => exact ih _

/-- The summands of a sum add up to its meaning. -/
theorem SumText.toExpr?_summands (t : SumText) :
    (t.summands.foldlM Sum.addSummand? Sum.empty).bind Sum.toExpr? = t.meaning := by
  have hconstant : Sum.empty.constant + Int64.ofInt (t.summands.map Summand.number).sum =
      Int64.ofInt t.total := Int64.zero_add _
  have hterms : Sum.empty.terms + t.summands.length = t.more.length + 1 := by
    rw [summands, List.length_cons]
    exact Nat.zero_add _
  rw [foldlM_addSummand?, hconstant, hterms]
  change ((soleName? none t.names).map _).bind _ = _
  unfold meaning
  cases t.names with
  | nil => rfl
  | cons p names =>
    obtain ⟨negative, n⟩ := p
    cases negative with
    | true => rfl
    | false =>
      cases names with
      | cons q names =>
        obtain ⟨negative, m⟩ := q
        cases negative <;> rfl
      | nil =>
        -- A name alone: whether it is that of a register, and whether anything stands beside it.
        change Sum.toExpr? ⟨_, some n, _⟩ = _
        cases t.more <;> simp [Sum.toExpr?]

/-- **The basic evaluator reads sums.** Whatever literals, names and signs a sum is made of, its
meaning is read and the text after the sum is left. A sum without a meaning is not read at all. -/
theorem basic_reads_sums (t : SumText) {rest : List Char} (hrest : t.EndsBefore rest) :
    basic (t.text ++ rest) = t.meaning.map (·, rest) := by
  rw [basic_text_append t hrest, t.toExpr?_summands]

/-- A name between a literal and one that is close to 2^64, after three minus signs. -/
def wrappingSum : SumText where
  first := ⟨[], .literal ⟨.decimal, false, ⟨4, false⟩, []⟩ (by decide), rfl⟩
  more :=
    [⟨" + ".toList, .name ".L1".toList rfl, rfl⟩,
      ⟨" - --".toList, .literal ⟨.hexadecimal, true, ⟨15, true⟩,
        List.replicate 7 (some ⟨15, false⟩) ++ none :: List.replicate 7 (some ⟨15, false⟩) ++
          [some ⟨14, true⟩]⟩ (by decide), rfl⟩]
  joined := rfl

/-- The difference wraps, and the base register after it is left. -/
theorem basic_reads_sums_wrappingSum :
    wrappingSum.text = "4 + .L1 - --0XFfffffff_fffffffE".toList ∧
      wrappingSum.EndsBefore "(a0)".toList ∧
      wrappingSum.meaning = some (.symbol ".L1" 6) ∧
      basic (wrappingSum.text ++ "(a0)".toList) = some (.symbol ".L1" 6, "(a0)".toList) := by
  have hends : wrappingSum.EndsBefore "(a0)".toList := by
    constructor
    · rintro c hc
      cases hc
      rfl
    · rintro c hc
      cases hc
      decide
  have hmeaning : wrappingSum.meaning = some (.symbol ".L1" 6) := by decide +kernel
  refine ⟨by decide +kernel, hends, hmeaning, ?_⟩
  rw [basic_reads_sums wrappingSum hends, hmeaning]
  rfl

end RiscvAssembler.Evaluator
