import RiscvAssembler.Encoding.Basic
import RiscvAssembler.Proofs.Expr.Sum

/-!
How far operands look. Names and expressions end at a comma or a closing parenthesis, whatever
stands after it (`Register.lookup_append`, `Evaluator.basic_append`). No operand but the comma
itself gets past a comma, so what it makes of a text is settled by the part before the comma
(`Operand.exists_read_append`).
-/

namespace RiscvAssembler

namespace Text

/-- Whether a character ends every name and every expression. -/
def isCloser (c : Char) : Bool :=
  c == ',' || c == ')'

/-- What was read and the rest of a text, where more text follows. -/
def followedBy {α : Type} (more : List Char) (p : α × List Char) : α × List Char :=
  (p.1, p.2 ++ more)

variable {c : Char} {s more : List Char}

theorem isSymbolChar_of_isCloser (h : isCloser c = true) : isSymbolChar c = false := by
  rcases Bool.or_eq_true_iff.1 h with h | h <;> rw [eq_of_beq h] <;> rfl

theorem isWordChar_of_isCloser (h : isCloser c = true) : isWordChar c = false := by
  rcases Bool.or_eq_true_iff.1 h with h | h <;> rw [eq_of_beq h] <;> rfl

theorem isBlank_of_isCloser (h : isCloser c = true) : isBlank c = false := by
  rcases Bool.or_eq_true_iff.1 h with h | h <;> rw [eq_of_beq h] <;> rfl

theorem takeWhile_append_cons {p : Char → Bool} (hc : p c = false) :
    (s ++ c :: more).takeWhile p = s.takeWhile p := by
  induction s with
  | nil => simp [hc]
  | cons d s ih => cases hd : p d <;> simp [hd, ih]

theorem dropWhile_append_cons {p : Char → Bool} (hc : p c = false) :
    (s ++ c :: more).dropWhile p = s.dropWhile p ++ c :: more := by
  induction s with
  | nil => simp [hc]
  | cons d s ih => cases hd : p d <;> simp [hd, ih]

theorem dropBlanks_append (hc : isBlank c = false) :
    dropBlanks (s ++ c :: more) = dropBlanks s ++ c :: more :=
  dropWhile_append_cons hc

theorem afterChar?_append {d : Char} (hd : c ≠ d) :
    afterChar? d (s ++ c :: more) = (afterChar? d s).map (· ++ c :: more) := by
  cases s with
  | nil => simp [afterChar?, hd]
  | cons a s =>
    simp only [List.cons_append, afterChar?]
    split <;> rfl

theorem after?_append {word : List Char} (hword : c ∉ word) :
    after? word (s ++ c :: more) = (after? word s).map (· ++ c :: more) := by
  induction word generalizing s with
  | nil => rfl
  | cons w word ih =>
    obtain ⟨hw, hword⟩ := List.ne_and_not_mem_of_not_mem_cons hword
    cases s with
    | nil => simp [after?, hw]
    | cons a s =>
      simp only [List.cons_append, after?]
      split
      · exact ih hword
      · rfl

theorem afterIgnoringCase?_append {word : List Char} (hword : ∀ w ∈ word, c.toLower ≠ w.toLower) :
    afterIgnoringCase? word (s ++ c :: more) =
      (afterIgnoringCase? word s).map (· ++ c :: more) := by
  induction word generalizing s with
  | nil => rfl
  | cons w word ih =>
    obtain ⟨hw, hword⟩ := List.forall_mem_cons.1 hword
    cases s with
    | nil => simp [afterIgnoringCase?, hw]
    | cons a s =>
      simp only [List.cons_append, afterIgnoringCase?]
      split
      · exact ih hword
      · rfl

end Text

open Text

/-! ### Names -/

section Names

variable {c : Char} {s more : List Char}

theorem lookupName_append {p : Char → Bool} (hc : p c = false) (table : List (String × Nat)) :
    lookupName p table (s ++ c :: more) =
      (lookupName p table s).map (followedBy (c :: more)) := by
  unfold lookupName
  rw [takeWhile_append_cons hc, dropWhile_append_cons hc, Option.map_map]
  rfl

theorem lookupAnyCase_append (hc : isCloser c = true) (table : List (String × Nat)) :
    lookupAnyCase table (s ++ c :: more) =
      (lookupAnyCase table s).map (followedBy (c :: more)) := by
  have hword := isWordChar_of_isCloser hc
  unfold lookupAnyCase
  rw [takeWhile_append_cons hword, dropWhile_append_cons hword, Option.map_map]
  rfl

theorem Register.lookup_append (hc : isCloser c = true) (bank : Bank) (reduced : Bool) :
    lookup bank reduced (s ++ c :: more) =
      (lookup bank reduced s).map (followedBy (c :: more)) := by
  unfold lookup
  rw [lookupAnyCase_append hc, Option.filter_map]
  rfl

end Names

/-! ### Expressions -/

namespace Evaluator

variable {c : Char} {s more : List Char}

theorem isSign_of_isCloser (hc : isCloser c = true) : isSign c = false := by
  rcases Bool.or_eq_true_iff.1 hc with h | h <;> rw [eq_of_beq h] <;> rfl

theorem signs_append (hc : isCloser c = true) (negative : Bool) :
    signs negative (s ++ c :: more) = followedBy (c :: more) (signs negative s) := by
  induction s generalizing negative with
  | nil =>
    have hsign := isSign_of_isCloser hc
    simp only [isSign, Bool.or_eq_false_iff] at hsign
    simp [signs, followedBy, hsign]
  | cons d s ih =>
    simp only [List.cons_append, signs]
    split
    · exact ih _
    · split
      · exact ih _
      · rfl

/-- A literal announces its radix within three characters. -/
theorem exists_radix (a b d : Char) :
    ∃ n k, ∀ s, radix (a :: b :: d :: s) = (n, [a, b, d].drop k ++ s) := by
  by_cases hx : a = '0' ∧ (b = 'x' ∨ b = 'X')
  · exact ⟨16, 2, fun s => by obtain ⟨rfl, rfl | rfl⟩ := hx <;> rfl⟩
  by_cases ho : a = '0' ∧ (b = 'o' ∨ b = 'O')
  · exact ⟨8, 2, fun s => by obtain ⟨rfl, rfl | rfl⟩ := ho <;> rfl⟩
  by_cases hb : (a = '0' ∧ (b = 'b' ∨ b = 'B')) ∧ (d = '0' ∨ d = '1')
  · exact ⟨2, 2, fun s => by obtain ⟨⟨rfl, rfl | rfl⟩, hd⟩ := hb <;> exact if_pos hd⟩
  · refine ⟨10, 0, fun s => ?_⟩
    unfold radix
    split <;> simp_all

theorem radix_append (hc : isCloser c = true) :
    radix (s ++ c :: more) = followedBy (c :: more) (radix s) := by
  match s with
  | [] => rcases Bool.or_eq_true_iff.1 hc with h | h <;> rw [eq_of_beq h] <;> rfl
  | [a] =>
    have hword := isWordChar_of_isCloser hc
    simp only [Text.isWordChar, Char.isAlphanum, Bool.or_eq_false_iff] at hword
    rw [Literal.radix_of_second, Literal.radix_of_second]
    · rfl
    · rintro _ _ _ ⟨⟩
    · rintro _ _ _ ⟨⟩
      exact hword.1.1
  | [a, b] =>
    have hbinary : ¬ (c = '0' ∨ c = '1') := by
      rintro (rfl | rfl) <;> cases hc
    simp only [List.cons_append, List.nil_append, radix]
    split <;> simp_all [followedBy]
  | a :: b :: d :: s =>
    obtain ⟨n, k, hradix⟩ := exists_radix a b d
    simp [hradix, followedBy]

theorem literal?_append (hc : isCloser c = true) :
    literal? (s ++ c :: more) = (literal? s).map (followedBy (c :: more)) := by
  have hword := isWordChar_of_isCloser hc
  unfold literal?
  rw [radix_append hc]
  simp only [followedBy]
  rw [takeWhile_append_cons hword, dropWhile_append_cons hword, Option.map_map]
  rfl

theorem term?_append (hc : isCloser c = true) :
    term? (s ++ c :: more) =
      (term? s).map fun (negative, t, rest) => (negative, t, rest ++ c :: more) := by
  have hsymbol := isSymbolChar_of_isCloser hc
  unfold term?
  rw [signs_append hc]
  obtain ⟨negative, after⟩ := signs false s
  cases after with
  | nil =>
    obtain ⟨hstart, hdigit⟩ := Bool.or_eq_false_iff.1 hsymbol
    simp [followedBy, hstart, hdigit]
  | cons d after =>
    simp only [followedBy, List.cons_append]
    rw [← List.cons_append]
    split
    · rw [literal?_append hc, Option.map_map, Option.map_map]
      rfl
    · split
      · rw [takeWhile_append_cons hsymbol, dropWhile_append_cons hsymbol]
        rfl
      · rfl

theorem moreTerms_append {s : List Char} (hc : isCloser c = true) (sum : Sum) :
    moreTerms sum (s ++ c :: more) = (moreTerms sum s).map (followedBy (c :: more)) := by
  have hdrop : dropBlanks (s ++ c :: more) = dropBlanks s ++ c :: more :=
    dropBlanks_append (isBlank_of_isCloser hc)
  have hsign := isSign_of_isCloser hc
  simp only [isSign, Bool.or_eq_false_iff, beq_eq_false_iff_ne] at hsign
  cases hs : dropBlanks s with
  | nil =>
    rw [hs] at hdrop
    rw [moreTerms_of_end, moreTerms_of_end]
    · rfl
    · simp [hs]
    · rw [hdrop]
      rintro d hd
      cases hd
      exact ⟨hsign.1.2, hsign.2⟩
  | cons d after =>
    rw [hs, List.cons_append] at hdrop
    by_cases hd : d = '+' ∨ d = '-'
    · rw [moreTerms_of_sign hd hs, moreTerms_of_sign hd hdrop, term?_append hc]
      cases hterm : term? after with
      | none => rfl
      | some found =>
        obtain ⟨inner, t, rest⟩ := found
        simp only [Option.map_some, Option.bind_some]
        cases sum.add? ((d == '-') != inner) t with
        | none => rfl
        | some sum' =>
          -- What is left after a sign and a term is shorter.
          have hshorter : rest.length < s.length :=
            calc rest.length
              _ < after.length := length_of_term? hterm
              _ ≤ (d :: after).length := Nat.le_succ _
              _ = (dropBlanks s).length := by rw [hs]
              _ ≤ s.length := length_dropBlanks_le s
          exact moreTerms_append hc sum'
    · rw [not_or] at hd
      rw [moreTerms_of_end, moreTerms_of_end]
      · rfl
      · rw [hs]
        rintro e he
        cases he
        exact hd
      · rw [hdrop]
        rintro e he
        cases he
        exact hd
termination_by s.length

/-- **Expressions end at a comma and at a closing parenthesis**, whatever stands after it. -/
theorem basic_append (hc : isCloser c = true) :
    basic (s ++ c :: more) = (basic s).map (followedBy (c :: more)) := by
  unfold basic
  rw [term?_append hc]
  cases term? s with
  | none => rfl
  | some found =>
    obtain ⟨negative, t, rest⟩ := found
    simp only [Option.map_some, Option.bind_eq_bind, Option.bind_some]
    cases Sum.empty.add? negative t with
    | none => rfl
    | some sum =>
      simp only [Option.bind_some, moreTerms_append hc]
      cases moreTerms sum rest with
      | none => rfl
      | some found =>
        obtain ⟨sum', rest'⟩ := found
        cases h : sum'.toExpr? <;> simp [followedBy, h]

end Evaluator

theorem Context.expression_append {ctx : Context} (hev : ctx.evaluator = Evaluator.basic) {c : Char}
    {s more : List Char} (hc : isCloser c = true) :
    ctx.expression (s ++ c :: more) = (ctx.expression s).map (followedBy (c :: more)) := by
  unfold expression
  rw [hev, Evaluator.basic_append hc, Option.map_map, Option.map_map]
  rfl

/-! ### Operands -/

/-- No modifier is spelt with a comma. -/
def Modifiers.isPlain (ms : Modifiers) : Bool :=
  ms.all fun (name, _) => name.toList.all fun c => c.toLower != ','

theorem Modifiers.find?_append {ms : Modifiers} (hms : ms.isPlain = true) {s more : List Char} :
    ms.find? (s ++ ',' :: more) = (ms.find? s).map (followedBy (',' :: more)) := by
  induction ms with
  | nil => rfl
  | cons m ms ih =>
    obtain ⟨name, kind⟩ := m
    obtain ⟨hname, hms⟩ := Bool.and_eq_true_iff.1 hms
    have hword : ∀ w ∈ name.toList, Char.toLower ',' ≠ w.toLower := by
      intro w hw
      exact (bne_iff_ne.1 (List.all_eq_true.1 hname w hw)).symm
    specialize ih hms
    unfold find? at ih ⊢
    rw [List.findSome?_cons, List.findSome?_cons]
    dsimp only
    rw [afterIgnoringCase?_append hword]
    cases afterIgnoringCase? name.toList s with
    | none => exact ih
    | some after =>
      cases after with
      | nil => exact ih
      | cons d after =>
        simp only [Option.map_some, List.cons_append]
        by_cases hd : d = '(' ∨ isBlank d = true
        · rw [if_pos hd, if_pos hd]
          rfl
        · rw [if_neg hd, if_neg hd]
          exact ih

namespace Reading

variable {ctx : Context} (hev : ctx.evaluator = Evaluator.basic) {mnemonic what : String}
  {limit : Int64} {kind : RelocType} {s more : List Char}

theorem number_followedBy {found found' : Option (Nat × List Char)}
    (h : found' = found.map (followedBy more)) :
    number found' = (number found).map (followedBy more) := by
  rw [h]
  cases found <;> rfl

theorem sameRegister_append {expected : Nat} :
    sameRegister ctx expected (s ++ ',' :: more) =
      (sameRegister ctx expected s).map (followedBy (',' :: more)) := by
  unfold sameRegister Context.register
  rw [Register.lookup_append rfl]
  cases Register.lookup .integer ctx.reduced s with
  | none => rfl
  | some found =>
    simp only [Option.map_some, fit, bind, Except.bind, followedBy]
    split <;> rfl

include hev

theorem upTo_append :
    upTo ctx mnemonic what limit (s ++ ',' :: more) =
      (upTo ctx mnemonic what limit s).map (followedBy (',' :: more)) := by
  unfold upTo
  rw [Context.expression_append hev rfl]
  rcases ctx.expression s with _ | ⟨e, rest⟩
  · rfl
  · cases e with
    | constant v =>
      simp only [Option.map_some, followedBy]
      split <;> rfl
    | symbol name addend => rfl
    | register name => rfl

theorem ranged_append :
    ranged ctx mnemonic what limit (s ++ ',' :: more) =
      (ranged ctx mnemonic what limit s).map (followedBy (',' :: more)) := by
  unfold ranged
  rw [upTo_append hev]
  cases upTo ctx mnemonic what limit s <;> rfl

theorem constantWith_append {allowed : Int64 → Bool} :
    constantWith ctx allowed (s ++ ',' :: more) =
      (constantWith ctx allowed s).map (followedBy (',' :: more)) := by
  unfold constantWith
  rw [Context.expression_append hev rfl]
  rcases ctx.expression s with _ | ⟨e, rest⟩
  · rfl
  · cases e with
    | constant v =>
      simp only [Option.map_some, followedBy]
      split <;> rfl
    | symbol name addend => rfl
    | register name => rfl

theorem symbol_append :
    symbol ctx kind (s ++ ',' :: more) =
      (symbol ctx kind s).map (followedBy (',' :: more)) := by
  unfold symbol
  rw [Context.expression_append hev rfl]
  rcases ctx.expression s with _ | ⟨e, rest⟩
  · rfl
  · cases e <;> rfl

theorem constant_append :
    constant ctx (s ++ ',' :: more) = (constant ctx s).map (followedBy (',' :: more)) := by
  unfold constant
  rw [Context.expression_append hev rfl]
  rcases ctx.expression s with _ | ⟨e, rest⟩
  · rfl
  · cases e <;> rfl

theorem address_append :
    address ctx (s ++ ',' :: more) = (address ctx s).map (followedBy (',' :: more)) := by
  unfold address
  rw [Context.expression_append hev rfl]
  rcases ctx.expression s with _ | ⟨e, rest⟩
  · rfl
  · cases e <;> rfl

theorem call_append :
    call ctx (s ++ ',' :: more) = (call ctx s).map (followedBy (',' :: more)) := by
  unfold call
  rw [Context.expression_append hev rfl]
  rcases ctx.expression s with _ | ⟨e, rest⟩
  · rfl
  · cases e with
    | symbol name addend =>
      simp only [Option.map_some, followedBy]
      rw [after?_append (by decide)]
      cases after? "@plt".toList rest <;> rfl
    | constant v => rfl
    | register name => rfl

theorem csr_append :
    csr ctx mnemonic (s ++ ',' :: more) =
      (csr ctx mnemonic s).map (followedBy (',' :: more)) := by
  unfold csr Csr.lookup
  rw [lookupAnyCase_append rfl, Context.expression_append hev rfl, ranged_append hev]
  cases lookupAnyCase Csr.names s with
  | some found => rfl
  | none =>
    rcases ctx.expression s with _ | ⟨e, rest⟩
    · rfl
    · cases e <;> rfl

theorem opcode_append :
    opcode ctx mnemonic (s ++ ',' :: more) =
      (opcode ctx mnemonic s).map (followedBy (',' :: more)) := by
  unfold opcode majorOpcode?
  rw [lookupName_append rfl, upTo_append hev]
  cases lookupName isWordChar majorOpcodes s with
  | some found => rfl
  | none =>
    cases upTo ctx mnemonic Operand.opcode.description 127 s with
    | error refusal => rfl
    | ok found =>
      obtain ⟨v, rest⟩ := found
      simp only [Option.map_none, Except.map, bind, Except.bind, followedBy]
      split <;> rfl

theorem modified_append {ms : Modifiers} (hms : ms.isPlain = true) :
    modified ctx ms (s ++ ',' :: more) =
      (modified ctx ms s).map fun (kind, found) => (kind, followedBy (',' :: more) found) := by
  have hhead : (s ++ ',' :: more).head? = some '%' ↔ s.head? = some '%' := by
    cases s with
    | nil => simp
    | cons d s => rfl
  unfold modified
  simp only [hhead, Modifiers.find?_append hms]
  split
  · rcases ms.find? s with _ | ⟨kind, rest⟩
    · rfl
    simp only [Option.map_some, fit, bind, Except.bind, followedBy]
    rw [dropBlanks_append rfl, afterChar?_append (by decide)]
    rcases afterChar? '(' (dropBlanks rest) with _ | rest
    · rfl
    simp only [Option.map_some]
    rw [Context.expression_append hev rfl]
    rcases ctx.expression rest with _ | ⟨e, rest⟩
    · rfl
    simp only [Option.map_some, followedBy]
    rw [dropBlanks_append rfl, afterChar?_append (by decide)]
    cases afterChar? ')' (dropBlanks rest) <;> rfl
  · rw [Context.expression_append hev rfl]
    cases ctx.expression s <;> rfl

theorem imm12_append {i : Imm12} :
    imm12 ctx i (s ++ ',' :: more) = (imm12 ctx i s).map (followedBy (',' :: more)) := by
  unfold imm12
  rw [modified_append hev (by cases i <;> decide)]
  rcases modified ctx (Modifiers.low i) s with _ | ⟨kind, e, rest⟩
  · rfl
  cases kind with
  | some kind => cases h : relocated kind e <;> simp [bind, Except.bind, Except.map, followedBy, h]
  | none =>
    cases e with
    | constant v =>
      simp only [bind, Except.bind, Except.map, followedBy]
      split <;> rfl
    | symbol name addend => rfl
    | register name => rfl

theorem tprelAdd_append :
    tprelAdd ctx (s ++ ',' :: more) = (tprelAdd ctx s).map (followedBy (',' :: more)) := by
  unfold tprelAdd
  rw [modified_append hev (by decide)]
  rcases modified ctx Modifiers.add s with _ | ⟨kind, e, rest⟩
  · rfl
  cases kind with
  | some kind => cases h : relocated kind e <;> simp [bind, Except.bind, Except.map, followedBy, h]
  | none => rfl

theorem upper_append :
    upper ctx (s ++ ',' :: more) = (upper ctx s).map (followedBy (',' :: more)) := by
  unfold upper
  rw [modified_append hev (by decide)]
  rcases modified ctx Modifiers.upper s with _ | ⟨kind, e, rest⟩
  · rfl
  cases kind with
  | some kind => cases h : relocated kind e <;> simp [bind, Except.bind, Except.map, followedBy, h]
  | none =>
    cases e with
    | constant v =>
      simp only [bind, Except.bind, Except.map, followedBy]
      split <;> rfl
    | symbol name addend => rfl
    | register name => rfl

end Reading

namespace Operand

variable {ctx : Context} {op : Operand} {s : List Char}

/-- A parenthesis after the comma means that the offset is not left out. -/
theorem baseFollows_append {more : List Char} (hmore : '(' ∈ more) :
    Reading.baseFollows (s ++ ',' :: more) = false := by
  unfold Reading.baseFollows
  split
  · rename_i rest heq
    cases s with
    | nil => cases heq
    | cons d s =>
      cases heq
      simp [hmore]
  · rfl

/-- It is enough that an operand ends at the comma where it is not left out. -/
theorem exists_of_append {mnemonic : String} {word : Word} {f : List Char → Reading.Result}
    (hread : ∀ s, Reading.baseFollows s = false → op.read ctx mnemonic word s = f s)
    (hf : ∀ more, f (s ++ ',' :: more) = (f s).map (followedBy (',' :: more))) :
    ∃ outcome : Reading.Result, ∀ more, '(' ∈ more →
      op.read ctx mnemonic word (s ++ ',' :: more) = outcome.map (followedBy (',' :: more)) :=
  ⟨f s, fun more hmore => by rw [hread _ (baseFollows_append hmore), hf]⟩

/-- **No operand looks past a comma**, but for the comma itself: what an operand makes of a text is
settled before the comma, as soon as a parenthesis stands somewhere after it. -/
theorem exists_read_append (hev : ctx.evaluator = Evaluator.basic) (mnemonic : String)
    (word : Word) (hop : op = .mark .comma → s ≠ []) :
    ∃ outcome : Reading.Result, ∀ more, '(' ∈ more →
      op.read ctx mnemonic word (s ++ ',' :: more) = outcome.map (followedBy (',' :: more)) := by
  refine exists_of_append (fun s h => if_neg (by simp [h])) fun more => ?_
  have hregister (bank : Bank) : ctx.register bank (s ++ ',' :: more) =
      (ctx.register bank s).map (followedBy (',' :: more)) :=
    Register.lookup_append rfl bank ctx.reduced
  cases op with
  | mark m =>
    cases s with
    | nil =>
      cases m with
      | comma => exact absurd rfl (hop rfl)
      | leftParen | rightParen => rfl
    | cons d s =>
      simp only [List.cons_append, afterChar?]
      split <;> rfl
  | register bank slot => exact Reading.number_followedBy (hregister bank)
  | bothSources => exact Reading.number_followedBy (hregister .float)
  | shortRegister bank slot =>
    refine Reading.number_followedBy ?_
    rw [hregister, Option.filter_map]
    rfl
  | repeated slot | fixed r => exact Reading.sameRegister_append
  | ranged r => exact Reading.ranged_append hev
  | csr => exact Reading.csr_append hev
  | keyword k => cases k <;> exact Reading.number_followedBy (lookupName_append rfl _)
  | imm12 i => exact Reading.imm12_append hev
  | tprelAdd => exact Reading.tprelAdd_append hev
  | zeroOffset | zero | compressedImm i => exact Reading.constantWith_append hev
  | upper => exact Reading.upper_append hev
  | target k => exact Reading.symbol_append hev
  | symbol => exact Reading.symbol_append hev
  | call => exact Reading.call_append hev
  | constant => exact Reading.constant_append hev
  | address => exact Reading.address_append hev
  | opcode => exact Reading.opcode_append hev

end Operand

end RiscvAssembler
