import RiscvAssembler.Encoding.Basic
import RiscvAssembler.Proofs.Expr.Evaluator

/-!
What operands start with. Every name starts with a letter (`startWithLetter`), so an operand refuses
a text that starts with anything else, unless an expression, a modifier or a mark of its own stands
there (`Operand.read_of_stranger`).
-/

namespace RiscvAssembler

open Text

/-! ### Names start with a letter -/

/-- Whether every name of a table starts with a letter. -/
def startWithLetter (table : List (String × Nat)) : Bool :=
  table.all fun (name, _) => name.toList.head?.any Char.isAlpha

section Names

variable {table : List (String × Nat)} {c : Char} {s : List Char}

theorem lookup_eq_none (h : startWithLetter table = true) {name : List Char}
    (hname : name.head?.any Char.isAlpha = false) : table.lookup (String.ofList name) = none := by
  rw [← Option.not_isSome_iff_eq_none]
  intro hsome
  obtain ⟨n, hn⟩ := Option.isSome_iff_exists.1 hsome
  have hletter := List.all_eq_true.1 h _ (mem_of_lookup hn)
  dsimp only at hletter
  rw [String.toList_ofList, hname] at hletter
  cases hletter

theorem lookupName_eq_none (h : startWithLetter table = true) (hc : c.isAlpha = false)
    (p : Char → Bool) : lookupName p table (c :: s) = none := by
  unfold lookupName
  rw [lookup_eq_none h, Option.map_none]
  cases hp : p c <;> simp [hp, hc]

theorem lookupAnyCase_eq_none (h : startWithLetter table = true) (hc : c.toLower.isAlpha = false) :
    lookupAnyCase table (c :: s) = none := by
  unfold lookupAnyCase
  rw [lookup_eq_none h, Option.map_none]
  cases hp : isWordChar c <;> simp [hp, hc]

end Names

theorem Register.startWithLetter_names (bank : Bank) : startWithLetter (names bank) = true := by
  rw [startWithLetter, List.all_eq_true]
  intro p hp
  have hlower := Evaluator.isLower_of_mem_names bank p hp
  cases hhead : p.1.toList.head? with
  | none => simp [hhead] at hlower
  | some c =>
    have hc : c.isLower = true := by simpa [hhead] using hlower
    have halpha : c.isAlpha = true := Bool.or_eq_true_iff.2 (.inr hc)
    simp [hhead, halpha]

theorem Csr.startWithLetter_family {stem : String} (h : stem.toList.head?.any Char.isAlpha = true)
    (ending : String) (start : Nat) (numbers : List Nat) :
    startWithLetter (family stem ending start numbers) = true := by
  cases hstem : stem.toList.head? with
  | none => simp [hstem] at h
  | some c => simpa [startWithLetter, family, hstem] using fun _ _ => by simpa [hstem] using h

theorem Csr.startWithLetter_names : startWithLetter names = true := by
  have hlisted : startWithLetter listed = true := by decide
  have hfamily := @startWithLetter_family
  unfold startWithLetter at hlisted hfamily ⊢
  simp only [names, List.all_append, hlisted, Bool.true_and, Bool.and_eq_true]
  refine ⟨⟨⟨⟨⟨?_, ?_⟩, ?_⟩, ?_⟩, ?_⟩, ?_⟩ <;> exact hfamily (by decide) _ _ _

theorem Context.register_eq_none {ctx : Context} {c : Char} (hc : c.toLower.isAlpha = false)
    (bank : Bank) (s : List Char) : ctx.register bank (c :: s) = none := by
  unfold register Register.lookup
  rw [lookupAnyCase_eq_none (Register.startWithLetter_names bank) hc, Option.filter_none]

/-! ### Operands -/

namespace Operand

/-- Whether an operand is a mark or a name, and no expression. -/
def isName : Operand → Bool
  | .mark _ | .register .. | .bothSources | .shortRegister .. | .repeated _ | .fixed _
  | .keyword _ => true
  | _ => false

/-- Whether an operand has a use for a character that starts neither a name nor an expression. -/
def startsWith (c : Char) : Operand → Bool
  | .mark m => m.char == c
  | .imm12 _ | .tprelAdd | .upper => c == '%'
  | _ => false

variable {ctx : Context} {op : Operand} {c : Char} {s : List Char} (mnemonic : String) (word : Word)

theorem mayBeOmitted_of_isName (h : op.isName = true) : op.mayBeOmitted = false := by
  cases op with
  | mark | register | bothSources | shortRegister | repeated | fixed | keyword => rfl
  | _ => cases h

theorem read_of_isName (h : op.isName = true)
    (hc : c.isAlpha = false ∧ c.toLower.isAlpha = false) (hop : op.startsWith c = false) :
    op.read ctx mnemonic word (c :: s) = .error .differs := by
  have hregister (bank : Bank) : ctx.register bank (c :: s) = none :=
    Context.register_eq_none hc.2 bank s
  have hkeyword (table : List (String × Nat)) (h : startWithLetter table = true) :
      lookupName isKeywordChar table (c :: s) = none := lookupName_eq_none h hc.1 _
  cases op with
  | mark m =>
    have hmark : ¬ c = m.char := fun heq => beq_eq_false_iff_ne.1 hop heq.symm
    simp only [read, afterChar?, if_neg hmark]
    rfl
  | register bank slot =>
    simp only [read, hregister]
    rfl
  | bothSources =>
    simp only [read, hregister]
    rfl
  | shortRegister bank slot =>
    simp only [read, hregister]
    rfl
  | repeated slot | fixed r =>
    simp only [read, Reading.sameRegister, hregister]
    rfl
  | keyword k =>
    cases k with
    | rounding =>
      simp only [read, roundingMode?, hkeyword roundingModes (by decide)]
      rfl
    | predecessor | successor =>
      simp only [read, fenceSet?, hkeyword fenceSets (by decide)]
      rfl
  | _ => cases h

/-- **Operands refuse what they have no use for.** -/
theorem read_of_stranger (hc : c.isAlpha = false ∧ c.toLower.isAlpha = false)
    (hexpression : ctx.expression (c :: s) = none) (hop : op.startsWith c = false)
    (homitted : ¬ (op.mayBeOmitted = true ∧ Reading.baseFollows (c :: s) = true)) :
    op.read ctx mnemonic word (c :: s) = .error .differs := by
  by_cases hname : op.isName = true
  · exact read_of_isName mnemonic word hname hc hop
  have hmodified (ms : Modifiers) (h : (c == '%') = false) :
      Reading.modified ctx ms (c :: s) = .error .differs := by
    unfold Reading.modified
    rw [if_neg (by simpa using h), hexpression]
    rfl
  unfold read
  rw [if_neg homitted]
  cases op with
  | mark | register | bothSources | shortRegister | repeated | fixed | keyword =>
    exact absurd rfl hname
  | ranged r =>
    simp only [Reading.ranged, Reading.upTo, hexpression]
    rfl
  | csr =>
    simp only [Reading.csr, Csr.lookup, Reading.ranged, Reading.upTo, hexpression]
    rw [lookupAnyCase_eq_none Csr.startWithLetter_names hc.2]
    rfl
  | imm12 i =>
    simp only [Reading.imm12, hmodified _ hop]
    rfl
  | tprelAdd =>
    simp only [Reading.tprelAdd, hmodified _ hop]
    rfl
  | upper =>
    simp only [Reading.upper, hmodified _ hop]
    rfl
  | zeroOffset | zero | compressedImm i => simp only [Reading.constantWith, hexpression]
  | target k => simp only [Reading.symbol, hexpression]
  | symbol => simp only [Reading.symbol, hexpression]
  | call => simp only [Reading.call, hexpression]
  | constant => simp only [Reading.constant, hexpression]
  | address => simp only [Reading.address, hexpression]
  | opcode =>
    simp only [Reading.opcode, majorOpcode?, Reading.upTo, hexpression]
    rw [lookupName_eq_none (by decide) hc.1]
    rfl

end Operand

end RiscvAssembler
