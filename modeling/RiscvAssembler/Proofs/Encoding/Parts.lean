import RiscvAssembler.Proofs.Encoding.Front
import RiscvAssembler.Proofs.Encoding.Locality
import RiscvAssembler.Proofs.Encoding.RoundTrip
import RiscvAssembler.Proofs.Pseudo.Steps
import RiscvAssembler.Proofs.Word.Range

/-!
The two parts of a constant. Rounding the upper part makes up for the sign of the low part, so the
immediates that `%hi` and `%lo` leave in their words add up to the constant in 32 bits
(`Immediate.extract_parts_modEq`). Templates without modifiers refuse a text with one
(`readOperands_of_balks`), so the search ends at the instruction whose immediate has room for the
part (`encode_of_find?`). Main statement: `parts_recombine`.
-/

namespace RiscvAssembler

open Text
open Expansion (upperOperands sumOperands storeOperands)

/-! ### Values -/

namespace Immediate

/-- The upper immediate of a constant is that of the constant rounded up at its twelfth bit. -/
theorem encode_highPart (v : Int64) : u.encode (RelocType.highPart v) = u.encode (v + 0x800) := by
  have hgapless : u.Gapless := by decide
  have hcarried : ~~~0xfff &&& u.carried = u.carried := by decide
  rw [← hgapless.encode_and_carried, ← hgapless.encode_and_carried (v + 0x800)]
  simp only [RelocType.highPart, Int64.toBitVec_ofBitVec, BitVec.and_assoc, hcarried]
  rfl

theorem range_low (v : Int64) :
    -2048 ≤ (i.extract (i.encode v)).toInt ∧ (i.extract (i.encode v)).toInt ≤ 2047 := by
  have hgapless : i.Gapless := by decide
  obtain ⟨-, hrange⟩ := hgapless.holds_extract (i.encode v)
  rw [if_pos (by decide), show i.width = 12 by decide] at hrange
  omega

/-- Stores keep the low part of a constant in two runs, and arithmetic in one. -/
theorem extract_encode_s (v : Int64) : s.extract (s.encode v) = i.extract (i.encode v) := by
  rw [extract_encode_of_full (l := s) (by decide) rfl (by decide),
    extract_encode_of_full (l := i) (by decide) rfl (by decide)]
  rfl

/-- **The parts of a constant add up to it** in 32 bits. -/
theorem extract_parts_modEq (v : Int64) :
    (u.extract (u.encode (RelocType.highPart v))).toInt + (i.extract (i.encode v)).toInt ≡ v.toInt
      [ZMOD 2 ^ 32] := by
  have hupper : u.Gapless := by decide
  have hlow : i.Gapless := by decide
  have hrounded : (v + 0x800).toInt ≡ v.toInt + 0x800 [ZMOD 2 ^ 64] := by
    rw [Int64.toInt_add]
    exact Int.bmod_emod
  have hhigh := hupper.extract_encode_modEq (v + 0x800)
  rw [← encode_highPart, show u.width = 32 by decide, show u.low = 12 by decide] at hhigh
  have hmod := hlow.extract_encode_modEq v
  rw [show i.width = 12 by decide, show i.low = 0 by decide] at hmod
  have hrange := range_low v
  generalize (u.extract (u.encode (RelocType.highPart v))).toInt = high at *
  generalize (i.extract (i.encode v)).toInt = low at *
  unfold Int.ModEq at *
  omega

/-- A field and an immediate that have no bit in common are filled in either order. -/
theorem insert_or_encode {l : Immediate} {f : Field} (h : l.mask &&& f.mask = 0) (w v : Word)
    (imm : Int64) : f.insert (w ||| l.encode imm) v = f.insert w v ||| l.encode imm := by
  have hoff : l.encode imm &&& f.mask = 0 := by
    rw [← encode_and_mask, BitVec.and_assoc, h]
    exact BitVec.and_zero
  apply BitVec.eq_of_getLsbD_eq
  intro k hk
  have hbit := congrArg (·.getLsbD k) hoff
  simp only [BitVec.getLsbD_and] at hbit
  simp only [Field.insert, BitVec.getLsbD_or, BitVec.getLsbD_and, BitVec.getLsbD_not, hk]
  grind

/-- An immediate joined to bits that are clear leaves the others as they are. -/
theorem or_encode_of_apart {l : Immediate} {w : Word} (h : w &&& l.mask = 0) (v : Int64) :
    l.extract (w ||| l.encode v) = l.extract (l.encode v) ∧
      (w ||| l.encode v) &&& ~~~l.mask = w := by
  constructor
  · rw [← extract_and_mask, or_and_of_apart h, extract_and_mask]
  · calc (w ||| l.encode v) &&& ~~~l.mask
        = (w &&& ~~~l.mask) ||| (l.encode v &&& ~~~l.mask) := BitVec.and_or_distrib_right
      _ = (w &&& l.mask) ||| (w &&& ~~~l.mask) := by
          rw [encode_and_not_mask, h, BitVec.or_comm]
      _ = w &&& (l.mask ||| ~~~l.mask) := BitVec.and_or_distrib_left.symm
      _ = w := by rw [BitVec.or_not_self, BitVec.and_allOnes]

end Immediate

/-! ### Texts -/

/-- An expression under a modifier. -/
def underModifier (modifier : String) (text : List Char) : List Char :=
  modifier.toList ++ '(' :: (text ++ [')'])

namespace Reading

variable {ctx : Context} {text rest : List Char} {e : Expr} {c : Int64}

theorem modified_underModifier (hev : ctx.evaluator = Evaluator.basic)
    (htext : ctx.expression text = some (e, [])) {modifier : String} {ms : Modifiers}
    {kind : RelocType} (hhead : modifier.toList.head? = some '%')
    (hfind : ∀ more, ms.find? (modifier.toList ++ '(' :: more) = some (kind, '(' :: more)) :
    modified ctx ms (underModifier modifier text ++ rest) = .ok (some kind, e, rest) := by
  have hassoc : underModifier modifier text ++ rest =
      modifier.toList ++ '(' :: (text ++ ')' :: rest) := by simp [underModifier]
  have hpercent : (modifier.toList ++ '(' :: (text ++ ')' :: rest)).head? = some '%' := by
    rw [List.head?_append, hhead, Option.some_or]
  unfold modified
  rw [hassoc, if_pos hpercent, hfind]
  simp only [fit, bind, Except.bind]
  rw [show dropBlanks ('(' :: (text ++ ')' :: rest)) = '(' :: (text ++ ')' :: rest) from rfl]
  simp only [afterChar?, if_true]
  rw [Context.expression_append hev rfl, htext]
  rfl

end Reading

namespace Operand

variable {ctx : Context} {text rest : List Char} {c : Int64} (mnemonic : String) (word : Word)

theorem read_upper_underModifier (hev : ctx.evaluator = Evaluator.basic)
    (htext : ctx.expression text = some (.constant c, [])) :
    Operand.upper.read ctx mnemonic word (underModifier "%hi" text ++ rest) =
      .ok (.folded .hi20 c, rest) := by
  have hmodified : Reading.modified ctx Modifiers.upper (underModifier "%hi" text ++ rest) =
      .ok (some .hi20, .constant c, rest) :=
    Reading.modified_underModifier hev htext rfl fun more => rfl
  simp only [read, Reading.upper, hmodified]
  rfl

/-- The relocation of the low part, by where the immediate stands. -/
def lowKind : Imm12 → RelocType
  | .storeOffset => .lo12S
  | _ => .lo12I

theorem read_imm12_underModifier (hev : ctx.evaluator = Evaluator.basic)
    (htext : ctx.expression text = some (.constant c, [])) (i : Imm12) :
    (Operand.imm12 i).read ctx mnemonic word (underModifier "%lo" text ++ rest) =
      .ok (.folded (lowKind i) c, rest) := by
  have hmodified : Reading.modified ctx (Modifiers.low i) (underModifier "%lo" text ++ rest) =
      .ok (some (lowKind i), .constant c, rest) :=
    Reading.modified_underModifier hev htext rfl fun more => by cases i <;> rfl
  unfold read
  rw [if_neg (fun h => Bool.false_ne_true h.2)]
  simp only [Reading.imm12, hmodified]
  cases i <;> rfl

/-- A register before a comma or a closing parenthesis. -/
theorem read_register_append {bank : Bank} {name : List Char} {n : Nat}
    (hname : ctx.register bank name = some (n, [])) (slot : RegisterSlot) {d : Char}
    (hd : isCloser d = true) :
    (Operand.register bank slot).read ctx mnemonic word (dropBlanks (name ++ d :: rest)) =
      .ok (.value (Int64.ofNat n), d :: rest) := by
  obtain ⟨a, more, rfl, hword, -⟩ := Evaluator.head_of_lookup (Option.isSome_of_mem hname)
  have hblank : isBlank a = false := by
    cases hblank : isBlank a with
    | false => rfl
    | true =>
      rcases Bool.or_eq_true_iff.1 hblank with h | h <;> rw [eq_of_beq h] at hword <;> cases hword
  have hdrop : dropBlanks ((a :: more) ++ d :: rest) = (a :: more) ++ d :: rest :=
    List.dropWhile_cons_of_neg (by simp [hblank])
  have hregister : ctx.register bank ((a :: more) ++ d :: rest) = some (n, d :: rest) := by
    rw [Context.register, Register.lookup_append hd]
    rw [Context.register] at hname
    rw [hname]
    rfl
  rw [hdrop]
  simp only [read, hregister]
  rfl

end Operand

/-! ### Templates that want no modifier -/

namespace Operand

/-- Whether an operand reads one register, of any bank and any kind. -/
def readsRegister : Operand → Bool
  | .register .. | .bothSources | .shortRegister .. | .repeated _ | .fixed _ => true
  | _ => false

variable {ctx : Context} {op : Operand} {s rest : List Char} (mnemonic : String) (word : Word)

/-- The name of a register ends in one place, whatever the bank. -/
theorem rest_of_register {bank : Bank} {n : Nat} (h : ctx.register bank s = some (n, rest)) :
    rest = s.dropWhile isWordChar := by
  obtain ⟨m, -, hm⟩ := Option.map_eq_some_iff.1 (Option.filter_eq_some_iff.1 h).1
  cases hm
  rfl

/-- Where a register stands, an operand for registers takes it or lets another template try. -/
theorem read_of_readsRegister (h : op.readsRegister = true) {bank : Bank} {n : Nat}
    (hregister : ctx.register bank s = some (n, rest)) :
    op.read ctx mnemonic word s = .error .differs ∨
      ∃ r, op.read ctx mnemonic word s = .ok (r, rest) := by
  have hnumber (found : Option (Nat × List Char))
      (hfound : ∀ m after, found = some (m, after) → after = rest) :
      Reading.number found = .error .differs ∨ ∃ r, Reading.number found = .ok (r, rest) := by
    rcases found with _ | ⟨m, after⟩
    · exact .inl rfl
    · rw [hfound m after rfl]
      exact .inr ⟨_, rfl⟩
  have hrest (b : Bank) (m : Nat) (after : List Char) (hm : ctx.register b s = some (m, after)) :
      after = rest := by
    rw [rest_of_register hm, rest_of_register hregister]
  have hsame (expected : Nat) :
      Reading.sameRegister ctx expected s = .error .differs ∨
        ∃ r, Reading.sameRegister ctx expected s = .ok (r, rest) := by
    unfold Reading.sameRegister
    cases hm : ctx.register .integer s with
    | none => exact .inl rfl
    | some found =>
      obtain ⟨m, after⟩ := found
      rw [hrest _ m after hm]
      by_cases hexpected : m = expected
      · exact .inr ⟨_, if_pos hexpected⟩
      · exact .inl (if_neg hexpected)
  cases op with
  | register b slot => exact hnumber _ (hrest b)
  | bothSources => exact hnumber _ (hrest .float)
  | shortRegister b slot =>
    exact hnumber _ fun m after hm => hrest b m after (Option.filter_eq_some_iff.1 hm).1
  | repeated slot => exact hsame _
  | fixed r => exact hsame _
  | _ => cases h

/-- A folded constant stands under a modifier. -/
theorem head_of_folded (hop : op.takesPart = true) {kind : RelocType} {v : Int64}
    (h : op.read ctx mnemonic word s = .ok (.folded kind v, rest)) : s.head? = some '%' := by
  have hhead {ms : Modifiers} {k : RelocType} {e : Expr} {after : List Char}
      (hmodified : Reading.modified ctx ms s = .ok (some k, e, after)) : s.head? = some '%' := by
    by_contra hne
    unfold Reading.modified at hmodified
    rw [if_neg hne] at hmodified
    obtain ⟨found, -, heq⟩ := bind_eq_ok_iff.1 hmodified
    cases heq
  unfold read at h
  split at h
  · cases h
  · cases op with
    | imm12 i =>
      obtain ⟨⟨modifier, e, after⟩, hmodified, h⟩ := bind_eq_ok_iff.1 h
      split at h
      · rename_i heq
        cases heq
        exact hhead hmodified
      · split at h <;> cases h
      · cases h
    | upper =>
      obtain ⟨⟨modifier, e, after⟩, hmodified, h⟩ := bind_eq_ok_iff.1 h
      split at h
      · rename_i heq
        cases heq
        exact hhead hmodified
      · split at h <;> cases h
      · cases h
    | _ => cases hop

/-- Where a constant under a modifier stands, an operand without modifiers lets another template
try. -/
theorem read_percent (hev : ctx.evaluator = Evaluator.basic) (hop : op.startsWith '%' = false)
    (hs : s.head? = some '%') : op.read ctx mnemonic word s = .error .differs := by
  cases s with
  | nil => cases hs
  | cons d s =>
    cases hs
    refine read_of_stranger mnemonic word (by decide) ?_ hop fun h => Bool.false_ne_true h.2
    unfold Context.expression
    rw [hev]
    rfl

end Operand

/-- Every operand that may stand under a modifier does, and its constant is folded. -/
def FoldsParts (ops : List Operand) (rs : List Reading) : Prop :=
  ∀ p ∈ ops.zip rs, p.1.takesPart = true → ∃ kind v, p.2 = .folded kind v

theorem FoldsParts.tail {op : Operand} {ops : List Operand} {r : Reading} {rs : List Reading}
    (h : FoldsParts (op :: ops) (r :: rs)) : FoldsParts ops rs := fun p hp =>
  h p (List.mem_cons_of_mem _ hp)

/-- Whether the operands of the second list take what those of the first one take, up to a constant
under a modifier, which they refuse. -/
def balks : List Operand → List Operand → Bool
  | .register .. :: ops, op' :: ops' => op'.readsRegister && balks ops ops'
  | .mark m :: ops, op' :: ops' => op' == .mark m && balks ops ops'
  | .imm12 _ :: _, op' :: _ | .upper :: _, op' :: _ => !op'.startsWith '%'
  | _, _ => false

section Balks

variable {ctx : Context} {mnemonic : String} {op op' : Operand} {ops ops' : List Operand}
  {s rest : List Char} {rs : List Reading}

theorem readOperands_of_takesPart (hev : ctx.evaluator = Evaluator.basic)
    (hop : op.takesPart = true) (hop' : op'.startsWith '%' = false) {d : Draft}
    (hwalks : Template.Walks ctx mnemonic d (op :: ops) s rs rest)
    (hfolds : FoldsParts (op :: ops) rs) (d' : Draft) :
    Template.readOperands ctx mnemonic d' (op' :: ops') s = .error .differs := by
  obtain ⟨r, after, rs, rfl, hread, -⟩ := hwalks
  obtain ⟨kind, v, hr⟩ := hfolds (op, r) List.mem_cons_self hop
  dsimp only at hr
  subst hr
  unfold Template.readOperands
  rw [Operand.read_percent _ _ hev hop' (Operand.head_of_folded _ _ hop hread)]
  rfl

/-- A text with a constant under a modifier is refused by templates that balk at it. -/
theorem readOperands_of_balks (hev : ctx.evaluator = Evaluator.basic) (h : balks ops ops' = true)
    {d : Draft} (hwalks : Template.Walks ctx mnemonic d ops s rs rest) (hfolds : FoldsParts ops rs)
    (d' : Draft) : Template.readOperands ctx mnemonic d' ops' s = .error .differs := by
  fun_induction balks ops ops' generalizing d d' s rs with
  | case1 bank slot ops op' ops' ih =>
    obtain ⟨hop', hops'⟩ := Bool.and_eq_true_iff.1 h
    obtain ⟨r, after, rs, rfl, hread, hwalks⟩ := hwalks
    obtain ⟨n, hregister, -⟩ := Reading.number_eq_ok_iff.1 hread
    unfold Template.readOperands
    rcases Operand.read_of_readsRegister mnemonic d'.bits hop' hregister with hdiffers | ⟨r', hr'⟩
    · rw [hdiffers]
      rfl
    · rw [hr']
      simp only [bind, Except.bind]
      rw [ih hops' hwalks hfolds.tail]
  | case2 m ops op' ops' ih =>
    obtain ⟨hop', hops'⟩ := Bool.and_eq_true_iff.1 h
    rw [eq_of_beq hop']
    obtain ⟨r, after, rs, rfl, hread, hwalks⟩ := hwalks
    have hmark : (Operand.mark m).read ctx mnemonic d'.bits (dropBlanks s) = .ok (r, after) := hread
    unfold Template.readOperands
    rw [hmark]
    simp only [bind, Except.bind]
    rw [ih hops' hwalks hfolds.tail]
  | case3 i ops op' ops' =>
    exact readOperands_of_takesPart hev rfl (by simpa using h) hwalks hfolds d'
  | case4 ops op' ops' =>
    exact readOperands_of_takesPart hev rfl (by simpa using h) hwalks hfolds d'
  | case5 => cases h

end Balks

/-! ### The search -/

/-- A search that passes templates that refuse a text ends at the first one that takes it. -/
theorem encodeFirst_of_find? {ctx : Context} {name : String} {p : Template → Bool}
    {ts : List Template} {u : Template}
    (hfind : ts.find? (fun t => t.mnemonic == name && !p t) = some u) {s : List Char}
    (hp : ∀ t, t.mnemonic = name → p t = true → t.encode ctx s = .error .differs)
    (heligible : u.eligible ctx = true) {e : Encoded} (hu : u.encode ctx s = .ok e) :
    encodeFirst ctx s (usable ctx name ts) = .ok e := by
  induction ts with
  | nil => cases hfind
  | cons t ts ih =>
    rw [List.find?_cons] at hfind
    split at hfind
    · rename_i hfound
      cases hfind
      exact encodeFirst_of_ok (eq_of_beq (Bool.and_eq_true_iff.1 hfound).1) heligible hu
    · rename_i hpassed
      rw [encodeFirst_of_refused, ih hfind]
      intro hname _
      apply hp t hname
      simpa [hname] using hpassed

namespace Template

/-- A steady template encodes a text that its operands walk over. -/
theorem encode_of_walks {ctx : Context} {t : Template} (hsteady : t.isSteady = true)
    {s rest : List Char} {rs : List Reading}
    (hwalks : Walks ctx t.mnemonic t.start t.operands s rs rest)
    (hend : (dropBlanks rest).isEmpty = true) :
    t.encode ctx s = .ok ⟨t, t.word rs, (addReadings t.start t.operands rs).imm,
      (addReadings t.start t.operands rs).reloc⟩ := by
  have haccepts : t.accepts ctx (t.word rs) = true := by
    unfold accepts
    rcases Bool.or_eq_true_iff.1 hsteady with hpseudo | hreal
    · rw [hpseudo]
      rfl
    · simp only [Bool.and_eq_true, beq_iff_eq] at hreal
      obtain ⟨⟨hguard, hapart⟩, hlength⟩ := hreal
      have hadmits : t.admits (t.word rs) = true := by
        apply admits_of_getLsbD hguard
        intro i hmask
        exact getLsbD_word hwalks (getLsbD_of_and_eq_zero hapart hmask)
      rw [hadmits, hlength]
      simp
  unfold encode
  rw [readOperands_eq_ok_iff.2 ⟨rest, hwalks, hend⟩]
  exact if_pos haccepts

end Template

/-- **A constant under a modifier is folded by the template that the search is bound to end at.** -/
theorem encode_of_find? {cs : Catalogs} (hcs : Catalogs.standard = .ok cs) {ctx : Context}
    (hev : ctx.evaluator = Evaluator.basic) {name : String} {u : Template}
    (hfind : standardTemplates.find?
      (fun t => t.mnemonic == name && !balks u.operands t.operands) = some u)
    (hsteady : u.isSteady = true) (heligible : u.eligible ctx = true) {s rest : List Char}
    {rs : List Reading} (hwalks : Template.Walks ctx name u.start u.operands s rs rest)
    (hend : (dropBlanks rest).isEmpty = true) (hfolds : FoldsParts u.operands rs) :
    cs.instructions.encode ctx name s = .ok ⟨u, u.word rs,
      (Template.addReadings u.start u.operands rs).imm,
      (Template.addReadings u.start u.operands rs).reloc⟩ := by
  have hname : u.mnemonic = name := by
    have hfound := List.find?_some hfind
    exact eq_of_beq (Bool.and_eq_true_iff.1 hfound).1
  have hfirst := encodeFirst_of_find? hfind
    (fun t ht hbalks => by
      unfold Template.encode
      rw [ht, readOperands_of_balks hev hbalks hwalks hfolds]
      rfl)
    heligible (Template.encode_of_walks hsteady (hname.symm ▸ hwalks) hend)
  have husable : usable ctx name standardTemplates ≠ [] := by
    intro hnil
    rw [hnil] at hfirst
    cases hfirst
  rw [Catalog.encode, lookup_standard hcs, encodeWith_filter, if_neg husable, hfirst]
  rfl

/-! ### Instructions -/

/-- The addition of a constant of the instruction table. -/
def addiTemplate : Template :=
  Row.asTemplate (.insn "addi" none .i "d,s,j" 0x13 0x707f .opcode)

/-- Whether a search for a constant under a modifier is bound to end at a template. -/
def isFoldTarget (ts : List Template) (u : Template) : Bool :=
  ts.find? (fun t => t.mnemonic == u.mnemonic && !balks u.operands t.operands) == some u &&
    u.isSteady

/-- The searches for an upper load, for an addition and for every store end there. -/
theorem isFoldTarget_table :
    isFoldTarget standardTemplates luiTemplate = true ∧
      isFoldTarget standardTemplates addiTemplate = true ∧
      ∀ u ∈ standardTemplates, ∀ bank, u.operands = storeOperands bank →
        isFoldTarget standardTemplates u = true ∧ u.matchBits &&& Immediate.s.mask = 0 := by
  have htable : ∀ ts, ts = instructionRows.map Row.byteTemplate →
      (isFoldTarget ts luiTemplate && isFoldTarget ts addiTemplate && ts.all fun u =>
        (u.operands != storeOperands .integer && u.operands != storeOperands .float) ||
          (isFoldTarget ts u && u.matchBits &&& Immediate.s.mask == 0)) = true := by
    rintro ts rfl
    decide +kernel
  have hchecked := htable _ standardTemplates_eq_map
  simp only [Bool.and_eq_true, List.all_eq_true] at hchecked
  obtain ⟨⟨hlui, haddi⟩, hstores⟩ := hchecked
  refine ⟨hlui, haddi, fun u hu bank hoperands => ?_⟩
  have hstore := hstores u hu
  cases bank <;> simpa [hoperands] using hstore

section Texts

variable {ctx : Context} (hev : ctx.evaluator = Evaluator.basic) {rd : List Char} {n : Nat}
  (hrd : ctx.register .integer rd = some (n, [])) {text : List Char} {c : Int64}
  (htext : ctx.expression text = some (.constant c, [])) (mnemonic : String) (d : Draft)

theorem dropBlanks_underModifier {modifier : String} (hhead : modifier.toList.head? = some '%')
    (text rest : List Char) :
    dropBlanks (' ' :: (underModifier modifier text ++ rest)) =
      underModifier modifier text ++ rest := by
  unfold underModifier
  cases hmodifier : modifier.toList with
  | nil => simp [hmodifier] at hhead
  | cons a more =>
    rw [hmodifier] at hhead
    cases hhead
    rfl

include hev hrd htext

theorem walks_upper :
    Template.Walks ctx mnemonic d upperOperands (rd ++ ", ".toList ++ underModifier "%hi" text)
      [.value (Int64.ofNat n), .nothing, .folded .hi20 c] [] := by
  have hspelt : rd ++ ", ".toList ++ underModifier "%hi" text =
      rd ++ ',' :: ' ' :: (underModifier "%hi" text ++ []) := by simp
  rw [hspelt]
  refine ⟨_, _, _, rfl, Operand.read_register_append _ _ hrd _ rfl, _, _, _, rfl, rfl,
    _, _, _, rfl, ?_, rfl, rfl⟩
  rw [dropBlanks_underModifier rfl]
  exact Operand.read_upper_underModifier _ _ hev htext

theorem walks_sum :
    Template.Walks ctx mnemonic d sumOperands
      (rd ++ ", ".toList ++ rd ++ ", ".toList ++ underModifier "%lo" text)
      [.value (Int64.ofNat n), .nothing, .value (Int64.ofNat n), .nothing, .folded .lo12I c]
      [] := by
  have hspelt : rd ++ ", ".toList ++ rd ++ ", ".toList ++ underModifier "%lo" text =
      rd ++ ',' :: ' ' :: (rd ++ ',' :: ' ' :: (underModifier "%lo" text ++ [])) := by simp
  rw [hspelt]
  refine ⟨_, _, _, rfl, Operand.read_register_append _ _ hrd _ rfl, _, _, _, rfl, rfl,
    _, _, _, rfl, Operand.read_register_append _ _ hrd _ rfl, _, _, _, rfl, rfl,
    _, _, _, rfl, ?_, rfl, rfl⟩
  rw [dropBlanks_underModifier rfl]
  exact Operand.read_imm12_underModifier _ _ hev htext .arithmetic

theorem walks_store {bank : Bank} {rs : List Char} {r : Nat}
    (hrs : ctx.register bank rs = some (r, [])) :
    Template.Walks ctx mnemonic d (storeOperands bank)
      (rs ++ ", ".toList ++ underModifier "%lo" text ++ "(".toList ++ rd ++ ")".toList)
      [.value (Int64.ofNat r), .nothing, .folded .lo12S c, .nothing, .value (Int64.ofNat n),
        .nothing] [] := by
  have hspelt : rs ++ ", ".toList ++ underModifier "%lo" text ++ "(".toList ++ rd ++ ")".toList =
      rs ++ ',' :: ' ' :: (underModifier "%lo" text ++ '(' :: (rd ++ [')'])) := by simp
  rw [hspelt]
  refine ⟨_, _, _, rfl, Operand.read_register_append _ _ hrs _ rfl, _, _, _, rfl, rfl,
    _, '(' :: (rd ++ [')']), _, rfl, ?_, _, _, _, rfl, rfl,
    _, [')'], _, rfl, Operand.read_register_append _ _ hrd _ rfl, _, _, _, rfl, rfl, rfl, rfl⟩
  rw [dropBlanks_underModifier rfl]
  exact Operand.read_imm12_underModifier _ _ hev htext .storeOffset

end Texts

/-- A constant was folded into an immediate: the other bits of the word are `others`, and nothing is
left for a relocation. -/
structure Encoded.Folded (e : Encoded) (l : Immediate) (others : Word) : Prop where
  outside : e.bits &&& ~~~l.mask = others
  imm : e.imm = none
  reloc : e.reloc = none

theorem Template.eligible_of_base {ctx : Context} {t : Template} (hbase : ctx.isa.has "i" = true)
    (ht : (t.width.isNone && t.needs == .i && !t.isCompressed) = true) : t.eligible ctx = true := by
  simp only [Bool.and_eq_true, Option.isNone_iff_eq_none, beq_iff_eq, Bool.not_eq_true'] at ht
  obtain ⟨⟨hwidth, hneeds⟩, hwide⟩ := ht
  simp [eligible, hwidth, hneeds, hwide, InstructionClass.isPartOf, hbase]

section Encodings

variable {cs : Catalogs} (hcs : Catalogs.standard = .ok cs) {ctx : Context}
  (hev : ctx.evaluator = Evaluator.basic) {rd : List Char} {n : Nat}
  (hrd : ctx.register .integer rd = some (n, [])) {text : List Char} {c : Int64}
  (htext : ctx.expression text = some (.constant c, []))

include hcs hev hrd htext

theorem exists_upper (hbase : ctx.isa.has "i" = true) :
    ∃ e, cs.instructions.encode ctx "lui" (rd ++ ", ".toList ++ underModifier "%hi" text) = .ok e ∧
      Immediate.u.extract e.bits = Immediate.u.extract (Immediate.u.encode (RelocType.highPart c)) ∧
      e.Folded .u (Field.rd.insert 0x37 (BitVec.ofNat 64 n)) := by
  have htarget := isFoldTarget_table.1
  have hoperands : luiTemplate.operands = upperOperands := rfl
  obtain ⟨hfind, hsteady⟩ := Bool.and_eq_true_iff.1 htarget
  have hwalks := walks_upper hev hrd htext "lui" luiTemplate.start
  rw [← hoperands] at hwalks
  have hencode := encode_of_find? hcs hev (eq_of_beq hfind) hsteady
    (Template.eligible_of_base hbase rfl) hwalks rfl
    (by simp [FoldsParts, hoperands, upperOperands, Operand.takesPart])
  have hclear : Field.rd.insert 0x37 (BitVec.ofNat 64 n) &&& Immediate.u.mask = 0 := by
    rw [Field.insert_and_of_apart (by decide)]
    decide
  obtain ⟨hextract, hothers⟩ := Immediate.or_encode_of_apart hclear (RelocType.highPart c)
  exact ⟨_, hencode, hextract, hothers, rfl, rfl⟩

theorem exists_sum (hbase : ctx.isa.has "i" = true) :
    ∃ e, cs.instructions.encode ctx "addi"
        (rd ++ ", ".toList ++ rd ++ ", ".toList ++ underModifier "%lo" text) = .ok e ∧
      Immediate.i.extract e.bits = Immediate.i.extract (Immediate.i.encode c) ∧
      e.Folded .i
        (Field.rs1.insert (Field.rd.insert 0x13 (BitVec.ofNat 64 n)) (BitVec.ofNat 64 n)) := by
  have htarget := isFoldTarget_table.2.1
  have hoperands : addiTemplate.operands = sumOperands := rfl
  obtain ⟨hfind, hsteady⟩ := Bool.and_eq_true_iff.1 htarget
  have hwalks := walks_sum hev hrd htext "addi" addiTemplate.start
  rw [← hoperands] at hwalks
  have hencode := encode_of_find? hcs hev (eq_of_beq hfind) hsteady
    (Template.eligible_of_base hbase rfl) hwalks rfl
    (by simp [FoldsParts, hoperands, sumOperands, Operand.takesPart])
  have hclear : Field.rs1.insert (Field.rd.insert 0x13 (BitVec.ofNat 64 n)) (BitVec.ofNat 64 n) &&&
      Immediate.i.mask = 0 := by
    rw [Field.insert_and_of_apart (by decide), Field.insert_and_of_apart (by decide)]
    decide
  obtain ⟨hextract, hothers⟩ := Immediate.or_encode_of_apart hclear c
  exact ⟨_, hencode, hextract, hothers, rfl, rfl⟩

theorem exists_store {u : Template} (hu : u ∈ standardTemplates) {bank : Bank}
    (hoperands : u.operands = storeOperands bank) (heligible : u.eligible ctx = true)
    {rs : List Char} {r : Nat} (hrs : ctx.register bank rs = some (r, [])) :
    ∃ e, cs.instructions.encode ctx u.mnemonic
        (rs ++ ", ".toList ++ underModifier "%lo" text ++ "(".toList ++ rd ++ ")".toList) = .ok e ∧
      e.template = u ∧
      Immediate.s.extract e.bits = Immediate.i.extract (Immediate.i.encode c) ∧
      e.Folded .s (Field.rs1.insert (Field.rs2.insert u.matchBits (BitVec.ofNat 64 r))
        (BitVec.ofNat 64 n)) := by
  obtain ⟨htarget, hmatch⟩ := isFoldTarget_table.2.2 u hu bank hoperands
  obtain ⟨hfind, hsteady⟩ := Bool.and_eq_true_iff.1 htarget
  have hwalks := walks_store hev hrd htext u.mnemonic u.start hrs
  rw [← hoperands] at hwalks
  have hencode := encode_of_find? hcs hev (eq_of_beq hfind) hsteady heligible hwalks rfl
    (by simp [FoldsParts, hoperands, storeOperands, Operand.takesPart])
  have hword : u.word [.value (Int64.ofNat r), .nothing, .folded .lo12S c, .nothing,
      .value (Int64.ofNat n), .nothing] =
        Field.rs1.insert (Field.rs2.insert u.matchBits (BitVec.ofNat 64 r)) (BitVec.ofNat 64 n) |||
          Immediate.s.encode c := by
    rw [← Immediate.insert_or_encode (by decide), Template.word, hoperands]
    rfl
  have hclear : Field.rs1.insert (Field.rs2.insert u.matchBits (BitVec.ofNat 64 r))
      (BitVec.ofNat 64 n) &&& Immediate.s.mask = 0 := by
    rw [Field.insert_and_of_apart (by decide), Field.insert_and_of_apart (by decide), hmatch]
  obtain ⟨hextract, hothers⟩ := Immediate.or_encode_of_apart hclear c
  rw [← hword] at hextract hothers
  refine ⟨_, hencode, rfl, hextract.trans (Immediate.extract_encode_s c), hothers, ?_, ?_⟩
  · rw [hoperands]
    rfl
  · rw [hoperands]
    rfl

end Encodings

/-- **The parts of a constant recombine.** For every constant, in every spelling and in every
context with the base instructions: the immediate of an upper load under `%hi` and that of an
addition under `%lo` add up to the constant in 32 bits. The low part is a signed number of twelve
bits, and every store under `%lo` holds the same one. Nothing but the immediate is touched: the
other bits are the fixed bits and the registers. -/
theorem parts_recombine {cs : Catalogs} (hcs : Catalogs.standard = .ok cs) {ctx : Context}
    (hev : ctx.evaluator = Evaluator.basic) (hbase : ctx.isa.has "i" = true) {rd : List Char}
    {n : Nat} (hrd : ctx.register .integer rd = some (n, [])) {text : List Char} {c : Int64}
    (htext : ctx.expression text = some (.constant c, [])) :
    ∃ upper low,
      cs.instructions.encode ctx "lui" (rd ++ ", ".toList ++ underModifier "%hi" text) =
        .ok upper ∧
      cs.instructions.encode ctx "addi"
        (rd ++ ", ".toList ++ rd ++ ", ".toList ++ underModifier "%lo" text) = .ok low ∧
      (Immediate.u.extract upper.bits).toInt + (Immediate.i.extract low.bits).toInt ≡ c.toInt
        [ZMOD 2 ^ 32] ∧
      -2048 ≤ (Immediate.i.extract low.bits).toInt ∧
      (Immediate.i.extract low.bits).toInt ≤ 2047 ∧
      upper.Folded .u (Field.rd.insert 0x37 (BitVec.ofNat 64 n)) ∧
      low.Folded .i
        (Field.rs1.insert (Field.rd.insert 0x13 (BitVec.ofNat 64 n)) (BitVec.ofNat 64 n)) ∧
      ∀ u ∈ cs.instructions.templates, ∀ bank, u.operands = storeOperands bank →
        u.eligible ctx = true → ∀ rs r, ctx.register bank rs = some (r, []) →
          ∃ store,
            cs.instructions.encode ctx u.mnemonic
              (rs ++ ", ".toList ++ underModifier "%lo" text ++ "(".toList ++ rd ++ ")".toList) =
                .ok store ∧
            store.template = u ∧
            Immediate.s.extract store.bits = Immediate.i.extract low.bits ∧
            store.Folded .s (Field.rs1.insert (Field.rs2.insert u.matchBits (BitVec.ofNat 64 r))
              (BitVec.ofNat 64 n)) := by
  obtain ⟨upper, hupper, hhigh, hfoldedUpper⟩ := exists_upper hcs hev hrd htext hbase
  obtain ⟨low, hlow, himm, hfoldedLow⟩ := exists_sum hcs hev hrd htext hbase
  have hsum := Immediate.extract_parts_modEq c
  obtain ⟨hleast, hmost⟩ := Immediate.range_low c
  rw [← hhigh, ← himm] at hsum
  rw [← himm] at hleast hmost
  refine ⟨upper, low, hupper, hlow, hsum, hleast, hmost, hfoldedUpper, hfoldedLow, ?_⟩
  intro u hu bank hoperands heligible rs r hrs
  rw [templates_standard hcs] at hu
  obtain ⟨store, hstore, htemplate, hsame, hfolded⟩ :=
    exists_store hcs hev hrd htext hu hoperands heligible hrs
  exact ⟨store, hstore, htemplate, hsame.trans himm.symm, hfolded⟩

/-- The largest constant, whose upper part wraps when it is rounded. -/
theorem parts_recombine_largest :
    ∃ cs ctx upper low store, Catalogs.standard = .ok cs ∧
      ctx = ⟨generalIsa, true, false, true, .basic⟩ ∧ ctx.isa.has "i" = true ∧
      ctx.register .integer "a0".toList = some (10, []) ∧
      ctx.expression "0x7fffffffffffffff".toList = some (.constant 0x7fffffffffffffff, []) ∧
      storeTemplate ∈ cs.instructions.templates ∧ storeTemplate.eligible ctx = true ∧
      cs.instructions.encode ctx "lui" "a0, %hi(0x7fffffffffffffff)".toList = .ok upper ∧
      cs.instructions.encode ctx "addi" "a0, a0, %lo(0x7fffffffffffffff)".toList = .ok low ∧
      cs.instructions.encode ctx "sw" "a1, %lo(0x7fffffffffffffff)(a0)".toList = .ok store ∧
      (Immediate.u.extract upper.bits).toInt + (Immediate.i.extract low.bits).toInt ≡
        0x7fffffffffffffff [ZMOD 2 ^ 32] ∧
      Immediate.s.extract store.bits = Immediate.i.extract low.bits ∧
      store.Folded .s 0x00b52023 := by
  obtain ⟨cs, hcs⟩ := Catalogs.exists_standard
  have ht := storeTemplate_mem hcs
  have hbase : generalIsa.has "i" = true := by decide +kernel
  have hrd : Context.register ⟨generalIsa, true, false, true, .basic⟩ .integer "a0".toList =
      some (10, []) := by decide +kernel
  have hrs : Context.register ⟨generalIsa, true, false, true, .basic⟩ .integer "a1".toList =
      some (11, []) := by decide +kernel
  have htext : Context.expression ⟨generalIsa, true, false, true, .basic⟩
      "0x7fffffffffffffff".toList = some (.constant 0x7fffffffffffffff, []) := by decide +kernel
  have heligible : storeTemplate.eligible ⟨generalIsa, true, false, true, .basic⟩ = true := by
    decide +kernel
  obtain ⟨upper, low, hupper, hlow, hsum, -, -, -, -, hstores⟩ :=
    parts_recombine hcs rfl hbase hrd htext
  obtain ⟨store, hstore, -, hsame, hfolded⟩ :=
    hstores storeTemplate ht .integer (by decide +kernel) heligible _ _ hrs
  exact ⟨cs, _, upper, low, store, hcs, rfl, hbase, hrd, htext, ht, heligible, hupper, hlow, hstore,
    hsum, hsame, hfolded⟩

end RiscvAssembler
