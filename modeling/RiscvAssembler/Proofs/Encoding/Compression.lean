import RiscvAssembler.Proofs.Encoding.Counterpart
import RiscvAssembler.Proofs.Isa.WellFormed
import RiscvAssembler.Proofs.Template.Standard

/-!
Compressed instructions change nothing but the length. Among the templates of a mnemonic, the ones
that compressed instructions switch on stand before their counterparts, with nothing between that
would take the same text (`Template.isCovered`), or after a template that takes every text they
take. So a search that finds a compressed template finds its counterpart once compressed
instructions are off, and every other search ends as before (`encodeFirst_agrees`). That the tables
are of this kind is computed.
-/

namespace RiscvAssembler

/-! ### Templates that compressed instructions switch on -/

/-- Whether a mnemonic asks for a compressed instruction. -/
def isExplicit (mnemonic : String) : Bool :=
  "c.".toList.isPrefixOf mnemonic.toList

/-- The same context with compressed instructions off. -/
def Context.withoutRvc (ctx : Context) (allow : Bool) : Context :=
  { ctx with rvc := false, allowCompressed := allow }

namespace Template

variable {ctx : Context} {t u : Template} {s : List Char} (allow : Bool)

theorem readOperands_withoutRvc (mnemonic : String) (d : Draft) (ops : List Operand)
    (s : List Char) :
    readOperands (ctx.withoutRvc allow) mnemonic d ops s = readOperands ctx mnemonic d ops s := by
  induction ops generalizing d s with
  | nil => rfl
  | cons op ops ih =>
    have hread : op.read (ctx.withoutRvc allow) mnemonic d.bits (Text.dropBlanks s) =
        op.read ctx mnemonic d.bits (Text.dropBlanks s) := rfl
    unfold readOperands
    rw [hread]
    simp only [ih]

theorem encode_withoutRvc (h : t.isCompressed = false) (s : List Char) :
    t.encode (ctx.withoutRvc allow) s = t.encode ctx s := by
  have haccepts : ∀ w, t.accepts (ctx.withoutRvc allow) w = t.accepts ctx w := by
    intro w
    unfold accepts
    unfold isCompressed at h
    cases hp : t.isPseudo with
    | true => rfl
    | false =>
      have hlength : (t.length != 2) = true := by simpa [hp] using h
      simp [hlength]
  unfold encode
  rw [readOperands_withoutRvc]
  simp only [haccepts]

theorem eligible_withoutRvc (hswitch : t.needs.isCompressed = false) (h : t.isCompressed = false) :
    t.eligible (ctx.withoutRvc allow) = t.eligible ctx := by
  unfold eligible
  have hpart : t.needs.isPartOf ctx.isa false = t.needs.isPartOf ctx.isa ctx.rvc := by
    simp only [InstructionClass.isPartOf_eq, hswitch, Bool.not_false, Bool.or_true]
  rw [h]
  simp [Context.withoutRvc, hpart]

theorem eligible_of_withoutRvc {allow : Bool} (hallow : ctx.allowCompressed = true)
    (h : t.eligible (ctx.withoutRvc allow) = true) : t.eligible ctx = true := by
  simp only [eligible, Bool.and_eq_true] at h
  have hpart : t.needs.isPartOf ctx.isa ctx.rvc = true :=
    InstructionClass.isPartOf_of_off h.1.2
  simp only [eligible, Bool.and_eq_true, hallow, Bool.true_or, and_true]
  exact ⟨h.1.1, hpart⟩

theorem not_eligible_withoutRvc (hswitch : t.needs.isCompressed = true) :
    t.eligible (ctx.withoutRvc allow) = false := by
  simp [eligible, InstructionClass.isPartOf_eq, Context.withoutRvc, hswitch]

/-- What a template whose operands take tokens only makes of a text. -/
theorem exists_tokens_of_encode (hdirect : ∀ op ∈ t.operands, op.isDirect = true) {e : Encoded}
    (h : t.encode ctx s = .ok e) :
    ∃ τs, Spells ctx t.operands s τs ∧ TakesAll ctx.isa.xlen t.start t.operands τs ∧
      t.accepts ctx (t.encoded τs).bits = true ∧ e = t.encoded τs := by
  obtain ⟨rs, hrs, h⟩ := bind_eq_ok_iff.1 h
  obtain ⟨τs, hspells, htakes, rfl⟩ := exists_tokens_of_readOperands hdirect hrs
  dsimp only at h
  split at h
  · rename_i haccepts
    cases h
    exact ⟨τs, hspells, htakes, haccepts, rfl⟩
  · cases h

theorem refusal_of_encode (hdirect : ∀ op ∈ t.operands, op.isDirect = true) {r : Refusal}
    (h : t.encode ctx s = .error r) : r = .differs := by
  unfold encode at h
  cases hrs : readOperands ctx t.mnemonic t.start t.operands s with
  | error r' =>
    rw [hrs] at h
    cases h
    exact refusal_of_readOperands hdirect hrs
  | ok rs =>
    rw [hrs] at h
    dsimp only [bind, Except.bind] at h
    split at h
    · cases h
    · cases h
      rfl

theorem template_of_encode {e : Encoded} (h : t.encode ctx s = .ok e) : e.template = t := by
  obtain ⟨rs, -, h⟩ := bind_eq_ok_iff.1 h
  dsimp only at h
  split at h
  · cases h
    rfl
  · cases h

theorem encode_withoutRvc_of_excludes (hev : ctx.evaluator.Separates ctx.reduced)
    (h : excludesAll t.operands u.operands = true) {τs : List Token}
    (hspells : Spells ctx t.operands s τs)
    (htakes : TakesAll ctx.isa.xlen t.start t.operands τs) :
    u.encode (ctx.withoutRvc allow) s = .error .differs := by
  unfold encode
  rw [readOperands_withoutRvc, readOperands_of_excludes hev h hspells htakes]
  rfl

/-! ### Templates that take over -/

/-- Whether the second template may be used without compressed instructions wherever the first one
may be used with them. -/
def standsIn (t u : Template) : Bool :=
  u.width.all (t.width == some ·) && !u.isCompressed &&
    (u.needs == .i || (t.needs == .fc && u.needs == .f) || (t.needs == .dc && u.needs == .d))

theorem eligible_of_standsIn (hbase : ctx.isa.has "i" = true) (h : t.standsIn u = true)
    (ht : t.eligible ctx = true) : u.eligible (ctx.withoutRvc allow) = true := by
  simp only [standsIn, Bool.and_eq_true, Bool.or_eq_true, beq_iff_eq, Bool.not_eq_true'] at h
  obtain ⟨⟨hwidth, hcompressed⟩, hneeds⟩ := h
  simp only [eligible, Bool.and_eq_true] at ht
  obtain ⟨⟨htwidth, htneeds⟩, -⟩ := ht
  have hw : u.width.all (· == ctx.isa.xlen) = true := by
    cases huw : u.width with
    | none => rfl
    | some y =>
      rw [huw] at hwidth
      rw [eq_of_beq hwidth] at htwidth
      exact htwidth
  have hn : u.needs.isPartOf ctx.isa false = true := by
    rcases hneeds with (hu | ⟨htn, hu⟩) | ⟨htn, hu⟩
    · rw [hu]
      exact hbase
    · rw [htn] at htneeds
      rw [hu]
      exact (Bool.and_eq_true_iff.1 htneeds).2
    · rw [htn] at htneeds
      rw [hu]
      exact (Bool.and_eq_true_iff.1 htneeds).2
  simp [eligible, Context.withoutRvc, hw, hn, hcompressed]

/-- Whether the second template takes every text that the first one takes, without compressed
instructions. -/
def takesOver (t u : Template) : Bool :=
  u.mnemonic == t.mnemonic && coversAll t.operands u.operands && u.isSteady && t.standsIn u

/-- Whether the first of some templates that does not refuse all texts of a template is its
counterpart. -/
def isCovered (t : Template) : List Template → Bool
  | [] => false
  | u :: us =>
    if u.mnemonic != t.mnemonic || u.needs.isCompressed || excludesAll t.operands u.operands then
      t.isCovered us
    else t.takesOver u && t.hasCounterpart u

/-- Whether each template of a list that compressed instructions switch on is covered by those after
it, or comes after one that takes over, which is in `before`. Mnemonics of compressed instructions
are left out. -/
def isTransparent (before : List Template) : List Template → Bool
  | [] => true
  | t :: ts =>
    (if t.needs.isCompressed then
        isExplicit t.mnemonic || (t.isCompressed && t.operands.all Operand.isDirect &&
          (t.isCovered ts || before.any t.takesOver))
      else !t.isCompressed) &&
    isTransparent (t :: before) ts

theorem exists_of_isCovered {us : List Template} (h : t.isCovered us = true) :
    ∃ u ∈ us, t.takesOver u = true := by
  induction us with
  | nil => cases h
  | cons u us ih =>
    unfold isCovered at h
    split at h
    · obtain ⟨v, hv, hover⟩ := ih h
      exact ⟨v, .tail _ hv, hover⟩
    · exact ⟨u, .head _, (Bool.and_eq_true_iff.1 h).1⟩

theorem eligible_of_takesOver (hbase : ctx.isa.has "i" = true) (h : t.takesOver u = true)
    (ht : t.eligible ctx = true) :
    u.mnemonic = t.mnemonic ∧ u.eligible (ctx.withoutRvc allow) = true := by
  simp only [takesOver, Bool.and_eq_true, beq_iff_eq] at h
  exact ⟨h.1.1.1, eligible_of_standsIn allow hbase h.2 ht⟩

theorem encode_of_takesOver (hev : ctx.evaluator.Separates ctx.reduced)
    (h : t.takesOver u = true) {τs : List Token} (hspells : Spells ctx t.operands s τs)
    (htakes : TakesAll ctx.isa.xlen t.start t.operands τs) :
    u.encode (ctx.withoutRvc allow) s = .ok (u.encoded τs) := by
  simp only [takesOver, Bool.and_eq_true, standsIn, Bool.not_eq_true'] at h
  rw [encode_withoutRvc allow h.2.1.2]
  exact encode_of_covers hev h.1.1.2 h.1.2 hspells htakes

end Template

/-! ### The search -/

/-- The templates of a mnemonic that a context may use. -/
def usable (ctx : Context) (name : String) (ts : List Template) : List Template :=
  ts.filter fun t => t.eligible ctx && t.mnemonic == name

section Search

variable {ctx : Context} {name : String} {t : Template} {ts : List Template} {s : List Char}

theorem usable_cons_of_not (h : ¬ (t.mnemonic = name ∧ t.eligible ctx = true)) :
    usable ctx name (t :: ts) = usable ctx name ts :=
  List.filter_cons_of_neg (by simpa [and_comm] using h)

theorem usable_cons_of (hname : t.mnemonic = name) (h : t.eligible ctx = true) :
    usable ctx name (t :: ts) = t :: usable ctx name ts :=
  List.filter_cons_of_pos (by simp [hname, h])

theorem encodeFirst_of_refused
    (h : t.mnemonic = name → t.eligible ctx = true → t.encode ctx s = .error .differs) :
    encodeFirst ctx s (usable ctx name (t :: ts)) = encodeFirst ctx s (usable ctx name ts) := by
  by_cases ht : t.mnemonic = name ∧ t.eligible ctx = true
  · rw [usable_cons_of ht.1 ht.2, encodeFirst, h ht.1 ht.2]
  · rw [usable_cons_of_not ht]

theorem encodeFirst_of_ok (hname : t.mnemonic = name) (heligible : t.eligible ctx = true)
    {e : Encoded} (h : t.encode ctx s = .ok e) :
    encodeFirst ctx s (usable ctx name (t :: ts)) = .ok e := by
  rw [usable_cons_of hname heligible, encodeFirst, h]

variable (allow : Bool)

/-- A search that passes a covered template finds its counterpart. -/
theorem encodeFirst_of_isCovered (hev : ctx.evaluator.Separates ctx.reduced)
    (hbase : ctx.isa.has "i" = true) (h : t.isCovered ts = true) (ht : t.eligible ctx = true)
    {τs : List Token} (hspells : Spells ctx t.operands s τs)
    (htakes : TakesAll ctx.isa.xlen t.start t.operands τs) :
    ∃ u, t.hasCounterpart u = true ∧
      encodeFirst (ctx.withoutRvc allow) s (usable (ctx.withoutRvc allow) t.mnemonic ts) =
        .ok (u.encoded τs) := by
  induction ts with
  | nil => cases h
  | cons u us ih =>
    unfold Template.isCovered at h
    split at h
    · rename_i hskip
      rw [encodeFirst_of_refused]
      · exact ih h
      · intro hname heligible
        simp only [Bool.or_eq_true, bne_iff_ne] at hskip
        rcases hskip with (hne | hswitch) | hexcludes
        · exact absurd hname hne
        · rw [Template.not_eligible_withoutRvc allow hswitch] at heligible
          cases heligible
        · exact Template.encode_withoutRvc_of_excludes allow hev hexcludes hspells htakes
    · obtain ⟨hover, hcounterpart⟩ := Bool.and_eq_true_iff.1 h
      obtain ⟨hname, heligible⟩ := Template.eligible_of_takesOver allow hbase hover ht
      exact ⟨u, hcounterpart, encodeFirst_of_ok hname heligible
        (Template.encode_of_takesOver allow hev hover hspells htakes)⟩

end Search

/-- Two encodings of one text, with and without compressed instructions: the same error, the same
instruction if it is not compressed, or a compressed word and the four bytes or the loading of a
constant that it has the effect of. -/
inductive Agrees {ε : Type} (x : Xlen) : Except ε Encoded → Except ε Encoded → Prop
  | error (r : ε) : Agrees x (.error r) (.error r)
  | same {e : Encoded} (h : e.template.isCompressed = false) : Agrees x (.ok e) (.ok e)
  | compressed {e e' : Encoded} (h : e.template.isCompressed = true)
      (h' : e'.length = 4 ∨ e'.template.pseudo = some .li) (effect : e.SameEffect x e') :
      Agrees x (.ok e) (.ok e')

/-- A compressed word, and what it has the effect of. -/
theorem Agrees.exists_of_compressed {ε : Type} {x : Xlen} {r r' : Except ε Encoded}
    (h : Agrees x r r') (hr : r.toOption.any (·.template.isCompressed) = true) :
    ∃ e e', r = .ok e ∧ r' = .ok e' ∧ e.template.isCompressed = true ∧ e.SameEffect x e' := by
  cases h with
  | error r => cases hr
  | same h => exact absurd hr (by simp [Except.toOption, h])
  | compressed h _ effect => exact ⟨_, _, rfl, rfl, h, effect⟩

section Transparent

variable {ctx : Context} {name : String} {before ts : List Template} {s : List Char} (allow : Bool)

theorem agrees_of_hasCounterpart {t u : Template} {τs : List Token}
    (h : t.hasCounterpart u = true) (hcompressed : t.isCompressed = true)
    (heligible : t.eligible ctx = true) (htakes : TakesAll ctx.isa.xlen t.start t.operands τs)
    (haccepts : t.accepts ctx (t.encoded τs).bits = true) :
    Agrees ctx.isa.xlen (.ok (t.encoded τs) : Except Refusal Encoded) (.ok (u.encoded τs)) := by
  have hwidth : t.width.all (· == ctx.isa.xlen) = true := by
    simp only [Template.eligible, Bool.and_eq_true] at heligible
    exact heligible.1.1
  have hadmits : t.admits (t.encoded τs).bits = true := by
    simp only [Template.isCompressed, Bool.and_eq_true, Bool.not_eq_true'] at hcompressed
    simp only [Template.accepts, hcompressed.1, Bool.false_or, Bool.and_eq_true] at haccepts
    exact haccepts.1
  exact .compressed hcompressed (Template.length_of_hasCounterpart h)
    (Template.sameEffect_of_hasCounterpart h hwidth htakes hadmits)

/-- A template that compressed instructions do not switch is the same to both searches. -/
theorem encodeFirst_agrees_wide {t : Template} (hswitch : t.needs.isCompressed = false)
    (hwide : t.isCompressed = false)
    (hrest : (t.mnemonic = name → t.eligible (ctx.withoutRvc allow) = true →
        t.encode (ctx.withoutRvc allow) s = .error .differs) →
      Agrees ctx.isa.xlen (encodeFirst ctx s (usable ctx name ts))
        (encodeFirst (ctx.withoutRvc allow) s (usable (ctx.withoutRvc allow) name ts))) :
    Agrees ctx.isa.xlen (encodeFirst ctx s (usable ctx name (t :: ts)))
      (encodeFirst (ctx.withoutRvc allow) s (usable (ctx.withoutRvc allow) name (t :: ts))) := by
  have heligible : t.eligible (ctx.withoutRvc allow) = t.eligible ctx :=
    Template.eligible_withoutRvc allow hswitch hwide
  have hencode : t.encode (ctx.withoutRvc allow) s = t.encode ctx s :=
    Template.encode_withoutRvc allow hwide s
  by_cases hr : t.mnemonic = name → t.eligible ctx = true → t.encode ctx s = .error .differs
  · have hoff : t.mnemonic = name → t.eligible (ctx.withoutRvc allow) = true →
        t.encode (ctx.withoutRvc allow) s = .error .differs := by
      rw [heligible, hencode]
      exact hr
    rw [encodeFirst_of_refused hr, encodeFirst_of_refused hoff]
    exact hrest hoff
  · simp only [Classical.not_imp] at hr
    obtain ⟨hname, he, hr⟩ := hr
    rw [usable_cons_of hname he, usable_cons_of hname (heligible.trans he), encodeFirst,
      encodeFirst, hencode]
    cases hresult : t.encode ctx s with
    | ok e => exact .same ((congrArg _ (Template.template_of_encode hresult)).trans hwide)
    | error r =>
      cases r with
      | differs => exact absurd hresult hr
      | fault e => exact .error _

/-- A template that compressed instructions switch on takes no text that nothing else takes. -/
theorem encodeFirst_agrees_switched {t : Template} (hev : ctx.evaluator.Separates ctx.reduced)
    (hbase : ctx.isa.has "i" = true) (hswitch : t.needs.isCompressed = true)
    (hcompressed : t.isCompressed = true) (hdirect : ∀ op ∈ t.operands, op.isDirect = true)
    (hplace : t.isCovered ts = true ∨ ∃ u ∈ before, t.takesOver u = true)
    (hbefore : ∀ u ∈ before, u.mnemonic = name → u.eligible (ctx.withoutRvc allow) = true →
      u.encode (ctx.withoutRvc allow) s = .error .differs)
    (hrest : Agrees ctx.isa.xlen (encodeFirst ctx s (usable ctx name ts))
      (encodeFirst (ctx.withoutRvc allow) s (usable (ctx.withoutRvc allow) name ts))) :
    Agrees ctx.isa.xlen (encodeFirst ctx s (usable ctx name (t :: ts)))
      (encodeFirst (ctx.withoutRvc allow) s (usable (ctx.withoutRvc allow) name (t :: ts))) := by
  have hoff : t.eligible (ctx.withoutRvc allow) = false :=
    Template.not_eligible_withoutRvc allow hswitch
  have hskip : usable (ctx.withoutRvc allow) name (t :: ts) =
      usable (ctx.withoutRvc allow) name ts := usable_cons_of_not (by simp [hoff])
  rw [hskip]
  by_cases hr : t.mnemonic = name → t.eligible ctx = true → t.encode ctx s = .error .differs
  · rw [encodeFirst_of_refused hr]
    exact hrest
  · simp only [Classical.not_imp] at hr
    obtain ⟨rfl, he, hr⟩ := hr
    cases hresult : t.encode ctx s with
    | error r =>
      rw [Template.refusal_of_encode hdirect hresult] at hresult
      exact absurd hresult hr
    | ok e =>
      obtain ⟨τs, hspells, htakes, haccepts, rfl⟩ :=
        Template.exists_tokens_of_encode hdirect hresult
      rcases hplace with hcovered | ⟨u, hu, hover⟩
      · obtain ⟨u, hcounterpart, hfound⟩ :=
          encodeFirst_of_isCovered allow hev hbase hcovered he hspells htakes
        rw [encodeFirst_of_ok rfl he hresult, hfound]
        exact agrees_of_hasCounterpart hcounterpart hcompressed he htakes haccepts
      · -- A template before it would have taken the text.
        obtain ⟨hname, heligible⟩ := Template.eligible_of_takesOver allow hbase hover he
        have hrefused := hbefore u hu hname heligible
        rw [Template.encode_of_takesOver allow hev hover hspells htakes] at hrefused
        cases hrefused

/-- **A search through transparent templates agrees with the one without compressed
instructions**, if the latter refused the templates before them. -/
theorem encodeFirst_agrees (hev : ctx.evaluator.Separates ctx.reduced)
    (hbase : ctx.isa.has "i" = true) (hname : isExplicit name = false)
    (h : Template.isTransparent before ts = true)
    (hbefore : ∀ u ∈ before, u.mnemonic = name → u.eligible (ctx.withoutRvc allow) = true →
      u.encode (ctx.withoutRvc allow) s = .error .differs) :
    Agrees ctx.isa.xlen (encodeFirst ctx s (usable ctx name ts))
      (encodeFirst (ctx.withoutRvc allow) s (usable (ctx.withoutRvc allow) name ts)) := by
  induction ts generalizing before with
  | nil => exact .error _
  | cons t ts ih =>
    obtain ⟨hhead, htail⟩ := Bool.and_eq_true_iff.1 h
    have hrest := fun hrefused => ih htail (List.forall_mem_cons.2 ⟨hrefused, hbefore⟩)
    cases hswitch : t.needs.isCompressed with
    | false =>
      have hwide : t.isCompressed = false := by simpa [hswitch] using hhead
      exact encodeFirst_agrees_wide allow hswitch hwide hrest
    | true =>
      have hoff : t.eligible (ctx.withoutRvc allow) = false :=
        Template.not_eligible_withoutRvc allow hswitch
      replace hrest := hrest fun _ he => by rw [hoff] at he; cases he
      simp only [hswitch, if_true, Bool.or_eq_true, Bool.and_eq_true, List.all_eq_true,
        List.any_eq_true] at hhead
      rcases hhead with hexplicit | ⟨⟨hcompressed, hdirect⟩, hplace⟩
      · have hm : t.mnemonic ≠ name := by
          rintro rfl
          rw [hname] at hexplicit
          cases hexplicit
        rw [usable_cons_of_not (fun h => hm h.1), usable_cons_of_not (fun h => hm h.1)]
        exact hrest
      · exact encodeFirst_agrees_switched allow hev hbase hswitch hcompressed hdirect hplace
          hbefore hrest

/-- Some template of a mnemonic is usable without compressed instructions if any is with them. -/
theorem exists_usable (hbase : ctx.isa.has "i" = true) (hname : isExplicit name = false)
    (h : Template.isTransparent before ts = true) (hon : usable ctx name ts ≠ []) :
    ∃ u ∈ before ++ ts, u.mnemonic = name ∧ u.eligible (ctx.withoutRvc allow) = true := by
  induction ts generalizing before with
  | nil => exact absurd rfl hon
  | cons t ts ih =>
    obtain ⟨hhead, htail⟩ := Bool.and_eq_true_iff.1 h
    by_cases ht : t.mnemonic = name ∧ t.eligible ctx = true
    · obtain ⟨rfl, he⟩ := ht
      cases hswitch : t.needs.isCompressed with
      | false =>
        have hwide : t.isCompressed = false := by simpa [hswitch] using hhead
        exact ⟨t, by simp, rfl, (Template.eligible_withoutRvc allow hswitch hwide).trans he⟩
      | true =>
        simp only [hswitch, if_true, hname, Bool.false_or, Bool.or_eq_true, Bool.and_eq_true,
          List.any_eq_true] at hhead
        have hover : ∃ u ∈ before ++ t :: ts, t.takesOver u = true := by
          rcases hhead.2 with hcovered | ⟨u, hu, hover⟩
          · obtain ⟨u, hu, hover⟩ := Template.exists_of_isCovered hcovered
            exact ⟨u, by simp [hu], hover⟩
          · exact ⟨u, by simp [hu], hover⟩
        obtain ⟨u, hu, hover⟩ := hover
        exact ⟨u, hu, Template.eligible_of_takesOver allow hbase hover he⟩
    · rw [usable_cons_of_not ht] at hon
      obtain ⟨u, hu, hfound⟩ := ih htail hon
      exact ⟨u, by simpa [or_left_comm] using hu, hfound⟩

theorem usable_eq_nil_iff (hbase : ctx.isa.has "i" = true) (hallow : ctx.allowCompressed = true)
    (hname : isExplicit name = false) (h : Template.isTransparent [] ts = true) :
    usable (ctx.withoutRvc allow) name ts = [] ↔ usable ctx name ts = [] := by
  constructor
  · intro hoff
    by_contra hon
    obtain ⟨u, hu, hmnemonic, he⟩ := exists_usable allow hbase hname h hon
    have hmem : u ∈ usable (ctx.withoutRvc allow) name ts :=
      List.mem_filter.2 ⟨hu, by simp [hmnemonic, he]⟩
    rw [hoff] at hmem
    cases hmem
  · intro hon
    rw [usable, List.filter_eq_nil_iff] at hon ⊢
    intro u hu hoff
    simp only [Bool.and_eq_true] at hoff
    exact hon u hu (by simp [Template.eligible_of_withoutRvc hallow hoff.1, hoff.2])

/-- What becomes of a search. -/
def report (name : String) (s : List Char) :
    Except Refusal Encoded → Except InstructionError Encoded
  | .ok e => .ok e
  | .error (.fault e) => .error e
  | .error .differs => .error (.illegalOperands name (String.ofList (Text.trim s)))

theorem encodeWith_filter (ctx : Context) (name : String) (ts : List Template) (s : List Char) :
    encodeWith ctx name (ts.filter (·.mnemonic == name)) s =
      if usable ctx name ts = [] then .error (.unknownMnemonic name)
      else report name s (encodeFirst ctx s (usable ctx name ts)) := by
  have husable : (ts.filter (·.mnemonic == name)).filter (Template.eligible ctx) =
      usable ctx name ts := List.filter_filter
  unfold encodeWith
  rw [husable]
  cases usable ctx name ts with
  | nil => rfl
  | cons t us =>
    rw [if_neg nofun]
    dsimp only
    cases encodeFirst ctx s (t :: us) with
    | ok e => rfl
    | error r => cases r <;> rfl

theorem Agrees.report {x : Xlen} {r r' : Except Refusal Encoded} (h : Agrees x r r')
    (name : String) (s : List Char) :
    Agrees x (RiscvAssembler.report name s r) (RiscvAssembler.report name s r') := by
  cases h with
  | error r => cases r <;> exact .error _
  | same h => exact .same h
  | compressed h h' effect => exact .compressed h h' effect

/-- **Transparent templates encode the same with and without compressed instructions.** -/
theorem encodeWith_agrees (hev : ctx.evaluator.Separates ctx.reduced)
    (hbase : ctx.isa.has "i" = true) (hallow : ctx.allowCompressed = true)
    (hname : isExplicit name = false) (h : Template.isTransparent [] ts = true) :
    Agrees ctx.isa.xlen (encodeWith ctx name (ts.filter (·.mnemonic == name)) s)
      (encodeWith (ctx.withoutRvc allow) name (ts.filter (·.mnemonic == name)) s) := by
  have hnil := usable_eq_nil_iff allow hbase hallow hname h
  rw [encodeWith_filter, encodeWith_filter]
  by_cases hon : usable ctx name ts = []
  · rw [if_pos hon, if_pos (hnil.2 hon)]
    exact .error _
  · rw [if_neg hon, if_neg (mt hnil.1 hon)]
    exact (encodeFirst_agrees allow hev hbase hname h (List.forall_mem_nil _)).report name s

end Transparent

/-! ### The tables -/

theorem isTransparent_standardTemplates : Template.isTransparent [] standardTemplates = true := by
  rw [standardTemplates_eq_map]
  decide +kernel

/-- **Compressed instructions change no meaning and accept no other text.** Whatever the mnemonic
and its operands, unless the mnemonic asks for a compressed instruction, the encodings with and
without compressed instructions agree. -/
theorem compression_preserves_effect {cs : Catalogs} (hcs : Catalogs.standard = .ok cs)
    {lookup : Isa.KnownVersions} {arch : List Char} {isa : Isa}
    (hisa : Isa.parse lookup arch = .ok isa) {ev : Evaluator} {reduced : Bool}
    (hev : ev.Separates reduced) (mnemonic : String) (hname : isExplicit mnemonic = false)
    (allow : Bool) (text : List Char) :
    Agrees isa.xlen (cs.instructions.encode ⟨isa, true, reduced, true, ev⟩ mnemonic text)
      (cs.instructions.encode ⟨isa, false, reduced, allow, ev⟩ mnemonic text) := by
  have hbase : isa.has "i" = true := (Isa.WellFormed.of_read (Isa.read_of_parse hisa)).has_base
  rw [Catalog.encode, Catalog.encode, lookup_standard hcs]
  exact @encodeWith_agrees ⟨isa, true, reduced, true, ev⟩ _ _ _ allow hev hbase rfl hname
    isTransparent_standardTemplates

/-- The general set of extensions on 64-bit registers. -/
def generalIsa : Isa :=
  ⟨.rv64, [⟨"i", ⟨2, 0⟩⟩, ⟨"m", ⟨2, 0⟩⟩, ⟨"a", ⟨2, 0⟩⟩, ⟨"f", ⟨2, 0⟩⟩, ⟨"d", ⟨2, 0⟩⟩, ⟨"c", ⟨2, 0⟩⟩]⟩

theorem parse_generalIsa :
    Isa.parse Extension.standardVersion? "rv64gc".toList = .ok generalIsa :=
  eq_ok_of_toOption (by decide +kernel)

/-- A constant that is loaded in two bytes, and by a macro without compressed instructions. -/
theorem compression_preserves_effect_li :
    ∃ cs e e', Catalogs.standard = .ok cs ∧
      cs.instructions.encode ⟨generalIsa, true, false, true, .basic⟩ "li" "a1,-8192".toList =
        .ok e ∧
      cs.instructions.encode ⟨generalIsa, false, false, true, .basic⟩ "li" "a1,-8192".toList =
        .ok e' ∧
      e.template.isCompressed = true ∧ e.SameEffect .rv64 e' := by
  obtain ⟨cs, hcs⟩ := Catalogs.exists_standard
  have hagrees := compression_preserves_effect hcs parse_generalIsa
    (Evaluator.basic_separates false) "li" (by decide) true "a1,-8192".toList
  have hcompressed : (cs.instructions.encode ⟨generalIsa, true, false, true, .basic⟩ "li"
      "a1,-8192".toList).toOption.any (·.template.isCompressed) = true := by
    rw [Catalog.encode, lookup_standard hcs]
    decide +kernel
  obtain ⟨e, e', hon, hoff, hc, heffect⟩ := hagrees.exists_of_compressed hcompressed
  exact ⟨cs, e, e', hcs, hon, hoff, hc, heffect⟩

/-! ### Evaluators that do not separate -/

theorem Evaluator.hex_sparesModifiers : Evaluator.hex.SparesModifiers := by
  intro s h v rest heval
  obtain ⟨r, rfl⟩ := List.head?_eq_some_iff.1 h
  cases heval

/-- The basic evaluator, but for text under a modifier, which it reads as zero. -/
def Evaluator.zeroAtModifiers : Evaluator := fun s =>
  if s.head? = some '%' then some (.constant 0, (s.dropWhile (· != ')')).tail) else basic s

theorem Evaluator.zeroAtModifiers_sparesRegisters (reduced : Bool) :
    Evaluator.zeroAtModifiers.SparesRegisters reduced := by
  intro s h v rest
  obtain ⟨c, r, rfl, hword, -⟩ := head_of_lookup h
  have hplain : (c :: r).head? ≠ some '%' := by
    rintro ⟨⟩
    cases hword
  rw [zeroAtModifiers, if_neg hplain]
  exact (basic_separates reduced).register _ h v rest

/-- To an evaluator of hexadecimal constants, the last register of an addition is the number 160,
which a compressed instruction adds to the stack pointer. -/
theorem not_agrees_hex_addition :
    ¬ Agrees .rv64
      (encodeWith ⟨generalIsa, true, false, true, .hex⟩ "add"
        (standardTemplates.filter (·.mnemonic == "add")) "a1,sp,a0".toList)
      (encodeWith ⟨generalIsa, false, false, true, .hex⟩ "add"
        (standardTemplates.filter (·.mnemonic == "add")) "a1,sp,a0".toList) := by
  intro hagrees
  obtain ⟨e, e', hon, hoff, -, -, i, i', hi, hi', heffect⟩ :=
    hagrees.exists_of_compressed (by decide +kernel)
  have hsum : (encodeWith ⟨generalIsa, true, false, true, .hex⟩ "add"
      (standardTemplates.filter (·.mnemonic == "add")) "a1,sp,a0".toList).toOption.bind
        (·.instructions? .rv64) = some [.opImm .add 11 2 160] := by decide +kernel
  have hsum' : (encodeWith ⟨generalIsa, false, false, true, .hex⟩ "add"
      (standardTemplates.filter (·.mnemonic == "add")) "a1,sp,a0".toList).toOption.bind
        (·.instructions? .rv64) = some [.op .add 11 2 10] := by decide +kernel
  rw [hon] at hsum
  rw [hoff] at hsum'
  cases hi.instructions.symm.trans hsum
  cases hi'.instructions.symm.trans hsum'
  have hzero := heffect 0 0 ⟨0, fun _ => 0, fun _ => 0, fun _ => 0⟩
  have hread : some (160 : BitVec 64) = some 0 :=
    congrArg (fun r => r.toOption.map (·.read 11)) hzero
  exact absurd hread (by decide)

/-- To an evaluator that reads text under a modifier as zero, the offset of a load from the lower
part of an address is zero in a compressed instruction; the wide one leaves it to a relocation. -/
theorem not_agrees_modified_load :
    ¬ Agrees .rv64
      (encodeWith ⟨generalIsa, true, false, true, .zeroAtModifiers⟩ "lw"
        (standardTemplates.filter (·.mnemonic == "lw")) "a0,%lo(x)(a1)".toList)
      (encodeWith ⟨generalIsa, false, false, true, .zeroAtModifiers⟩ "lw"
        (standardTemplates.filter (·.mnemonic == "lw")) "a0,%lo(x)(a1)".toList) := by
  intro hagrees
  obtain ⟨e, e', -, hoff, -, -, i, i', -, hi', -⟩ :=
    hagrees.exists_of_compressed (by decide +kernel)
  have hreloc : (encodeWith ⟨generalIsa, false, false, true, .zeroAtModifiers⟩ "lw"
      (standardTemplates.filter (·.mnemonic == "lw")) "a0,%lo(x)(a1)".toList).toOption.bind
        (·.reloc) = some .lo12I := by decide +kernel
  rw [hoff] at hreloc
  exact absurd (hi'.isBranch_of_reloc hreloc) (by decide)

/-- Each half of the separation is needed: with compressed instructions, an evaluator that keeps
modifiers but not registers apart from constants gives an addition another meaning, and one that
keeps registers but not modifiers apart from them gives a load another. -/
theorem compression_needs_separation :
    ∃ cs, Catalogs.standard = .ok cs ∧
      Isa.parse Extension.standardVersion? "rv64gc".toList = .ok generalIsa ∧
      generalIsa.has "c" = true ∧
      (Evaluator.hex.SparesModifiers ∧ isExplicit "add" = false ∧
        ¬ Agrees .rv64
          (cs.instructions.encode ⟨generalIsa, true, false, true, .hex⟩ "add" "a1,sp,a0".toList)
          (cs.instructions.encode ⟨generalIsa, false, false, true, .hex⟩ "add"
            "a1,sp,a0".toList)) ∧
      (Evaluator.zeroAtModifiers.SparesRegisters false ∧ isExplicit "lw" = false ∧
        ¬ Agrees .rv64
          (cs.instructions.encode ⟨generalIsa, true, false, true, .zeroAtModifiers⟩ "lw"
            "a0,%lo(x)(a1)".toList)
          (cs.instructions.encode ⟨generalIsa, false, false, true, .zeroAtModifiers⟩ "lw"
            "a0,%lo(x)(a1)".toList)) := by
  obtain ⟨cs, hcs⟩ := Catalogs.exists_standard
  refine ⟨cs, hcs, parse_generalIsa, by decide, ?_⟩
  simp only [Catalog.encode, lookup_standard hcs]
  exact ⟨⟨Evaluator.hex_sparesModifiers, by decide, not_agrees_hex_addition⟩,
    ⟨Evaluator.zeroAtModifiers_sparesRegisters false, by decide, not_agrees_modified_load⟩⟩

end RiscvAssembler
