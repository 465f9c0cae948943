import RiscvAssembler.Proofs.Session.Calls
import RiscvAssembler.Proofs.Text.Numeral

/-!
Numeric labels in a line. References are told by their spelling (`Label.reference?_eq_some_iff`) and
replaced one by one (`Labels.words_of_resolveTokens`). A line that is accepted counts the definitions
in front of it, puts a symbol for each at the end of the section, and notes its references to later
definitions (`lineLabels_of_line`).
-/

namespace RiscvAssembler

/-! ### What a reference is -/

/-- The letter of a direction. -/
def Direction.letter : Direction → Char
  | .backward => 'b'
  | .forward => 'f'

/-- The number that decimal digits stand for. -/
def Text.decimalValue (digits : List Char) : Nat :=
  digits.foldl (fun value c => 10 * value + (c.toNat - '0'.toNat)) 0

/-- Whether a token is a reference to label `n`: decimal digits for a number below 2^32, and the
letter of the direction. -/
def Label.IsReference (token : List Char) (n : Nat) (direction : Direction) : Prop :=
  ∃ digits, token = digits ++ [direction.letter] ∧ digits ≠ [] ∧
    (∀ c ∈ digits, c.isDigit = true) ∧ Text.decimalValue digits = n ∧ n < 2 ^ 32

theorem Text.digitValue?_ten (c : Char) :
    digitValue? 10 c = if c.isDigit then some (c.toNat - '0'.toNat) else none := by
  unfold digitValue?
  by_cases hdigit : c.isDigit = true
  · have hlt : c.toNat - '0'.toNat < 10 := by
      simp only [Char.isDigit, Bool.and_eq_true, decide_eq_true_eq] at hdigit
      have h₁ : c.val.toNat ≤ '9'.val.toNat := UInt32.le_iff_toNat_le.1 hdigit.2
      have h₂ : '9'.val.toNat = 57 := rfl
      have h₃ : '0'.toNat = 48 := rfl
      have h₄ : c.toNat = c.val.toNat := rfl
      omega
    rw [if_pos hdigit, if_pos hdigit, Option.filter_some, if_pos (by simpa using hlt)]
  · rw [if_neg hdigit, if_neg hdigit]
    split
    · rw [Option.filter_some, if_neg (by simp)]
    · split
      · rw [Option.filter_some, if_neg (by simp)]
      · rfl

theorem Text.readDigits?_ten {digits : List Char} {value n : Nat} :
    readDigits? 10 value digits = some n ↔ (∀ c ∈ digits, c.isDigit = true) ∧
      digits.foldl (fun value c => 10 * value + (c.toNat - '0'.toNat)) value = n := by
  induction digits generalizing value with
  | nil => simp [readDigits?]
  | cons c digits ih =>
    rw [readDigits?, digitValue?_ten]
    by_cases hdigit : c.isDigit = true
    · rw [if_pos hdigit]
      simp only [ih, List.forall_mem_cons, hdigit, true_and, List.foldl_cons]
    · rw [if_neg hdigit]
      simp [hdigit]

theorem Label.number?_eq_some_iff {digits : List Char} {n : Nat} :
    number? digits = some n ↔ digits ≠ [] ∧ (∀ c ∈ digits, c.isDigit = true) ∧
      Text.decimalValue digits = n ∧ n < 2 ^ 32 := by
  unfold number?
  rw [Option.filter_eq_some_iff]
  cases digits with
  | nil => simp [Text.readNumeral?]
  | cons c digits =>
    have hread : Text.readNumeral? 10 (c :: digits) = Text.readDigits? 10 0 (c :: digits) := rfl
    rw [hread, Text.readDigits?_ten]
    simp only [decide_eq_true_eq, ne_eq, List.cons_ne_nil, not_false_eq_true, true_and, and_assoc]
    rfl

/-- References are found by their spelling. -/
theorem Label.reference?_eq_some_iff {token : List Char} {n : Nat} {direction : Direction} :
    reference? token = some (n, direction) ↔ IsReference token n direction := by
  unfold IsReference
  rcases List.eq_nil_or_concat token with rfl | ⟨digits, last, rfl⟩
  · simp [reference?]
  · rw [List.concat_eq_append]
    unfold reference?
    rw [List.dropLast_concat, List.getLast?_concat]
    constructor
    · intro h
      split at h
      · rename_i hnumber hlast
        cases h
        cases hlast
        exact ⟨digits, rfl, number?_eq_some_iff.1 hnumber⟩
      · rename_i hnumber hlast
        cases h
        cases hlast
        exact ⟨digits, rfl, number?_eq_some_iff.1 hnumber⟩
      · cases h
    · rintro ⟨digits', htoken, hnumber⟩
      obtain ⟨rfl, hlast⟩ := List.append_inj' htoken rfl
      cases hlast
      rw [number?_eq_some_iff.2 hnumber]
      cases direction <;> rfl

/-! ### Symbols that are made up -/

theorem Expansion.upperLabel_inj {n m : Nat} : upperLabel n = upperLabel m ↔ n = m := by
  unfold upperLabel
  rw [String.append_right_inj, Text.decimalText_natCast_inj]

theorem Label.dotSymbol_inj {n m : Nat} : dotSymbol n = dotSymbol m ↔ n = m := by
  unfold dotSymbol
  rw [String.append_right_inj, Text.decimalText_natCast_inj]

theorem Label.dotSymbol_ne_upperLabel (n m : Nat) : dotSymbol n ≠ Expansion.upperLabel m := by
  intro h
  have htext := congrArg String.toList h
  simp [dotSymbol, Expansion.upperLabel] at htext

/-! ### Labels on lines of their own -/

theorem Text.toNat_of_isSymbolChar {c : Char} (h : isSymbolChar c = true) :
    c.toNat < 128 := by
  unfold isSymbolChar isSymbolStart Char.isAlpha Char.isUpper Char.isLower Char.isDigit at h
  simp only [Bool.or_eq_true, Bool.and_eq_true, decide_eq_true_eq, beq_iff_eq, ge_iff_le,
    UInt32.le_iff_toNat_le] at h
  rcases h with ((((⟨-, h⟩ | ⟨-, h⟩) | rfl) | rfl) | rfl) | ⟨-, h⟩
  · exact Nat.lt_of_le_of_lt h (by decide)
  · exact Nat.lt_of_le_of_lt h (by decide)
  · decide
  · decide
  · decide
  · exact Nat.lt_of_le_of_lt h (by decide)

/-- Characters of symbols are neither white space nor colons. -/
theorem Text.plain_of_isSymbolChar {c : Char} (h : isSymbolChar c = true) :
    isSpace c = false ∧ c ≠ ':' := by
  have hall : ∀ n < 128, isSymbolChar (Char.ofNat n) = true →
      isSpace (Char.ofNat n) = false ∧ Char.ofNat n ≠ ':' := by decide
  have := hall c.toNat (toNat_of_isSymbolChar h)
  rw [Char.ofNat_toNat] at this
  exact this h

theorem Text.splitFirst?_of_notMem {sep : Char} {s : List Char} (h : sep ∉ s) (rest : List Char) :
    splitFirst? sep (s ++ sep :: rest) = some (s, rest) := by
  induction s with
  | nil => simp [splitFirst?]
  | cons c s ih =>
    have hc : c ≠ sep := fun heq => h (heq ▸ List.mem_cons_self)
    rw [List.cons_append, splitFirst?, if_neg hc, ih fun hmem => h (List.mem_cons_of_mem c hmem)]
    rfl

/-- A label on a line of its own. -/
theorem Line.read_of_label {name : List Char} {label : Label} (h : Label.read? name = some label)
    (hchars : ∀ c ∈ name, Text.isSymbolChar c = true) :
    read (name ++ [':']) = ⟨[label], .nothing⟩ := by
  have hspace : ∀ c ∈ name, Text.isSpace c = false := fun c hc =>
    (Text.plain_of_isSymbolChar (hchars c hc)).1
  have hcolon : ':' ∉ name := fun hmem => (Text.plain_of_isSymbolChar (hchars _ hmem)).2 rfl
  have hdrop : ∀ s : List Char, (∀ c ∈ s, Text.isSpace c = false) → s.dropWhile Text.isSpace = s := by
    intro s hs
    cases s with
    | nil => rfl
    | cons c s => rw [List.dropWhile_cons_of_neg (by simp [hs c List.mem_cons_self])]
  have htrimEnd : ∀ s : List Char, (∀ c ∈ s, Text.isSpace c = false) → Text.trimEnd s = s := by
    intro s hs
    unfold Text.trimEnd
    rw [hdrop _ fun c hc => hs c (List.mem_reverse.1 hc), List.reverse_reverse]
  have htext : ∀ c ∈ name ++ [':'], Text.isSpace c = false := by
    intro c hc
    rcases List.mem_append.1 hc with hc | hc
    · exact hspace c hc
    · rw [List.mem_singleton.1 hc]
      decide
  have htrim : Text.trim (name ++ [':']) = name ++ [':'] := by
    unfold Text.trim Text.trimStart
    rw [hdrop _ htext, htrimEnd _ htext]
  have hlabel : label? (name ++ [':']) = some (label, []) := by
    unfold label?
    rw [Text.splitFirst?_of_notMem hcolon]
    dsimp only
    rw [htrimEnd name hspace, h]
    rfl
  have hnone : splitLabels [] = ([], []) := by
    rw [splitLabels]
    rfl
  have hsplit : splitLabels (name ++ [':']) = ([label], []) := by
    rw [splitLabels]
    split
    · rename_i h'
      rw [hlabel] at h'
      cases h'
    · rename_i h'
      cases hlabel.symm.trans h'
      rw [hnone]
  unfold read
  rw [htrim, hsplit]
  rfl

theorem Label.read?_decimal {n : Nat} (h : n < 2 ^ 32) :
    read? (Text.decimal n) = some (.numbered n) := by
  unfold read? number?
  rw [Text.readNumeral?_decimal, Option.filter_some, if_pos (by simpa using h)]

theorem Text.isSymbolChar_of_mem_decimal {n : Nat} {c : Char} (h : c ∈ decimal n) :
    isSymbolChar c = true := by
  unfold isSymbolChar
  rw [isDigit_of_mem_decimal h, Bool.or_true]

theorem Label.toList_dotSymbol (n : Nat) :
    (dotSymbol n).toList = '.' :: ("Ldot".toList ++ Text.decimal n) := by
  simp [dotSymbol, Text.decimalText]

theorem Label.isSymbolChar_of_mem_dotSymbol {n : Nat} {c : Char} (h : c ∈ (dotSymbol n).toList) :
    Text.isSymbolChar c = true := by
  have hletters : "Ldot".toList.all Text.isSymbolChar = true := by decide
  rw [toList_dotSymbol] at h
  rcases List.mem_cons.1 h with rfl | h
  · decide
  · rcases List.mem_append.1 h with h | h
    · exact List.all_eq_true.1 hletters c h
    · exact Text.isSymbolChar_of_mem_decimal h

theorem Label.read?_dotSymbol (n : Nat) :
    read? (dotSymbol n).toList = some (.named (dotSymbol n)) := by
  have hnumber : number? (dotSymbol n).toList = none := by
    rw [toList_dotSymbol]
    rfl
  have hrest : ("Ldot".toList ++ Text.decimal n).all Text.isSymbolChar = true := by
    refine List.all_eq_true.2 fun c hc => isSymbolChar_of_mem_dotSymbol (n := n) ?_
    rw [toList_dotSymbol]
    exact List.mem_cons_of_mem _ hc
  have hstart : Text.isSymbolStart '.' = true := by decide
  unfold read?
  rw [hnumber, toList_dotSymbol]
  dsimp only
  rw [hstart, hrest, ← toList_dotSymbol, String.ofList_toList]
  rfl

/-! ### What references are replaced by -/

namespace Labels

/-- What stands for a token, given how often each label was defined. -/
def word? (l : Labels) (token : List Char) : Option (List Char) :=
  match Label.reference? token with
  | none => some token
  | some (n, .backward) =>
    if l.count n = 0 then none else some (Label.localSymbol n (l.count n - 1)).toList
  | some (n, .forward) => some (Label.localSymbol n (l.count n)).toList

theorem word?_of_resolveToken {l l' : Labels} {token word : List Char}
    (h : l.resolveToken token = .ok (l', word)) :
    l.word? token = some word ∧ l'.counts = l.counts := by
  unfold resolveToken at h
  unfold word?
  cases href : Label.reference? token with
  | none =>
    rw [href] at h
    cases h
    exact ⟨rfl, rfl⟩
  | some reference =>
    obtain ⟨n, direction⟩ := reference
    rw [href] at h
    cases direction with
    | backward =>
      dsimp only at h ⊢
      cases hk : l.count n with
      | zero =>
        rw [hk] at h
        cases h
      | succ k =>
        rw [hk] at h
        cases h
        exact ⟨rfl, rfl⟩
    | forward =>
      cases h
      exact ⟨rfl, rfl⟩

theorem word?_congr {l l' : Labels} (h : l'.counts = l.counts) : l'.word? = l.word? := by
  funext token
  unfold word? count
  rw [h]

/-- Operands are replaced token by token. -/
theorem words_of_resolveTokens {l : Labels} {tokens : List (List Char)} {text : List Char}
    (h : (l.resolveTokens tokens).2 = .ok text) :
    ∃ words, text = words.flatten ∧
      List.Forall₂ (fun token word => l.word? token = some word) tokens words := by
  induction tokens generalizing l text with
  | nil =>
    cases h
    exact ⟨[], rfl, .nil⟩
  | cons token tokens ih =>
    unfold resolveTokens at h
    cases htoken : l.resolveToken token with
    | error e =>
      rw [htoken] at h
      cases h
    | ok pair =>
      obtain ⟨l₁, word⟩ := pair
      rw [htoken] at h
      obtain ⟨hword, hcounts⟩ := word?_of_resolveToken htoken
      dsimp only at h
      cases hrest : (l₁.resolveTokens tokens).2 with
      | error e =>
        rw [hrest] at h
        cases h
      | ok more =>
        rw [hrest] at h
        cases h
        obtain ⟨words, rfl, hwords⟩ := ih hrest
        rw [word?_congr hcounts] at hwords
        exact ⟨word :: words, rfl, .cons hword hwords⟩

/-- References are noted if all can be replaced. -/
theorem resolve_of_ok {l : Labels} {s text : List Char} (h : (l.resolve s).2 = .ok text) :
    l.resolve s = (l.noting (tokens s), .ok text) := by
  obtain ⟨done, rest, hsplit, hdone, hrest⟩ := l.resolveTokens_fst (tokens s)
  rw [hrest text h, List.append_nil] at hsplit
  refine Prod.ext ?_ h
  rw [hsplit]
  exact hdone

theorem forward?_eq_some_iff {l : Labels} {token : List Char} {p : Nat × Nat} :
    l.forward? token = some p ↔
      Label.reference? token = some (p.1, .forward) ∧ p.2 = l.count p.1 := by
  unfold forward?
  constructor
  · intro h
    split at h
    · rename_i n href
      cases h
      exact ⟨href, rfl⟩
    · cases h
  · rintro ⟨href, hcount⟩
    rw [href]
    dsimp only
    rw [← hcount]

theorem forward?_congr {l l' : Labels} (h : l'.counts = l.counts) : l'.forward? = l.forward? := by
  funext token
  unfold forward? count
  rw [h]

end Labels

theorem Section.layout_ne_undefinedLocalLabel (s : Section) (name : String) :
    s.layout.2 ≠ .error (.undefinedLocalLabel name) := by
  unfold layout
  split
  · exact fun h => nomatch h
  · dsimp only
    split
    · exact fun h => nomatch h
    · cases assemblePieces _ _ _ <;> exact fun h => nomatch h

namespace Session

/-! ### Labels after a call -/

section

variable {s s' : Session}

theorem labels_place (e : Encoded) (s : Session) : (leftBy (place e) s).labels = s.labels := by
  cases hitem : e.item? s.options.relax with
  | none =>
    obtain ⟨er, -, her⟩ := place_of_item?_eq_none hitem
    rw [leftBy_of_error her]
  | some item =>
    obtain ⟨placed, hplaced⟩ := place_of_item? hitem
    rw [leftBy_of_ok hplaced]
    rfl

theorem labels_runStep (pseudo : String) (step : Step) (s : Session) :
    (leftBy (runStep pseudo step) s).labels = s.labels := by
  cases step with
  | label name =>
    unfold leftBy
    rw [runStep_label]
    by_cases h : s.contents.defines name = true
    · rw [if_pos h]
    · rw [if_neg h]
      rfl
  | insn mnemonic operands reloc =>
    obtain ⟨er, -, her⟩ | ⟨e, item, placed, -, -, hrun⟩ :=
      runStep_insn_cases pseudo mnemonic operands reloc s
    · rw [leftBy_of_error her]
    · rw [leftBy_of_ok hrun]
      rfl

theorem labels_runSteps (pseudo : String) (steps : List Step) (s : Session) :
    (leftBy (runSteps pseudo steps) s).labels = s.labels := by
  induction steps generalizing s with
  | nil => rfl
  | cons step steps ih =>
    have hstep := labels_runStep pseudo step s
    rw [leftBy_runSteps_cons]
    cases hrun : runStep pseudo step s with
    | error e s₁ =>
      rw [leftBy_of_error hrun] at hstep
      exact hstep
    | ok here s₁ =>
      rw [leftBy_of_ok hrun] at hstep
      exact (ih s₁).trans hstep

theorem labels_assemble (w : Written) (e : Encoded) (s : Session) :
    ∃ next, (leftBy (w.assemble e) s).labels = { s.labels with nextUpper := next } := by
  have hplace : (leftBy (do return [← place e]) s).labels = s.labels := by
    rw [leftBy_map (place e)]
    exact labels_place e s
  cases w with
  | fields text =>
    refine ⟨s.labels.nextUpper, ?_⟩
    unfold Written.assemble
    cases e.template.pseudo <;> exact hplace
  | instruction mnemonic operands =>
    unfold Written.assemble
    cases e.template.pseudo with
    | none => exact ⟨s.labels.nextUpper, hplace⟩
    | some kind =>
      dsimp only
      cases hexpand : kind.expand e s.isa.xlen s.options.pic s.labels.nextUpper with
      | error cause =>
        refine ⟨s.labels.nextUpper, ?_⟩
        unfold leftBy
        rw [expand_eq, hexpand]
      | ok outcome =>
        obtain ⟨steps, next⟩ := outcome
        rw [leftBy_expand hexpand, labels_runSteps]
        exact ⟨next, rfl⟩

/-- A call that succeeds notes its references to later definitions, and changes neither the
definitions nor the references noted before. -/
theorem Call.labels_of_ok {c : Call} {placed : List Placed} (h : c.written.run c.before = .ok placed s') :
    (∃ text, c.text? = some text) ∧ s'.labels.counts = c.before.labels.counts ∧
      s'.labels.pending.toList = c.before.labels.pending.toList ++
        (Labels.tokens c.written.operands).filterMap c.before.labels.forward? := by
  rcases c.written.run_cases c.before with hrun | hrun
  · rw [hrun, run_bind_eq_ok_iff] at h
    obtain ⟨e, s₁, hencode, hassemble⟩ := h
    obtain ⟨labels, text, e₀, hresolve, -, hnamed⟩ := exists_of_encodeIn hencode
    have hnoting : labels = c.before.labels.noting (Labels.tokens c.written.operands) := by
      rw [Labels.resolve_of_ok (congrArg Prod.snd hresolve)] at hresolve
      exact (congrArg Prod.fst hresolve).symm
    have hs₁ : s₁.labels.counts = labels.counts ∧ s₁.labels.pending = labels.pending := by
      obtain ⟨-, ⟨-, rfl⟩ | ⟨-, -, rfl⟩⟩ := eq_of_nameDot hnamed
      · exact ⟨rfl, rfl⟩
      · exact ⟨rfl, rfl⟩
    obtain ⟨next, hlabels⟩ := labels_assemble c.written e s₁
    rw [leftBy_of_ok hassemble] at hlabels
    refine ⟨⟨text, ?_⟩, ?_, ?_⟩
    · unfold Call.text?
      rw [hresolve]
      rfl
    · rw [hlabels]
      exact hs₁.1.trans (by rw [hnoting]; rfl)
    · rw [hlabels]
      dsimp only
      rw [hs₁.2, hnoting]
      simp [Labels.noting]
  · rw [hrun] at h
    cases h

end

/-! ### Labels of a line -/

section

variable {s s₁ s' : Session}

/-- The labels in front of a line: each definition is counted and has a symbol at the end of the
section. -/
theorem labels_of_forM_addLabel {labels : List Label} (h : labels.forM addLabel s = .ok () s₁) :
    s₁.labels.pending = s.labels.pending ∧
      (∀ n, s₁.labels.count n = s.labels.count n + labels.count (.numbered n)) ∧
      ∀ n k, s.labels.count n ≤ k → k < s₁.labels.count n →
        s₁.contents.symbols[Label.localSymbol n k]? = some s.contents.items.size := by
  induction labels generalizing s with
  | nil =>
    cases h
    exact ⟨rfl, fun _ => rfl, fun n k hle hlt => by omega⟩
  | cons label labels ih =>
    obtain ⟨u, s₂, hlabel, hrest⟩ := run_bind_eq_ok_iff.1 h
    have hidles := idles_forM_addLabel labels s₂
    rw [leftBy_of_ok hrest] at hidles
    obtain ⟨hpending, hcounts, hsymbols⟩ := ih hrest
    cases label with
    | named name =>
      have hadd := addSymbol_eq name s
      rw [show addSymbol name s = .ok u s₂ from hlabel] at hadd
      split at hadd
      · cases hadd
      · cases hadd
        refine ⟨hpending, fun n => ?_, hsymbols⟩
        rw [hcounts n, List.count_cons_of_ne (by simp)]
        rfl
    | numbered m =>
      rw [addLabel_numbered_eq] at hlabel
      dsimp only at hlabel
      split at hlabel
      · cases hlabel
      cases hlabel
      have hcount : ∀ n, ((s.withCounted m).withSymbol
          (Label.localSymbol m (s.labels.count m))).labels.count n =
            if m = n then s.labels.count n + 1 else s.labels.count n :=
        s.labels.count_define m
      refine ⟨hpending, fun n => ?_, fun n k hle hlt => ?_⟩
      · rw [hcounts n, hcount n]
        by_cases hm : m = n
        · subst hm
          rw [if_pos rfl, List.count_cons_self]
          omega
        · rw [if_neg hm, List.count_cons_of_ne (by simpa using hm)]
      · by_cases hlater : ((s.withCounted m).withSymbol
            (Label.localSymbol m (s.labels.count m))).labels.count n ≤ k
        · exact hsymbols n k hlater hlt
        · rw [hcount n] at hlater
          obtain rfl : m = n := by
            by_contra hm
            rw [if_neg hm] at hlater
            exact hlater hle
          rw [if_pos rfl] at hlater
          obtain rfl : k = s.labels.count m := by omega
          exact hidles.symbols _ _ (by simp [withSymbol, withCounted])

/-- The operand text of a line, if it gives an instruction. -/
def operands (text : List Char) : List Char :=
  ((written? (Line.read text).statement).map Written.operands).getD []

theorem grows_statement (hcs : Catalogs.standard = .ok s.catalogs) (st : Statement) :
    Grows s (leftBy (statement st) s) := by
  cases hwritten : written? st with
  | none => exact (sets_statement_of_written? hwritten s).idles.toGrows
  | some w =>
    rw [leftBy_statement_of_written? hwritten]
    cases w with
    | instruction mnemonic operands => exact grows_instruction hcs mnemonic operands
    | fields text => exact grows_fieldInstruction hcs text

theorem exists_of_statement {st : Statement} {w : Written} (hw : written? st = some w) {u : Unit}
    (h : statement st s = .ok u s') : ∃ placed, w.run s = .ok placed s' := by
  cases st with
  | instruction mnemonic operands =>
    cases hw
    obtain ⟨placed, s₁, hrun, hpure⟩ := run_bind_eq_ok_iff.1 h
    cases hpure
    exact ⟨placed, hrun⟩
  | fields text =>
    cases hw
    obtain ⟨placed, s₁, hrun, hpure⟩ := run_bind_eq_ok_iff.1 h
    cases hpure
    exact ⟨placed, hrun⟩
  | _ => cases hw

/-- What a line leaves of labels and references. -/
structure LineLabels (text : List Char) (s s' : Session) : Prop where
  grows : Grows s s'
  counts : ∀ n, s'.labels.count n =
    s.labels.count n + (Line.read text).labels.count (.numbered n)
  symbols : ∀ n k, s.labels.count n ≤ k → k < s'.labels.count n →
    s'.contents.symbols[Label.localSymbol n k]? = some s.contents.items.size
  pending : s'.labels.pending.toList = s.labels.pending.toList ++
    (Labels.tokens (operands text)).filterMap s'.labels.forward?
  calls : ∀ c ∈ s.lineCalls text, c.written.operands = operands text ∧
    (∃ text, c.text? = some text) ∧ c.before.labels.counts = s'.labels.counts

/-- A line that is accepted defines its labels and notes its references. -/
theorem lineLabels_of_line (hcs : Catalogs.standard = .ok s.catalogs) {text : List Char}
    (h : line text s = .ok () s') : LineLabels text s s' := by
  obtain ⟨u, s₁, hlabels, hstatement⟩ := run_bind_eq_ok_iff.1 h
  have hidles := idles_forM_addLabel (Line.read text).labels s
  rw [leftBy_of_ok hlabels] at hidles
  have hgrows := grows_statement (hidles.catalogs ▸ hcs) (Line.read text).statement
  rw [leftBy_of_ok hstatement] at hgrows
  obtain ⟨hpending, hcounts, hsymbols⟩ := labels_of_forM_addLabel hlabels
  -- The statement keeps the definitions, so the references see those of the line itself.
  have hkeeps : s'.labels.counts = s₁.labels.counts ∧
      s'.labels.pending.toList = s₁.labels.pending.toList ++
        (Labels.tokens (operands text)).filterMap s₁.labels.forward? ∧
      ∀ c ∈ s.lineCalls text, c.written.operands = operands text ∧
        (∃ text, c.text? = some text) ∧ c.before.labels.counts = s₁.labels.counts := by
    unfold lineCalls operands
    rw [hlabels]
    dsimp only
    cases hwritten : written? (Line.read text).statement with
    | none =>
      have hsets := sets_statement_of_written? hwritten s₁
      rw [leftBy_of_ok hstatement] at hsets
      rw [hsets.labels]
      refine ⟨rfl, ?_, fun c hc => by cases hc⟩
      simp [Labels.tokens]
    | some w =>
      obtain ⟨placed, hrun⟩ := exists_of_statement hwritten hstatement
      obtain ⟨htext, hcounts', hpending'⟩ := Call.labels_of_ok (c := ⟨s₁, w⟩) hrun
      refine ⟨hcounts', hpending', fun c hc => ?_⟩
      obtain rfl : c = ⟨s₁, w⟩ := by simpa using hc
      exact ⟨rfl, htext, rfl⟩
  obtain ⟨hcounts', hpending', hcalls⟩ := hkeeps
  have hcount : ∀ n, s'.labels.count n = s₁.labels.count n := by
    intro n
    unfold Labels.count
    rw [hcounts']
  refine ⟨hidles.toGrows.trans hgrows, ?_, ?_, ?_, ?_⟩
  · intro n
    rw [hcount, hcounts]
  · intro n k hle hlt
    exact hgrows.symbols _ _ (hsymbols n k hle (hcount n ▸ hlt))
  · rw [hpending', hpending, Labels.forward?_congr hcounts']
  · intro c hc
    obtain ⟨hoperands, htext, hc'⟩ := hcalls c hc
    exact ⟨hoperands, htext, hc'.trans hcounts'.symm⟩

end

end Session

end RiscvAssembler
