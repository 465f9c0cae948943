import Mathlib.Data.List.Forall2
import Mathlib.Data.Nat.Find
import RiscvAssembler.Proofs.Session.Defects
import RiscvAssembler.Proofs.Session.Tokens

/-!
References to numeric labels, over all lines of a run. A reference is a token of the operands, and it
is meant for the nearest line that defines its label, backward or forward. What a reference is replaced
by has the address of that line, and a run cannot be finished only if some line is missing
(`references_find_their_definitions`).
-/

namespace RiscvAssembler

namespace Session

/-! ### Lines in order -/

/-- The session after the first `i` lines. -/
def afterLines (start : Session) (texts : List (List Char)) (i : Nat) : Session :=
  (texts.take i).foldl (fun s text => leftBy (line text) s) start

/-- Whether line `j` defines the numeric label `n`. -/
def DefinedAt (texts : List (List Char)) (n j : Nat) : Prop :=
  ∃ text, texts[j]? = some text ∧ .numbered n ∈ (Line.read text).labels

/-- Which line a reference in line `i` is meant for: backward, the last one up to `i` that defines
the label; forward, the first one after `i`. -/
def Meant (texts : List (List Char)) (n i j : Nat) : Direction → Prop
  | .backward => j ≤ i ∧ DefinedAt texts n j ∧ ∀ k, j < k → k ≤ i → ¬ DefinedAt texts n k
  | .forward => i < j ∧ DefinedAt texts n j ∧ ∀ k, i < k → k < j → ¬ DefinedAt texts n k

/-- Lines that were accepted one after the other, with the sessions between them. -/
def Accepted (texts : List (List Char)) (st : Nat → Session) : Prop :=
  ∀ i text, texts[i]? = some text → LineLabels text (st i) (st (i + 1))

theorem accepted_of_forM {start s : Session} {texts : List (List Char)}
    (hcs : Catalogs.standard = .ok start.catalogs) (h : texts.forM line start = .ok () s) :
    Accepted texts (afterLines start texts) ∧ afterLines start texts texts.length = s := by
  induction texts generalizing start with
  | nil =>
    cases h
    exact ⟨fun i text hi => (nomatch hi), rfl⟩
  | cons text texts ih =>
    obtain ⟨u, s₁, hline, hrest⟩ := run_bind_eq_ok_iff.1 h
    have hlabels := lineLabels_of_line hcs hline
    have hleft : leftBy (line text) start = s₁ := leftBy_of_ok hline
    obtain ⟨haccepted, hend⟩ := ih (hlabels.grows.catalogs ▸ hcs) hrest
    have hshift : ∀ i, afterLines start (text :: texts) (i + 1) = afterLines s₁ texts i := by
      intro i
      rw [afterLines, List.take_succ_cons, List.foldl_cons, hleft]
      rfl
    refine ⟨?_, (hshift _).trans hend⟩
    intro i text' hi
    cases i with
    | zero =>
      cases hi
      rw [hshift]
      exact hlabels
    | succ i =>
      rw [hshift, hshift]
      exact haccepted i text' hi

section

variable {texts : List (List Char)} {st : Nat → Session} {n i j : Nat}

theorem Accepted.grows (h : Accepted texts st) (hij : i ≤ j) (hj : j ≤ texts.length) :
    Grows (st i) (st j) := by
  induction hij with
  | refl => exact .refl _
  | @step j hij ih =>
    have hlt : j < texts.length := hj
    exact (ih (Nat.le_of_lt hlt)).trans (h j _ (List.getElem?_eq_getElem hlt)).grows

/-- A line that does not define a label leaves its number. -/
theorem Accepted.count_succ_of_not (h : Accepted texts st) (hi : i < texts.length)
    (hn : ¬ DefinedAt texts n i) : (st (i + 1)).labels.count n = (st i).labels.count n := by
  have htext := List.getElem?_eq_getElem hi
  rw [(h i _ htext).counts n, List.count_eq_zero.2 fun hmem => hn ⟨_, htext, hmem⟩, Nat.add_zero]

theorem Accepted.lt_count_succ (h : Accepted texts st) (hn : DefinedAt texts n i) :
    (st i).labels.count n < (st (i + 1)).labels.count n := by
  obtain ⟨text, htext, hmem⟩ := hn
  rw [(h i text htext).counts n]
  exact Nat.lt_add_of_pos_right (List.count_pos_iff.2 hmem)

theorem Accepted.count_of_not (h : Accepted texts st) (hij : i ≤ j) (hj : j ≤ texts.length)
    (hn : ∀ k, i ≤ k → k < j → ¬ DefinedAt texts n k) :
    (st j).labels.count n = (st i).labels.count n := by
  induction hij with
  | refl => rfl
  | @step j hij ih =>
    have hlt : j < texts.length := hj
    rw [h.count_succ_of_not hlt (hn j hij (Nat.lt_succ_self j))]
    exact ih (Nat.le_of_lt hlt) fun k hk hkj => hn k hk (Nat.lt_succ_of_lt hkj)

/-- The symbol of a definition stays where its line starts. -/
theorem Accepted.symbol (h : Accepted texts st) (hn : DefinedAt texts n j) {k : Nat}
    (hle : (st j).labels.count n ≤ k) (hlt : k < (st (j + 1)).labels.count n) :
    (st texts.length).contents.symbols[Label.localSymbol n k]? =
      some (st j).contents.items.size := by
  obtain ⟨text, htext, -⟩ := hn
  obtain ⟨hj, -⟩ := List.getElem?_eq_some_iff.1 htext
  exact (h.grows hj (Nat.le_refl _)).symbols _ _ ((h j text htext).symbols n k hle hlt)

/-- A label with definitions so far has a last one. -/
theorem Accepted.exists_backward (h : Accepted texts st) (hzero : (st 0).labels.count n = 0)
    (hi : i < texts.length) (hpos : (st (i + 1)).labels.count n ≠ 0) :
    ∃ j, Meant texts n i j .backward := by
  induction i with
  | zero =>
    refine ⟨0, Nat.le_refl 0, ?_, fun k hk hk' => by omega⟩
    by_contra hn
    rw [h.count_succ_of_not hi hn] at hpos
    exact hpos hzero
  | succ i ih =>
    by_cases hn : DefinedAt texts n (i + 1)
    · exact ⟨i + 1, Nat.le_refl _, hn, fun k hk hk' => by omega⟩
    · rw [h.count_succ_of_not hi hn] at hpos
      obtain ⟨j, hji, hj, hlast⟩ := ih (Nat.lt_of_succ_lt hi) hpos
      refine ⟨j, Nat.le_succ_of_le hji, hj, fun k hk hk' => ?_⟩
      rcases Nat.le_succ_iff.1 hk' with hk' | rfl
      · exact hlast k hk hk'
      · exact hn

/-- A label that is defined later on has a first such definition. -/
theorem exists_forward (hj : i < j) (hn : DefinedAt texts n j) :
    ∃ j, Meant texts n i j .forward := by
  classical
  have hexists : ∃ j, i < j ∧ DefinedAt texts n j := ⟨j, hj, hn⟩
  obtain ⟨hlt, hdefined⟩ := Nat.find_spec hexists
  refine ⟨Nat.find hexists, hlt, hdefined, fun k hk hlt' hk' => ?_⟩
  exact Nat.find_min hexists hlt' ⟨hk, hk'⟩

/-- The symbol that stands for a backward reference has the place of the line that is meant. -/
theorem Accepted.symbol_of_backward (h : Accepted texts st) (hi : i < texts.length)
    (hmeant : Meant texts n i j .backward) :
    (st texts.length).contents.symbols[Label.localSymbol n
      ((st (i + 1)).labels.count n - 1)]? = some (st j).contents.items.size := by
  obtain ⟨hji, hdefined, hlast⟩ := hmeant
  have hsame : (st (i + 1)).labels.count n = (st (j + 1)).labels.count n :=
    h.count_of_not (Nat.succ_le_succ hji) hi fun k hk hk' => hlast k hk (Nat.le_of_lt_succ hk')
  have hlt := h.lt_count_succ hdefined
  exact h.symbol hdefined (by omega) (by omega)

/-- So has the symbol for a forward reference: its number is that of the next definition. -/
theorem Accepted.symbol_of_forward (h : Accepted texts st) (hmeant : Meant texts n i j .forward) :
    (st texts.length).contents.symbols[Label.localSymbol n
      ((st (i + 1)).labels.count n)]? = some (st j).contents.items.size := by
  obtain ⟨hij, hdefined, hfirst⟩ := hmeant
  have hlt := h.lt_count_succ hdefined
  have hsame : (st j).labels.count n = (st (i + 1)).labels.count n := by
    obtain ⟨text, htext, -⟩ := hdefined
    obtain ⟨hj, -⟩ := List.getElem?_eq_some_iff.1 htext
    exact h.count_of_not hij (Nat.le_of_lt hj) hfirst
  exact h.symbol hdefined (by omega) (by omega)

/-- The references noted in a run are those to later definitions in its lines. -/
theorem Accepted.mem_pending_iff (h : Accepted texts st) (hempty : (st 0).labels.pending = #[])
    (hj : j ≤ texts.length) {p : Nat × Nat} :
    p ∈ (st j).labels.pending.toList ↔
      ∃ i < j, ∃ text token, texts[i]? = some text ∧ token ∈ Labels.tokens (operands text) ∧
        Label.reference? token = some (p.1, .forward) ∧
        p.2 = (st (i + 1)).labels.count p.1 := by
  induction j with
  | zero => simp [hempty]
  | succ j ih =>
    have hlt : j < texts.length := hj
    have htext := List.getElem?_eq_getElem hlt
    rw [(h j _ htext).pending, List.mem_append, ih (Nat.le_of_lt hlt), List.mem_filterMap]
    constructor
    · rintro (⟨i, hi, hreference⟩ | ⟨token, htoken, hforward⟩)
      · exact ⟨i, Nat.lt_succ_of_lt hi, hreference⟩
      · obtain ⟨hreference, hcount⟩ := Labels.forward?_eq_some_iff.1 hforward
        exact ⟨j, Nat.lt_succ_self j, _, token, htext, htoken, hreference, hcount⟩
    · rintro ⟨i, hi, text, token, htext', htoken, hreference, hcount⟩
      rcases Nat.lt_succ_iff_lt_or_eq.1 hi with hi | rfl
      · exact .inl ⟨i, hi, text, token, htext', htoken, hreference, hcount⟩
      · cases htext.symm.trans htext'
        exact .inr ⟨token, htoken, Labels.forward?_eq_some_iff.2 ⟨hreference, hcount⟩⟩

end

/-! ### Finished runs -/

theorem finish_undefined_iff {s : Session} :
    (∃ name, s.finish = .error (.undefinedLocalLabel name)) ↔
      ∃ p ∈ s.labels.pending.toList, s.labels.count p.1 ≤ p.2 := by
  unfold finish
  rw [unresolved?_eq_find?]
  cases hfind : s.labels.pending.find? fun p => s.labels.count p.1 ≤ p.2 with
  | some p =>
    have hmem := Array.mem_of_find?_eq_some hfind
    have hcount := Array.find?_some hfind
    exact ⟨fun _ => ⟨p, hmem.val, by simpa using hcount⟩, fun _ => ⟨_, rfl⟩⟩
  | none =>
    constructor
    · rintro ⟨name, hlayout⟩
      exact absurd hlayout (Section.layout_ne_undefinedLocalLabel s.contents name)
    · rintro ⟨p, hmem, hcount⟩
      have := Array.find?_eq_none.1 hfind p ⟨hmem⟩
      exact absurd (by simpa using hcount) this

/-- Whether `word` stands for `token` in the operands of line `i`: a reference is replaced by a symbol
that has the address of the line that is meant, and nothing else is changed. -/
def StandsFor (texts : List (List Char)) (address : Nat → Nat) (l : Layout) (i : Nat)
    (token word : List Char) : Prop :=
  (∀ n direction, Label.IsReference token n direction → ∃ symbol j, word = symbol.toList ∧
      Meant texts n i j direction ∧ l.symbols.lookup symbol = some (address j)) ∧
    ((∀ n direction, ¬ Label.IsReference token n direction) → word = token)

/-- What stands between tokens is kept. -/
theorem StandsFor.eq_of_other {texts : List (List Char)} {address : Nat → Nat} {l : Layout} {i : Nat}
    {token word : List Char} (h : StandsFor texts address l i token word)
    (hother : ∀ c ∈ token, ¬ Text.IsSymbolic c) : word = token := by
  refine h.2 fun n direction hreference => ?_
  have hsymbolic := Text.isSymbolic_of_isReference hreference
  obtain ⟨digits, rfl, -⟩ := hreference
  have hlast : direction.letter ∈ digits ++ [direction.letter] := by simp
  exact hother _ hlast (hsymbolic _ hlast)

section

variable {texts : List (List Char)} {st : Nat → Session}

/-- A run cannot be finished if and only if it has a reference without a later definition. -/
theorem Accepted.undefined_iff (h : Accepted texts st) (hempty : (st 0).labels.pending = #[]) :
    (∃ name, (st texts.length).finish = .error (.undefinedLocalLabel name)) ↔
      ∃ i text n, texts[i]? = some text ∧
        (∃ token, Text.HasToken (operands text) token ∧ Label.IsReference token n .forward) ∧
        ∀ j, i < j → ¬ DefinedAt texts n j := by
  simp only [Labels.exists_reference_iff]
  rw [finish_undefined_iff]
  constructor
  · rintro ⟨p, hmem, hle⟩
    obtain ⟨i, hi, text, token, htext, htoken, hreference, hcount⟩ :=
      (h.mem_pending_iff hempty (Nat.le_refl _)).1 hmem
    refine ⟨i, text, p.1, htext, ⟨token, htoken, Label.reference?_eq_some_iff.1 hreference⟩, ?_⟩
    intro j hij hdefined
    have hlt := h.lt_count_succ hdefined
    obtain ⟨text', htext', -⟩ := hdefined
    obtain ⟨hj, -⟩ := List.getElem?_eq_some_iff.1 htext'
    have hbefore := (h.grows hij (Nat.le_of_lt hj)).counts p.1
    have hafter := (h.grows hj (Nat.le_refl _)).counts p.1
    rw [hcount] at hle
    exact absurd (Nat.lt_of_le_of_lt hbefore (Nat.lt_of_lt_of_le hlt hafter)) (Nat.not_lt.2 hle)
  · rintro ⟨i, text, n, htext, ⟨token, htoken, hreference⟩, hnone⟩
    obtain ⟨hi, -⟩ := List.getElem?_eq_some_iff.1 htext
    refine ⟨(n, (st (i + 1)).labels.count n), (h.mem_pending_iff hempty (Nat.le_refl _)).2
      ⟨i, hi, text, token, htext, htoken, Label.reference?_eq_some_iff.2 hreference, rfl⟩, ?_⟩
    exact Nat.le_of_eq (h.count_of_not hi (Nat.le_refl _) fun k hk _ => hnone k hk)

/-- In a run that can be finished, every token is replaced as it should be. -/
theorem Accepted.standsFor (h : Accepted texts st) (hempty : (st 0).labels.pending = #[])
    (hzero : ∀ n, (st 0).labels.count n = 0) (hbounded : (st texts.length).contents.Bounded)
    {l : Layout} (hfinish : (st texts.length).finish = .ok l) {i : Nat} {text token word : List Char}
    (htext : texts[i]? = some text) (htoken : token ∈ Labels.tokens (operands text))
    (hword : (st (i + 1)).labels.word? token = some word) :
    StandsFor texts (fun j => startOf (st texts.length).contents.layout.1.items.toList
      (st j).contents.items.size) l i token word := by
  obtain ⟨mid, pieces, hlaid⟩ := exists_laidOut_of_finish hfinish
  obtain ⟨hi, -⟩ := List.getElem?_eq_some_iff.1 htext
  unfold Labels.word? at hword
  refine ⟨?_, ?_⟩
  · intro n direction hreference
    rw [Label.reference?_eq_some_iff.2 hreference] at hword
    cases direction with
    | backward =>
      dsimp only at hword
      split at hword
      · cases hword
      · rename_i hpos
        cases hword
        obtain ⟨j, hmeant⟩ := h.exists_backward (hzero n) hi hpos
        refine ⟨_, j, rfl, hmeant, ?_⟩
        rw [hlaid.lookup_symbols hbounded, h.symbol_of_backward hi hmeant, Option.map_some]
    | forward =>
      cases hword
      -- Without a later definition the run could not be finished.
      obtain ⟨j, hmeant⟩ : ∃ j, Meant texts n i j .forward := by
        by_contra hnone
        have hnever : ∀ j, i < j → ¬ DefinedAt texts n j :=
          fun j hij hdefined => hnone (exists_forward hij hdefined)
        obtain ⟨name, herror⟩ :=
          (h.undefined_iff hempty).2 ⟨i, text, n, htext,
            Labels.exists_reference_iff.2 ⟨token, htoken, hreference⟩, hnever⟩
        rw [hfinish] at herror
        cases herror
      refine ⟨_, j, rfl, hmeant, ?_⟩
      rw [hlaid.lookup_symbols hbounded, h.symbol_of_forward hmeant, Option.map_some]
  · intro hnone
    cases hreference : Label.reference? token with
    | none =>
      rw [hreference] at hword
      exact (Option.some.inj hword).symm
    | some found => exact absurd (Label.reference?_eq_some_iff.1 hreference) (hnone _ _)

end

/-- **Numeric references find their definitions.** Suppose that a new session accepts some lines. It
cannot be finished if and only if the operands of a line have a token `Nf`, and no later line defines
`N`. If it is finished, every token `Nb` in the operands of an instruction is replaced by a symbol with
the address of the last line so far that defines `N`, its own line included, and every token `Nf` by
one with the address of the first line after it that does; no other token and no character between
tokens is changed. -/
theorem references_find_their_definitions {cs : Catalogs} (hcs : Catalogs.standard = .ok cs)
    {config : Config} {start : Session} (hnew : Session.new cs config = .ok start)
    (ev : Evaluator) {texts : List (List Char)} {s : Session}
    (hrun : texts.forM line { start with evaluator := ev } = .ok () s) :
    ((∃ name, s.finish = .error (.undefinedLocalLabel name)) ↔
        ∃ i text n, texts[i]? = some text ∧
          (∃ token, Text.HasToken (operands text) token ∧ Label.IsReference token n .forward) ∧
          ∀ j, i < j → ¬ DefinedAt texts n j) ∧
      ∀ l, s.finish = .ok l →
        let st := afterLines { start with evaluator := ev } texts
        let address j := startOf s.contents.layout.1.items.toList (st j).contents.items.size
        ∀ i text c, texts[i]? = some text → c ∈ (st i).lineCalls text →
          c.written.operands = operands text ∧ ∃ replaced, c.text? = some replaced ∧
            Text.Rewritten (StandsFor texts address l i) (operands text) replaced := by
  have hcs' : Catalogs.standard = .ok { start with evaluator := ev }.catalogs :=
    (settled_new hnew false).catalogs ▸ hcs
  obtain ⟨haccepted, rfl⟩ := accepted_of_forM hcs' hrun
  obtain ⟨hcontents, hlabels⟩ := empty_of_new hnew
  have hempty : start.labels.pending = #[] := by rw [hlabels]; rfl
  have hzero : ∀ n, start.labels.count n = 0 := by rw [hlabels]; exact fun _ => rfl
  have hbounded : start.contents.Bounded := by rw [hcontents]; exact Section.bounded_build []
  refine ⟨haccepted.undefined_iff hempty, ?_⟩
  intro l hfinish st address i text c htext hc
  obtain ⟨hoperands, ⟨text', htext'⟩, hcounts⟩ := (haccepted i text htext).calls c hc
  obtain ⟨words, rfl, hwords⟩ := Labels.words_of_resolveTokens (eq_ok_of_toOption htext')
  refine ⟨hoperands, words.flatten, htext', ?_⟩
  rw [Labels.word?_congr hcounts, hoperands] at hwords
  have htokens := (List.forall₂_and_left _ _).2 ⟨fun token h => h, hwords⟩
  have hstands := htokens.imp fun token word h => haccepted.standsFor hempty hzero
    ((haccepted.grows (Nat.zero_le _) (Nat.le_refl _)).bounded hbounded) hfinish htext h.1 h.2
  rw [← Labels.flatten_tokens (operands text)]
  exact (Labels.runs_tokens _).rewritten hstands fun run word h hrun => h.eq_of_other hrun

/-! ### A label that is defined twice -/

section

variable {labels : List Label} {text operands operands' : List Char} {mnemonic : String}
  {s s₁ : Session} {bits : Word} {name : String} {addend : Int64} {kind : RelocType}
  {k : BranchKind}

/-- A line with a branch, references replaced. -/
theorem line_of_resolve (hread : Line.read text = ⟨labels, .instruction mnemonic operands⟩)
    (hlabels : labels.forM addLabel s = .ok () s₁)
    (hresolve : (s₁.labels.resolve operands).2 = .ok operands')
    (houtline : (s₁.catalogs.instructions.encode (s₁.context true) mnemonic
      operands').toOption.map Encoded.outline =
        some (none, bits, some (.symbol name addend), some kind))
    (hname : name ≠ ".") (hk : BranchKind.ofReloc? kind = some k) :
    line text s = .ok () ((s₁.begun (s₁.labels.noting (Labels.tokens operands))).withItem
      (.branch (.new k bits name addend) s₁.options.relax)) := by
  obtain ⟨e, hencode, hreal, rfl, himm, hreloc⟩ := exists_of_outline houtline
  have hdot : e.dotAddend? = none := by simp [Encoded.dotAddend?, himm, hname]
  have hencoded : encodeIn Catalogs.instructions mnemonic operands s₁ =
      .ok e (s₁.begun (s₁.labels.noting (Labels.tokens operands))) := by
    rw [encodeIn_eq, Labels.resolve_of_ok hresolve]
    dsimp only
    rw [hencode]
    dsimp only
    rw [nameDot_eq, hdot]
  obtain ⟨placed, hplaced⟩ := place_of_branch himm hreloc hk
    (s₁.begun (s₁.labels.noting (Labels.tokens operands)))
  unfold line
  rw [hread, run_bind hlabels]
  dsimp only [statement]
  unfold instruction
  rw [bind_assoc, run_bind hencoded, hreal]
  dsimp only
  rw [bind_assoc, run_bind hplaced]
  rfl

end

/-- The lines of a label that is defined twice, with a reference to the later definition before
each. -/
def twiceLines : List (List Char) :=
  ["1: beqz a0, 1f".toList, "1: bnez a0, 1b".toList]

/-- The section of these lines. -/
def twice : Section :=
  ⟨#[.branch (.new .shortBranch 0xc101 (Label.localSymbol 1 1) 0) true,
      .branch (.new .shortBranch 0xe101 (Label.localSymbol 1 1) 0) true],
    ((∅ : Std.TreeMap String Nat).insert (Label.localSymbol 1 0) 0).insert
      (Label.localSymbol 1 1) 1⟩

theorem forM_twiceLines {cs : Catalogs} (hcs : Catalogs.standard = .ok cs) :
    ∃ s, twiceLines.forM line (generalStart cs) = .ok () s ∧ s.contents = twice ∧
      s.labels.unresolved? = none := by
  have hbeqz : (cs.instructions.encode ⟨generalIsa, true, false, true, .basic⟩ "beqz"
      "a0, .Llocal1_1".toList).toOption.map Encoded.outline =
        some (none, 0xc101#64, some (.symbol (Label.localSymbol 1 1) 0), some .rvcBranch) := by
    rw [Catalog.encode, lookup_standard hcs]
    decide +kernel
  have hbnez : (cs.instructions.encode ⟨generalIsa, true, false, true, .basic⟩ "bnez"
      "a0, .Llocal1_1".toList).toOption.map Encoded.outline =
        some (none, 0xe101#64, some (.symbol (Label.localSymbol 1 1) 0), some .rvcBranch) := by
    rw [Catalog.encode, lookup_standard hcs]
    decide +kernel
  let l₁ := (Labels.empty.define 1).2
  let l₂ := ((l₁.noting (Labels.tokens "a0, 1f".toList)).define 1).2
  let s₁ := ((generalStart cs).withCounted 1).withSymbol (Label.localSymbol 1 0)
  let s₂ := (s₁.begun (l₁.noting (Labels.tokens "a0, 1f".toList))).withItem
    (.branch (.new .shortBranch 0xc101 (Label.localSymbol 1 1) 0) true)
  let s₃ := (s₂.withCounted 1).withSymbol (Label.localSymbol 1 1)
  have hlabels₁ : [Label.numbered 1].forM addLabel (generalStart cs) = .ok () s₁ := by
    have hfree : Section.empty.defines (Label.localSymbol 1 0) = false := by decide +kernel
    have hadd : addLabel (.numbered 1) (generalStart cs) = .ok () s₁ := by
      rw [addLabel_numbered_eq]
      exact if_neg (by rw [← Bool.not_eq_true] at hfree; exact hfree)
    exact run_bind hadd
  have hresolve₁ : (l₁.resolve "a0, 1f".toList).2.toOption = some "a0, .Llocal1_1".toList := by
    decide +kernel
  have hline₁ : line "1: beqz a0, 1f".toList (generalStart cs) = .ok () s₂ :=
    line_of_resolve (by decide +kernel : Line.read _ =
      ⟨[.numbered 1], .instruction "beqz" "a0, 1f".toList⟩) hlabels₁ (eq_ok_of_toOption hresolve₁)
      hbeqz (by decide +kernel) rfl
  have hlabels₂ : [Label.numbered 1].forM addLabel s₂ = .ok () s₃ := by
    have hfree : (⟨#[], (∅ : Std.TreeMap String Nat).insert (Label.localSymbol 1 0) 0⟩ :
        Section).defines (Label.localSymbol 1 1) = false := by decide +kernel
    have hcount : (l₁.noting (Labels.tokens "a0, 1f".toList)).count 1 = 1 := by decide +kernel
    have hadd : addLabel (.numbered 1) s₂ = .ok () s₃ := by
      rw [addLabel_numbered_eq]
      change (if s₂.contents.defines (Label.localSymbol 1
        ((l₁.noting (Labels.tokens "a0, 1f".toList)).count 1)) = true then _ else _) = _
      rw [hcount]
      exact if_neg (by rw [← Bool.not_eq_true] at hfree; exact hfree)
    exact run_bind hadd
  have hresolve₂ : (l₂.resolve "a0, 1b".toList).2.toOption = some "a0, .Llocal1_1".toList := by
    decide +kernel
  have hline₂ : line "1: bnez a0, 1b".toList s₂ =
      .ok () ((s₃.begun (l₂.noting (Labels.tokens "a0, 1b".toList))).withItem
        (.branch (.new .shortBranch 0xe101 (Label.localSymbol 1 1) 0) true)) :=
    line_of_resolve (by decide +kernel : Line.read _ =
      ⟨[.numbered 1], .instruction "bnez" "a0, 1b".toList⟩) hlabels₂ (eq_ok_of_toOption hresolve₂)
      hbnez (by decide +kernel) rfl
  refine ⟨_, (run_bind hline₁).trans (run_bind hline₂), rfl, ?_⟩
  have hfound : (l₂.noting (Labels.tokens "a0, 1b".toList)).unresolved? = none := by decide +kernel
  exact hfound

/-- A label that is defined twice. -/
theorem references_find_their_definitions_twice :
    ∃ cs start s l, Catalogs.standard = .ok cs ∧
      Session.new cs (.ofArch "rv64gc".toList) = .ok start ∧
      twiceLines.forM line { start with evaluator := .basic } = .ok () s ∧ s.finish = .ok l ∧
      l.symbols.length = 2 ∧ l.fixups.length = 2 ∧
      ∀ i text c, twiceLines[i]? = some text →
        c ∈ (afterLines { start with evaluator := .basic } twiceLines i).lineCalls text →
          c.written.operands = operands text ∧ ∃ replaced, c.text? = some replaced ∧
            Text.Rewritten (StandsFor twiceLines (fun j => startOf s.contents.layout.1.items.toList
                (afterLines { start with evaluator := .basic } twiceLines j).contents.items.size) l i)
              (operands text) replaced := by
  obtain ⟨cs, hcs⟩ := Catalogs.exists_standard
  obtain ⟨s, hrun, hcontents, hlabels⟩ := forM_twiceLines hcs
  have hlayout : twice.layout.2.toOption.map (fun l => (l.symbols.length, l.fixups.length)) =
      some (2, 2) := by decide +kernel
  obtain ⟨l, hl, hlengths⟩ := Option.map_eq_some_iff.1 hlayout
  obtain ⟨hsymbols, hfixups⟩ := Prod.mk.inj hlengths
  have hfinish : s.finish = .ok l := by
    unfold finish
    rw [hlabels, hcontents]
    exact eq_ok_of_toOption hl
  exact ⟨cs, generalStart cs, s, l, hcs, new_general cs, hrun, hfinish, hsymbols, hfixups,
    (references_find_their_definitions hcs (new_general cs) .basic hrun).2 l hfinish⟩

end Session

end RiscvAssembler
