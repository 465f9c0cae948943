import RiscvAssembler.Proofs.Session.Pending
import RiscvAssembler.Proofs.Session.References
import RiscvAssembler.Proofs.Session.Rejected

/-!
When rejected statements are inert. Requests tell sessions apart by whether an instruction was given,
by which symbols are defined and by references without a definition. So a rejected statement makes no
difference if and only if it leaves none of these (`rejected_statement_inert_iff`), which is not always
so (`rejected_reference_stays`).
-/

namespace RiscvAssembler

/-! ### Telling sessions apart -/

namespace Session

section

variable {s s' : Session}

theorem Indistinct.answer (h : Indistinct s s') (request : Request) :
    request.answer s = request.answer s' := by
  have hanswers := (h [request]).1
  exact (List.cons.inj hanswers).1

theorem line_of_label {name : List Char} {label : Label} (h : Label.read? name = some label)
    (hchars : ∀ c ∈ name, Text.isSymbolChar c = true) (s : Session) :
    line (name ++ [':']) s = addLabel label s := by
  have hline : line (name ++ [':']) s =
      ([label].forM addLabel >>= fun _ => pure () : AssemblerM Unit) s := by
    unfold line
    rw [Line.read_of_label h hchars]
    rfl
  rw [hline, run_bind_eq, List.forM_eq_forM, List.forM_cons, run_bind_eq]
  cases addLabel label s <;> rfl

theorem outcome_update (f : Session → Except Error Session) (s : Session) :
    outcome (update f) s = (f s).map fun _ => () := by
  unfold outcome
  rw [update_eq]
  cases f s <;> rfl

/-- A directive for the instruction set tells whether an instruction was given. -/
theorem Indistinct.started (h : Indistinct s s') : s'.started = s.started := by
  have hlate : ∀ s : Session, outcome (update (·.declareArch [])) s =
      .error (.directive .archAfterInstructions) ↔ s.started = true := by
    intro s
    rw [outcome_update]
    unfold declareArch useIsa
    cases s.started with
    | true => exact ⟨fun _ => rfl, fun _ => rfl⟩
    | false => cases Isa.parse s.config.versionOf [] <;> simp [Except.map]
  have hanswer := Answer.done.inj (h.answer (.declareArch []))
  have hiff : s'.started = true ↔ s.started = true := by
    rw [← hlate, ← hlate, hanswer]
  exact Bool.eq_iff_iff.2 hiff

/-- A label on a line of its own tells whether its symbol is defined. -/
theorem Indistinct.defines (h : Indistinct s s') {name : String}
    (hread : Label.read? name.toList = some (.named name))
    (hchars : ∀ c ∈ name.toList, Text.isSymbolChar c = true) :
    s'.contents.defines name = s.contents.defines name := by
  have hline : ∀ s : Session, outcome (line (name.toList ++ [':'])) s = .ok () ↔
      s.contents.defines name = false := by
    intro s
    unfold outcome
    rw [line_of_label hread hchars, addLabel, addSymbol_eq]
    cases s.contents.defines name with
    | true => exact ⟨(nomatch ·), (nomatch ·)⟩
    | false => exact ⟨fun _ => rfl, fun _ => rfl⟩
  have hanswer := Answer.done.inj (h.answer (.line (name.toList ++ [':'])))
  have hiff : s'.contents.defines name = false ↔ s.contents.defines name = false := by
    rw [← hline, ← hline, hanswer]
  exact Bool.not_inj (Bool.coe_false_iff_false.1 hiff)

/-- Defines numeric labels, each on a line of its own. -/
def labelRequests (labels : List Nat) : List Request :=
  labels.map fun (n : Nat) => .line (Text.decimal n ++ [':'])

theorem labels_of_labelRequests {labels : List Nat} (h : ∀ n ∈ labels, n < 2 ^ 32) (s : Session) :
    let s' := (labelRequests labels).foldl Request.run s
    s'.labels.pending = s.labels.pending ∧
      ∀ n, s'.labels.count n = s.labels.count n + labels.count n := by
  induction labels generalizing s with
  | nil => exact ⟨rfl, fun _ => rfl⟩
  | cons m labels ih =>
    obtain ⟨hm, hlabels⟩ := List.forall_mem_cons.1 h
    have hline : (leftBy (line (Text.decimal m ++ [':'])) s).labels = (s.labels.define m).2 := by
      unfold leftBy
      rw [line_of_label (Label.read?_decimal hm) fun c hc => Text.isSymbolChar_of_mem_decimal hc,
        addLabel_numbered_eq]
      dsimp only
      by_cases hdefined : s.contents.defines (Label.localSymbol m (s.labels.count m)) = true
      · rw [if_pos hdefined]
        rfl
      · rw [if_neg hdefined]
        rfl
    obtain ⟨hpending, hcount⟩ := ih hlabels (leftBy (line (Text.decimal m ++ [':'])) s)
    refine ⟨hpending.trans (by rw [hline]; rfl), fun n => ?_⟩
    refine (hcount n).trans ?_
    rw [hline, Labels.count_define]
    by_cases hn : m = n
    · subst hn
      rw [if_pos rfl, List.count_cons_self]
      omega
    · rw [if_neg hn, List.count_cons_of_ne hn]

/-- A reference to a definition that is still to come shows when all other labels are defined. -/
theorem Indistinct.pending (h : Indistinct s s') (hsound : s.labels.Sound)
    (hcounts : s'.labels.counts = s.labels.counts) {n : Nat}
    (hmem : (n, s.labels.count n) ∈ s'.labels.pending.toList) :
    (n, s.labels.count n) ∈ s.labels.pending.toList := by
  by_contra hnew
  let others := (s.labels.pending.toList.filter fun p => p.1 ≠ n).flatMap fun p =>
    List.replicate (p.2 + 1) p.1
  have hlt : ∀ m ∈ others, m < 2 ^ 32 := by
    intro m hm
    obtain ⟨p, hp, hm⟩ := List.mem_flatMap.1 hm
    rw [(List.mem_replicate.1 hm).2]
    exact (hsound p (List.mem_filter.1 hp).1).1
  have hnone : others.count n = 0 := by
    refine List.count_eq_zero.2 fun hm => ?_
    obtain ⟨p, hp, hm⟩ := List.mem_flatMap.1 hm
    have hne := (List.mem_filter.1 hp).2
    rw [← (List.mem_replicate.1 hm).2] at hne
    simp at hne
  have hmany : ∀ p ∈ s.labels.pending.toList, p.1 ≠ n → p.2 < others.count p.1 := by
    intro p hp hne
    have hinfix : List.replicate (p.2 + 1) p.1 <:+: others :=
      List.infix_of_mem_flatten (List.mem_map_of_mem
        (List.mem_filter.2 ⟨hp, by simpa using hne⟩))
    have hle := hinfix.sublist.count_le p.1
    rw [List.count_replicate_self] at hle
    exact hle
  obtain ⟨hpending, hcount⟩ := labels_of_labelRequests hlt s
  obtain ⟨hpending', hcount'⟩ := labels_of_labelRequests hlt s'
  have hfinish := (h (labelRequests others)).2.1
  have hundefined : ∃ name, ((labelRequests others).foldl Request.run s').finish =
      .error (.undefinedLocalLabel name) := by
    refine finish_undefined_iff.2 ⟨(n, s.labels.count n), by rw [hpending']; exact hmem, ?_⟩
    rw [hcount', hnone, Nat.add_zero]
    unfold Labels.count
    rw [hcounts]
  rw [← hfinish, finish_undefined_iff] at hundefined
  obtain ⟨p, hp, hle⟩ := hundefined
  rw [hpending] at hp
  rw [hcount] at hle
  by_cases hne : p.1 = n
  · have hp₂ := (hsound p hp).2
    rw [hne] at hle hp₂
    have heq : p = (n, s.labels.count n) := Prod.ext hne (by simp; omega)
    exact hnew (heq ▸ hp)
  · have := hmany p hp hne
    omega

theorem Reachable.sound {cs : Catalogs} (hcs : Catalogs.standard = .ok cs)
    (h : Reachable cs s) : s.labels.Sound := by
  obtain ⟨config, start, requests, hnew, rfl⟩ := h
  refine (trace_of_new hcs hnew requests).grows.sound ?_
  rw [(empty_of_new hnew).2]
  exact fun p hp => nomatch hp

theorem eq_of_statement {st : Statement} (hst : written? st = none) {er : Error}
    (h : statement st s = .error er s') : s' = s := by
  have hupdate : ∀ {f : Session → Except Error Session}, update f s = .error er s' → s' = s := by
    intro f h
    rw [update_eq] at h
    split at h
    · cases h
    · cases h
      rfl
  cases st with
  | nothing => cases h
  | option name => exact hupdate h
  | fields text => cases hst
  | setAttribute arguments => exact hupdate h
  | unknownDirective name =>
    cases h
    rfl
  | instruction mnemonic operands => cases hst

/-- Lines without a label are their statement. -/
theorem line_of_no_label {text : List Char} (h : (Line.read text).labels = []) (s : Session) :
    line text s = statement (Line.read text).statement s := by
  unfold line
  rw [h]
  rfl

theorem run_of_statement_error {st : Statement} {w : Written} (hw : written? st = some w)
    {er : Error} : statement st s = .error er s' ↔ w.run s = .error er s' := by
  have hdiscard : ∀ {x : AssemblerM (List Placed)},
      (x >>= fun _ => pure () : AssemblerM Unit) s = .error er s' ↔ x s = .error er s' := by
    intro x
    rw [run_bind_eq]
    cases x s with
    | ok placed s₁ => exact ⟨(nomatch ·), (nomatch ·)⟩
    | error e s₁ =>
      constructor
      · rintro ⟨⟩
        rfl
      · rintro ⟨⟩
        rfl
  cases st with
  | instruction mnemonic operands =>
    cases hw
    exact hdiscard
  | fields text =>
    cases hw
    exact hdiscard
  | _ => cases hw

theorem Indistinct.refl (s : Session) : Indistinct s s :=
  fun _ => ⟨rfl, rfl, rfl, rfl⟩

/-- What left only references that were noted before makes no difference. -/
theorem Residue.indistinct {tokens : List (List Char)} (h : Residue tokens s s')
    (hstarted : s'.started = s.started) (hdot : s'.labels.nextDot = s.labels.nextDot)
    (hupper : s'.labels.nextUpper = s.labels.nextUpper)
    (hsubset : ∀ p ∈ s'.labels.pending.toList, p ∈ s.labels.pending.toList) :
    Indistinct s s' := by
  obtain ⟨hframe, ⟨done, rest, -, hpending⟩, hsymbols⟩ := h
  have hsame : s'.contents.symbols = s.contents.symbols := by
    refine hsymbols.resolve_right fun hdot' => ?_
    rw [hdot] at hdot'
    exact absurd hdot'.1 (Nat.ne_of_lt (Nat.lt_succ_self _))
  rw [hstarted, hdot, hupper, hsame] at hframe
  rw [hpending] at hframe hsubset
  rw [hframe]
  refine indistinct_of_subset fun p hp => hsubset p ?_
  rw [Array.toList_append]
  exact List.mem_append_right _ hp

/-- A rejected instruction that is given again is rejected for another symbol, if the first time used
up a number; and else a label shows the symbol of the dot. -/
theorem Rejects.numbers_of_indistinct {tokens : List (List Char)} {er : Error} {s'' : Session}
    (h : Rejects s tokens er s') (hagain : Rejects s' tokens er s'') (hind : Indistinct s s') :
    s'.labels.nextDot = s.labels.nextDot ∧ s'.labels.nextUpper = s.labels.nextUpper := by
  constructor
  · by_contra hne
    obtain ⟨hnext, rfl | ⟨hfree, htaken⟩⟩ := h.dot hne
    · rcases hagain.name_of_duplicateSymbol with hname | hname
      · exact hne (Label.dotSymbol_inj.1 hname).symm
      · exact Label.dotSymbol_ne_upperLabel _ _ hname
    · have hsame := hind.defines (Label.read?_dotSymbol s.labels.nextDot) fun c hc =>
        Label.isSymbolChar_of_mem_dotSymbol hc
      rw [hfree, htaken] at hsame
      cases hsame
  · by_contra hne
    obtain ⟨hnext, rfl⟩ := h.upper hne
    rcases hagain.name_of_duplicateSymbol with hname | hname
    · exact Label.dotSymbol_ne_upperLabel _ _ hname.symm
    · exact hne (Expansion.upperLabel_inj.1 hname).symm

/-- **When a rejected statement is inert.** A statement without labels that is rejected, with an error
that does not end the session, leaves no more than its residue. Requests cannot tell the session from
the one before the statement exactly if the residue is empty to them: an instruction had been given
before or has still not been, no number for the symbol of a dot or the label of an upper part is used
up, and no reference pends that did not pend before. -/
theorem rejected_statement_inert_iff {cs : Catalogs} (hcs : Catalogs.standard = .ok cs)
    (hs : Reachable cs s) {text : List Char} (hlabels : (Line.read text).labels = []) {er : Error}
    (h : line text s = .error er s') (her : er.endsSession = false) :
    Residue (Labels.tokens (operands text)) s s' ∧
      (Indistinct s s' ↔ s'.started = s.started ∧ s'.labels.nextDot = s.labels.nextDot ∧
        s'.labels.nextUpper = s.labels.nextUpper ∧
        ∀ p ∈ s'.labels.pending.toList, p ∈ s.labels.pending.toList) := by
  have hline := line_of_no_label hlabels
  cases hwritten : written? (Line.read text).statement with
  | none =>
    rw [hline] at h
    obtain rfl := eq_of_statement hwritten h
    exact ⟨.refl _ _, iff_of_true (.refl _) ⟨rfl, rfl, rfl, fun _ hp => hp⟩⟩
  | some w =>
    have hoperands : operands text = w.operands := by simp [operands, hwritten]
    have hrejects : ∀ {s s' er}, line text s = .error er s' → er.endsSession = false →
        Rejects s (Labels.tokens w.operands) er s' := by
      intro s s' er h her
      rw [hline, run_of_statement_error hwritten] at h
      exact rejects_of_run h her
    have hfirst := hrejects h her
    have hresidue := hfirst.residue
    rw [hoperands]
    refine ⟨hresidue, ?_, ?_⟩
    · intro hind
      obtain ⟨s'', hagain⟩ : ∃ s'', line text s' = .error er s'' := by
        have hanswer := Answer.done.inj (hind.answer (.line text))
        unfold outcome at hanswer
        rw [h] at hanswer
        dsimp only at hanswer
        split at hanswer
        · cases hanswer
        · rename_i hagain
          cases hanswer
          exact ⟨_, hagain⟩
      obtain ⟨hdot, hupper⟩ := hfirst.numbers_of_indistinct (hrejects hagain her) hind
      refine ⟨hind.started, hdot, hupper, fun p hp => ?_⟩
      obtain ⟨hframe, ⟨done, rest, -, hpending⟩, -⟩ := hresidue
      have hcounts : s'.labels.counts = s.labels.counts := by rw [hframe]
      have hnoted := hp
      rw [hpending, Array.toList_append, List.mem_append, List.mem_filterMap] at hnoted
      rcases hnoted with hold | ⟨token, -, hforward⟩
      · exact hold
      · have hp₂ : p = (p.1, s.labels.count p.1) :=
          Prod.ext rfl (Labels.forward?_eq_some_iff.1 hforward).2
        rw [hp₂] at hp ⊢
        exact hind.pending (hs.sound hcs) hcounts hp
    · rintro ⟨hstarted, hdot, hupper, hsubset⟩
      exact hresidue.indistinct hstarted hdot hupper hsubset

end

/-! ### An unknown mnemonic -/

/-- A line with an unknown mnemonic is rejected once its references are noted. -/
theorem line_of_unknown {cs : Catalogs} (hcs : Catalogs.standard = .ok cs) {s : Session}
    (hs : s.catalogs = cs) {text operands operands' : List Char}
    (hread : Line.read text = ⟨[], .instruction "frob" operands⟩)
    (hresolve : (s.labels.resolve operands).2 = .ok operands') :
    ∃ er, er.endsSession = false ∧
      line text s = .error er (s.begun (s.labels.noting (Labels.tokens operands))) := by
  have hlookup : cs.instructions.lookup "frob" = [] := by
    rw [lookup_standard hcs]
    decide +kernel
  have hencode : ∃ cause, s.catalogs.instructions.encode (s.context true) "frob" operands' =
      .error cause := by
    rw [hs, Catalog.encode, hlookup]
    exact ⟨_, rfl⟩
  obtain ⟨cause, hcause⟩ := hencode
  refine ⟨.instruction cause, rfl, ?_⟩
  have hencodeIn : encodeIn Catalogs.instructions "frob" operands s =
      .error (.instruction cause) (s.begun (s.labels.noting (Labels.tokens operands))) := by
    rw [encodeIn_eq, Labels.resolve_of_ok hresolve]
    dsimp only
    rw [hcause]
  rw [line_of_no_label (by rw [hread]), hread]
  exact run_bind_eq_error_iff.2 (.inl (run_bind_eq_error_iff.2 (.inl hencodeIn)))

/-- Given again, an unknown mnemonic is inert: that an instruction was given is known already. -/
theorem rejected_statement_inert_iff_again :
    ∃ cs s s' er, Catalogs.standard = .ok cs ∧ Reachable cs s ∧
      (Line.read "frob a0".toList).labels = [] ∧ line "frob a0".toList s = .error er s' ∧
      er.endsSession = false ∧ Indistinct s s' := by
  obtain ⟨cs, hcs⟩ := Catalogs.exists_standard
  have hread : Line.read "frob a0".toList = ⟨[], .instruction "frob" "a0".toList⟩ := by
    decide +kernel
  have hplain : (Labels.empty.resolve "a0".toList).2.toOption = some "a0".toList := by
    decide +kernel
  have hnone : Labels.empty.noting (Labels.tokens "a0".toList) = .empty := by
    have hnone : (Labels.tokens "a0".toList).filterMap Labels.empty.forward? = [] := by
      decide +kernel
    unfold Labels.noting
    rw [hnone]
    rfl
  let s := (generalStart cs).begun .empty
  have hreachable : Reachable cs s := by
    obtain ⟨er, -, hline⟩ := line_of_unknown hcs (s := generalStart cs) rfl hread
      (eq_ok_of_toOption hplain)
    rw [show (generalStart cs).labels = .empty from rfl, hnone] at hline
    exact ⟨_, _, [.line "frob a0".toList], new_general cs, (leftBy_of_error hline).symm⟩
  obtain ⟨er, her, hline⟩ := line_of_unknown hcs (s := s) rfl hread (eq_ok_of_toOption hplain)
  have hlabels : (Line.read "frob a0".toList).labels = [] := by rw [hread]
  refine ⟨cs, s, _, er, hcs, hreachable, hlabels, hline, her,
    (rejected_statement_inert_iff hcs hreachable hlabels hline her).2.2 ⟨rfl, rfl, rfl, ?_⟩⟩
  rw [show s.labels.noting (Labels.tokens "a0".toList) = .empty from hnone]
  exact fun p hp => hp

/-- A rejected statement may keep a session from being finished: its reference stays. -/
theorem rejected_reference_stays :
    ∃ cs start s' er, Catalogs.standard = .ok cs ∧
      Session.new cs (.ofArch "rv64gc".toList) = .ok start ∧
      (Line.read "frob 1f".toList).labels = [] ∧ line "frob 1f".toList start = .error er s' ∧
      er.endsSession = false ∧ (∃ l, start.finish = .ok l) ∧
      s'.finish = .error (.undefinedLocalLabel "1f") ∧ ¬ Indistinct start s' := by
  obtain ⟨cs, hcs⟩ := Catalogs.exists_standard
  have hread : Line.read "frob 1f".toList = ⟨[], .instruction "frob" "1f".toList⟩ := by
    decide +kernel
  have hresolve : (Labels.empty.resolve "1f".toList).2.toOption = some ".Llocal1_0".toList := by
    decide +kernel
  obtain ⟨er, her, hline⟩ := line_of_unknown hcs (s := generalStart cs) rfl hread
    (eq_ok_of_toOption hresolve)
  have hlayout : Section.empty.layout.2.isOk = true := by decide +kernel
  obtain ⟨l, hl⟩ := exists_ok_of_isOk hlayout
  have hfinish : (generalStart cs).finish = .ok l := hl
  have hunresolved : (Labels.empty.noting (Labels.tokens "1f".toList)).unresolved? = some 1 := by
    decide +kernel
  have hundefined : ((generalStart cs).begun (Labels.empty.noting
      (Labels.tokens "1f".toList))).finish = .error (.undefinedLocalLabel "1f") := by
    have hname : Text.decimalText (1 : Nat) ++ "f" = "1f" := by decide +kernel
    have hlabels : ((generalStart cs).begun (Labels.empty.noting
        (Labels.tokens "1f".toList))).labels = Labels.empty.noting (Labels.tokens "1f".toList) := rfl
    unfold finish
    rw [hlabels, hunresolved]
    dsimp only
    rw [hname]
  refine ⟨cs, generalStart cs, _, er, hcs, new_general cs, by rw [hread], hline, her, ⟨l, hfinish⟩,
    hundefined, fun hind => ?_⟩
  have hsame := (hind []).2.1
  change (generalStart cs).finish = ((generalStart cs).begun _).finish at hsame
  rw [hfinish] at hsame
  cases hsame.trans hundefined

end Session

end RiscvAssembler
