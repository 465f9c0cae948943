import RiscvAssembler.Proofs.Isa.Listing

/-!
Where rejected ISA strings point. Every stage of the reader names part of the text it was given
(`PointsInto`), and a later stage is given the end of it. The checks across subsets name a letter on
their own; it stands in the string because every subset but those of the first letter is written out
(`Added`). So each rejection is about part of the string (`rejection_points_into_string`), which is
empty only where nothing stands after the base.
-/

namespace RiscvAssembler

namespace Isa

namespace Reader

/-- A reading whose fault, if it has one, concerns part of a text, and not an empty one. -/
def PointsInto {α : Type} (s : List Char) (r : Result α) : Prop :=
  ∀ fault text, r = .error (fault, text) → text <:+: s ∧ text ≠ []

section

variable {α β : Type} {s t : List Char} {r : Result α}

theorem pointsInto_ok (a : α) : PointsInto s (.ok a) := by
  intro fault text h
  cases h

theorem pointsInto_error {fault : IsaFault} (h : t <:+: s) (hne : t ≠ []) :
    PointsInto s (.error (fault, t) : Result α) := by
  intro fault' text he
  cases he
  exact ⟨h, hne⟩

theorem PointsInto.mono (h : PointsInto t r) (hts : t <:+: s) : PointsInto s r :=
  fun fault text he => (h fault text he).imp_left (·.trans hts)

theorem PointsInto.bind {f : α → Result β} (h : PointsInto s r)
    (hf : ∀ a, r = .ok a → PointsInto s (f a)) : PointsInto s (r >>= f) := by
  cases hr : r with
  | ok a => exact hf a hr
  | error e =>
    obtain ⟨fault, text⟩ := e
    exact pointsInto_error (h fault text hr).1 (h fault text hr).2

end

/-! ### Versions -/

theorem pointsInto_number (s : List Char) : PointsInto s (number s) := by
  unfold number
  split
  · exact pointsInto_ok _
  · rename_i hdigits
    split
    · exact pointsInto_ok _
    · refine pointsInto_error (List.infix_refl s) ?_
      rintro rfl
      cases hdigits

theorem pointsInto_version (afterLetter : Bool) (s : List Char) :
    PointsInto s (version afterLetter s) := by
  refine (pointsInto_number s).bind fun ⟨major, rest⟩ hmajor => ?_
  have hrest := suffix_of_number hmajor
  dsimp only
  split
  · rename_i rest'
    have hafter : rest' <:+: s := ((List.suffix_cons _ _).trans hrest).isInfix
    split
    · exact ((pointsInto_number rest').mono hafter).bind fun _ _ => pointsInto_ok _
    · split
      · exact pointsInto_ok _
      · refine pointsInto_error (List.infix_refl s) ?_
        rintro rfl
        exact List.cons_ne_nil _ _ (List.suffix_nil.1 hrest)
  · exact pointsInto_ok _

/-! ### Stages -/

variable {lookup : KnownVersions}

theorem pointsInto_base {arch : List Char} (harch : arch ≠ []) : PointsInto arch (base arch) := by
  unfold base
  split
  · exact pointsInto_error (List.infix_refl arch) harch
  · split
    · exact pointsInto_error (List.infix_refl arch) harch
    · split
      · exact pointsInto_ok _
      · exact pointsInto_ok _
      · exact pointsInto_error (List.infix_refl arch) harch

theorem pointsInto_first {s : List Char} (hs : s ≠ []) : PointsInto s (first lookup s) := by
  unfold first
  split
  · rename_i rest
    refine ((pointsInto_version true rest).mono (List.suffix_cons _ _).isInfix).bind fun _ _ => ?_
    exact pointsInto_ok _
  · rename_i rest
    refine ((pointsInto_version true rest).mono (List.suffix_cons _ _).isInfix).bind
      fun ⟨v, after⟩ hv => ?_
    have hafter : after <:+ 'e' :: rest := (of_version hv).2.trans (List.suffix_cons _ _)
    dsimp only
    split
    · rename_i next hnext
      have hnext' : 'i' :: next <:+ after := by
        rw [← hnext]
        split
        · exact List.suffix_cons _ _
        · exact List.suffix_refl _
      have hsuffix : next <:+ 'e' :: rest := (List.suffix_cons _ _).trans (hnext'.trans hafter)
      exact ((pointsInto_version true next).mono hsuffix.isInfix).bind fun _ _ => pointsInto_ok _
    · exact pointsInto_ok _
  · rename_i rest
    refine ((pointsInto_version true rest).mono (List.suffix_cons _ _).isInfix).bind fun _ _ => ?_
    exact pointsInto_ok _
  · exact pointsInto_error (List.infix_refl s) hs

theorem pointsInto_letters (rank : Nat) (ss : List Subset) (s : List Char) :
    PointsInto s (letters lookup rank ss s) := by
  fun_induction letters lookup rank ss s with
  | case1 rank ss => exact pointsInto_ok _
  | case2 rank ss rest ih => exact ih.mono (List.suffix_cons _ _).isInfix
  | case3 => exact pointsInto_ok _
  | case4 => exact pointsInto_error (List.infix_refl _) (List.cons_ne_nil _ _)
  | case5 => exact pointsInto_error (List.infix_refl _) (List.cons_ne_nil _ _)
  | case6 => exact pointsInto_error (List.infix_refl _) (List.cons_ne_nil _ _)
  | case7 rank ss c rest _ _ _ r _ _ e hv =>
    intro fault text he
    cases he
    exact (pointsInto_version true rest _ _ hv).imp_left (·.trans (List.suffix_cons _ _).isInfix)
  | case8 rank ss c rest _ _ _ r _ _ v after hv _ ih =>
    exact ih.mono ((of_version hv).2.trans (List.suffix_cons _ _)).isInfix

theorem pointsInto_separated (s : List Char) : PointsInto s (separated s) := by
  unfold separated
  split
  · exact pointsInto_ok _
  · split
    · exact pointsInto_ok _
    · exact pointsInto_error (List.infix_refl _) (List.cons_ne_nil _ _)

theorem pointsInto_names (cls : ExtensionClass) {letter : Char} (hletter : isNameChar letter = true)
    (last : Option String) (ss : List Subset) (s : List Char) :
    PointsInto s (names lookup cls letter last ss s) := by
  have hname : ∀ {c rest}, ¬c ≠ letter → (c :: rest).takeWhile isNameChar ≠ [] := by
    intro c rest hc
    rw [not_not.1 hc, List.takeWhile_cons_of_pos hletter]
    exact List.cons_ne_nil _ _
  fun_induction names lookup cls letter last ss s with
  | case1 => exact pointsInto_ok _
  | case2 => exact pointsInto_ok _
  | case3 last ss c rest hc =>
    exact pointsInto_error (List.takeWhile_prefix _).isInfix (hname hc)
  | case4 last ss c rest hc =>
    exact pointsInto_error (List.takeWhile_prefix _).isInfix (hname hc)
  | case5 last ss c rest hc =>
    exact pointsInto_error (List.takeWhile_prefix _).isInfix (hname hc)
  | case6 last ss c rest _ chars name _ _ _ e hv =>
    intro fault text he
    cases he
    exact (pointsInto_version false _ _ _ hv).imp_left (·.trans (List.dropWhile_suffix _).isInfix)
  | case7 last ss c rest _ chars name _ _ _ v after hv e hs =>
    intro fault text he
    cases he
    have hafter := (of_version hv).2.trans (List.dropWhile_suffix _)
    exact (pointsInto_separated _ _ _ hs).imp_left (·.trans hafter.isInfix)
  | case8 last ss c rest _ chars name _ _ _ v after hv next hs _ ih =>
    have hafter := (of_version hv).2.trans (List.dropWhile_suffix _)
    exact ih.mono ((suffix_of_separated hs).trans hafter).isInfix

/-! ### Subsets that are written out -/

/-- Subsets after others, each of them written in a text and none of them the base `e`. -/
def Added (s : List Char) (ss out : List Subset) : Prop :=
  ∃ new, out = ss ++ new ∧ ∀ t ∈ new, t.name.toList <:+: s ∧ t.name ≠ "e"

section

variable {s s' : List Char} {ss mid out : List Subset}

theorem Added.refl (s : List Char) (ss : List Subset) : Added s ss ss :=
  ⟨[], (List.append_nil ss).symm, List.forall_mem_nil _⟩

theorem Added.mono (h : Added s ss out) (hs : s <:+: s') : Added s' ss out := by
  obtain ⟨new, hout, hnew⟩ := h
  exact ⟨new, hout, fun t ht => ⟨(hnew t ht).1.trans hs, (hnew t ht).2⟩⟩

theorem Added.trans (h : Added s ss mid) (h' : Added s mid out) : Added s ss out := by
  obtain ⟨new, rfl, hnew⟩ := h
  obtain ⟨new', rfl, hnew'⟩ := h'
  exact ⟨new ++ new', List.append_assoc _ _ _, List.forall_mem_append.2 ⟨hnew, hnew'⟩⟩

theorem added_snoc {name : String} (hname : name.toList <:+: s) (hbase : name ≠ "e")
    (v : Option Version) : Added s ss (ss ++ [subset lookup name v]) :=
  ⟨_, rfl, List.forall_mem_singleton.2 ⟨hname, hbase⟩⟩

theorem Added.has (h : Added s ss out) {xlen : Xlen} {name : String}
    (hname : name ∈ ss.map Subset.name) : Isa.has ⟨xlen, out⟩ name = true := by
  obtain ⟨new, rfl, -⟩ := h
  rw [has_iff_mem, List.map_append]
  exact List.mem_append_left _ hname

/-- A subset that was not there before is written out. -/
theorem Added.of_has (h : Added s ss out) {xlen : Xlen} {name : String}
    (hname : Isa.has ⟨xlen, out⟩ name = true) :
    name ∈ ss.map Subset.name ∨ (name.toList <:+: s ∧ name ≠ "e") := by
  obtain ⟨new, rfl, hnew⟩ := h
  rw [has_iff_mem, List.map_append, List.mem_append] at hname
  refine hname.imp_right fun hmem => ?_
  obtain ⟨t, ht, rfl⟩ := List.mem_map.1 hmem
  exact hnew t ht

end

theorem added_letters {rank : Nat} {ss out : List Subset} {s rest : List Char}
    (h : letters lookup rank ss s = .ok (out, rest)) : Added s ss out ∧ rest <:+ s := by
  fun_induction letters lookup rank ss s with
  | case1 rank ss =>
    cases h
    exact ⟨.refl _ _, List.suffix_refl _⟩
  | case2 rank ss rest ih =>
    obtain ⟨hadded, hsuffix⟩ := ih h
    exact ⟨hadded.mono (List.suffix_cons _ _).isInfix, hsuffix.trans (List.suffix_cons _ _)⟩
  | case3 =>
    cases h
    exact ⟨.refl _ _, List.suffix_refl _⟩
  | case4 => cases h
  | case5 => cases h
  | case6 => cases h
  | case7 => cases h
  | case8 rank ss c rest _ _ _ r hc _ v after hv _ ih =>
    have hafter : after <:+ c :: rest := (of_version hv).2.trans (List.suffix_cons _ _)
    obtain ⟨hadded, hsuffix⟩ := ih h
    have hname : (String.singleton c).toList <:+: c :: rest := by
      rw [String.toList_singleton]
      exact List.IsPrefix.isInfix ⟨rest, rfl⟩
    have hbase : String.singleton c ≠ "e" := by
      intro he
      obtain rfl : c = 'e' := by simpa using congrArg String.toList he
      cases hc
    exact ⟨(added_snoc hname hbase v).trans (hadded.mono hafter.isInfix), hsuffix.trans hafter⟩

theorem ne_base_of_accepts {cls : ExtensionClass} {name : String} (hcls : cls.letter?.isSome)
    (h : cls.accepts name = true) : name ≠ "e" := by
  rintro rfl
  cases cls with
  | standard => cases hcls
  | supervisor | z | nonStandard => cases h

theorem added_names {cls : ExtensionClass} (hcls : cls.letter?.isSome) {letter : Char}
    {last : Option String} {ss out : List Subset} {s rest : List Char}
    (h : names lookup cls letter last ss s = .ok (out, rest)) : Added s ss out ∧ rest <:+ s := by
  fun_induction names lookup cls letter last ss s with
  | case1 =>
    cases h
    exact ⟨.refl _ _, List.suffix_refl _⟩
  | case2 =>
    cases h
    exact ⟨.refl _ _, List.suffix_refl _⟩
  | case3 => cases h
  | case4 => cases h
  | case5 => cases h
  | case6 => cases h
  | case7 => cases h
  | case8 last ss c rest _ chars name haccepts _ _ v after hv next hs _ ih =>
    rw [Bool.not_eq_true', Bool.not_eq_false] at haccepts
    have hnext : next <:+ c :: rest :=
      (suffix_of_separated hs).trans ((of_version hv).2.trans (List.dropWhile_suffix _))
    obtain ⟨hadded, hsuffix⟩ := ih h
    have hname : name.toList <:+: c :: rest := by
      rw [String.toList_ofList]
      exact (List.takeWhile_prefix _).isInfix
    have hbase : name ≠ "e" := ne_base_of_accepts hcls haccepts
    exact ⟨(added_snoc hname hbase v).trans (hadded.mono hnext.isInfix), hsuffix.trans hnext⟩

theorem isNameChar_of_letter? {cls : ExtensionClass} {letter : Char}
    (h : cls.letter? = some letter) : isNameChar letter = true := by
  cases cls <;> cases h <;> rfl

theorem pointsInto_classes (lookup : KnownVersions) {clss : List ExtensionClass}
    (hclss : ∀ cls ∈ clss, cls.letter?.isSome) (ss : List Subset) (s : List Char) :
    PointsInto s (classes lookup clss ss s) ∧
      ∀ out rest, classes lookup clss ss s = .ok (out, rest) → Added s ss out ∧ rest <:+ s := by
  induction clss generalizing ss s with
  | nil =>
    refine ⟨pointsInto_ok _, fun out rest h => ?_⟩
    cases h
    exact ⟨.refl _ _, List.suffix_refl _⟩
  | cons cls clss ih =>
    obtain ⟨hcls, hclss⟩ := List.forall_mem_cons.1 hclss
    obtain ⟨letter, hletter⟩ := Option.isSome_iff_exists.1 hcls
    simp only [classes, hletter]
    constructor
    · have hchar : isNameChar letter = true := isNameChar_of_letter? hletter
      refine (pointsInto_names cls hchar none ss s).bind fun out hnames => ?_
      exact (ih hclss out.1 out.2).1.mono (added_names hcls hnames).2.isInfix
    · intro out rest h
      obtain ⟨⟨mid, after⟩, hnames, h⟩ := bind_eq_ok_iff.1 h
      obtain ⟨hadded, hafter⟩ := added_names hcls hnames
      obtain ⟨hadded', hrest⟩ := (ih hclss mid after).2 out rest h
      exact ⟨hadded.trans (hadded'.mono hafter.isInfix), hrest.trans hafter⟩

theorem pointsInto_finish (s : List Char) : PointsInto s (finish s) := by
  unfold finish
  split
  · exact pointsInto_ok _
  · split
    · exact pointsInto_error (List.infix_refl _) (List.cons_ne_nil _ _)
    · exact pointsInto_error (List.infix_refl _) (List.cons_ne_nil _ _)

/-! ### Checks across subsets -/

theorem eq_of_base {arch s : List Char} {xlen : Xlen} (h : base arch = .ok (xlen, s)) :
    arch = xlen.text ++ s := by
  unfold base at h
  split at h
  · cases h
  · split at h
    · cases h
    · split at h
      · rename_i hafter
        cases h
        exact of_after? hafter
      · rename_i hafter
        cases h
        exact of_after? hafter
      · cases h

/-- What the first letter brings. -/
theorem names_of_first {s rest : List Char} {ss : List Subset}
    (h : first lookup s = .ok (ss, rest)) :
    ss.map Subset.name = ["i"] ∨
      (ss.map Subset.name = ["e", "i"] ∧ ∃ after, s = 'e' :: after) ∨
      ss.map Subset.name = ["i", "m", "a", "f", "d"] := by
  unfold first at h
  split at h
  · obtain ⟨⟨v, r⟩, -, h⟩ := bind_eq_ok_iff.1 h
    cases h
    exact .inl rfl
  · obtain ⟨⟨v, r⟩, -, h⟩ := bind_eq_ok_iff.1 h
    refine .inr (.inl ⟨?_, _, rfl⟩)
    dsimp only at h
    split at h
    · obtain ⟨⟨w, r'⟩, -, h⟩ := bind_eq_ok_iff.1 h
      cases h
      rfl
    · cases h
      rfl
  · obtain ⟨⟨v, r⟩, -, h⟩ := bind_eq_ok_iff.1 h
    cases h
    exact .inr (.inr rfl)
  · cases h

/-- The letters that the checks name stand in the string. The shorthand `g` brings `d` without writing
it, but then it brings `f` as well. -/
theorem pointsInto_consistent {arch s rest : List Char} {xlen : Xlen} {ss out : List Subset}
    (harch : arch = xlen.text ++ s) (hfirst : first lookup s = .ok (ss, rest))
    (hadded : Added s ss out) : PointsInto arch (consistent ⟨xlen, out⟩) := by
  have hs : s <:+: arch := List.IsSuffix.isInfix ⟨xlen.text, harch.symm⟩
  have hnames := names_of_first hfirst
  have hbase : Isa.has ⟨xlen, out⟩ "e" = true →
      ss.map Subset.name = ["e", "i"] ∧ ∃ after, s = 'e' :: after := by
    intro he
    have hmem : "e" ∈ ss.map Subset.name := (hadded.of_has he).resolve_right fun h => h.2 rfl
    rcases hnames with h | h | h
    · rw [h] at hmem
      exact absurd hmem (by decide)
    · exact h
    · rw [h] at hmem
      exact absurd hmem (by decide)
  have hquad : Isa.has ⟨xlen, out⟩ "q" = true → "q".toList <:+: arch := by
    intro hq
    rcases hadded.of_has hq with hmem | hwritten
    · rcases hnames with h | ⟨h, -⟩ | h <;> rw [h] at hmem <;> exact absurd hmem (by decide)
    · exact hwritten.1.trans hs
  unfold consistent
  split
  · rename_i hef
    obtain ⟨he, hf⟩ := Bool.and_eq_true_iff.1 hef
    obtain ⟨hreduced, -⟩ := hbase he
    refine pointsInto_error ?_ (by decide)
    rcases hadded.of_has hf with hmem | hwritten
    · rw [hreduced] at hmem
      exact absurd hmem (by decide)
    · exact hwritten.1.trans hs
  · split
    · rename_i hwide
      obtain ⟨he, hxlen⟩ := Bool.and_eq_true_iff.1 hwide
      obtain ⟨-, after, rfl⟩ := hbase he
      obtain rfl : xlen = .rv64 := of_decide_eq_true hxlen
      refine pointsInto_error (List.IsPrefix.isInfix ⟨after, ?_⟩) (by decide)
      rw [harch]
      rfl
    · split
      · rename_i hdf
        obtain ⟨hd, hf⟩ := Bool.and_eq_true_iff.1 hdf
        refine pointsInto_error ?_ (by decide)
        rcases hadded.of_has hd with hmem | hwritten
        · rcases hnames with h | ⟨h, -⟩ | h
          · rw [h] at hmem
            exact absurd hmem (by decide)
          · rw [h] at hmem
            exact absurd hmem (by decide)
          · have hsingle : Isa.has ⟨xlen, out⟩ "f" = true := hadded.has (by rw [h]; decide)
            rw [hsingle] at hf
            cases hf
        · exact hwritten.1.trans hs
      · split
        · rename_i hq
          exact pointsInto_error (hquad (Bool.and_eq_true_iff.1 hq).1) (by decide)
        · split
          · rename_i hq
            exact pointsInto_error (hquad (Bool.and_eq_true_iff.1 hq).1) (by decide)
          · exact pointsInto_ok _

/-- The strings that stop at their base or before it. -/
def IsBare (arch : List Char) : Prop :=
  arch = [] ∨ ∃ xlen : Xlen, arch = xlen.text

theorem pointsInto_read {arch : List Char} (harch : ¬IsBare arch) :
    PointsInto arch (read lookup arch) := by
  refine (pointsInto_base fun h => harch (.inl h)).bind fun ⟨xlen, s⟩ hbase => ?_
  have hs : s <:+ arch := (of_base hbase).2
  have hne : s ≠ [] := by
    rintro rfl
    exact harch (.inr ⟨xlen, (eq_of_base hbase).trans (List.append_nil _)⟩)
  refine ((pointsInto_first hne).mono hs.isInfix).bind fun ⟨ss, afterFirst⟩ hfirst => ?_
  have hafterFirst : afterFirst <:+ s := (of_first hfirst).2.2
  refine ((pointsInto_letters _ ss afterFirst).mono (hafterFirst.trans hs).isInfix).bind
    fun ⟨mid, afterLetters⟩ hletters => ?_
  obtain ⟨hadded, hafterLetters⟩ := added_letters hletters
  have hsuffix := hafterLetters.trans hafterFirst
  have hletter : ∀ cls ∈ ExtensionClass.multiLetter, cls.letter?.isSome := by decide
  obtain ⟨hpoints, hclasses⟩ := pointsInto_classes lookup hletter mid afterLetters
  refine (hpoints.mono (hsuffix.trans hs).isInfix).bind fun ⟨out, rest⟩ hout => ?_
  obtain ⟨hadded', hrest⟩ := hclasses out rest hout
  refine ((pointsInto_finish rest).mono (hrest.trans (hsuffix.trans hs)).isInfix).bind fun _ _ => ?_
  have hall : Added s ss out :=
    (hadded.mono hafterFirst.isInfix).trans (hadded'.mono hsuffix.isInfix)
  exact (pointsInto_consistent (eq_of_base hbase) hfirst hall).bind fun _ _ => pointsInto_ok _

theorem read_of_isBare (lookup : KnownVersions) {arch : List Char} (h : IsBare arch) :
    ∃ fault, read lookup arch = .error (fault, []) := by
  rcases h with rfl | ⟨xlen, rfl⟩
  · exact ⟨.malformedBase, rfl⟩
  · cases xlen with
    | rv32 => exact ⟨.invalidFirst, rfl⟩
    | rv64 => exact ⟨.invalidFirst, rfl⟩

end Reader

/-- **Rejections point into the string.** Whatever string is rejected, and for whatever cause, the
error has all of the string and a contiguous part of it. The part is empty just for the strings that
stop at their base or before it, as nothing is left to name. -/
theorem rejection_points_into_string (lookup : KnownVersions) {arch : String} {e : IsaError}
    (h : parse lookup arch.toList = .error e) :
    e.arch = arch ∧ e.offending.toList <:+: arch.toList ∧
      (e.offending = "" ↔ arch = "" ∨ arch = "rv32" ∨ arch = "rv64") := by
  have hbare : Reader.IsBare arch.toList ↔ arch = "" ∨ arch = "rv32" ∨ arch = "rv64" := by
    constructor
    · rintro (h | ⟨xlen, h⟩)
      · exact .inl (String.toList_inj.1 h)
      · cases xlen with
        | rv32 => exact .inr (.inl (String.toList_inj.1 h))
        | rv64 => exact .inr (.inr (String.toList_inj.1 h))
    · rintro (rfl | rfl | rfl)
      · exact .inl rfl
      · exact .inr ⟨.rv32, rfl⟩
      · exact .inr ⟨.rv64, rfl⟩
  rw [← hbare]
  unfold parse at h
  split at h
  · cases h
  · rename_i fault text hread
    cases h
    refine ⟨String.ofList_toList, ?_⟩
    rw [String.toList_ofList]
    by_cases harch : Reader.IsBare arch.toList
    · obtain ⟨fault', hempty⟩ := Reader.read_of_isBare lookup harch
      obtain ⟨-, rfl⟩ := Prod.mk.inj (Except.error.inj (hread.symm.trans hempty))
      exact ⟨List.nil_infix, iff_of_true rfl harch⟩
    · obtain ⟨hpart, hne⟩ := Reader.pointsInto_read harch fault text hread
      refine ⟨hpart, iff_of_false (fun hofList => hne ?_) harch⟩
      simpa using congrArg String.toList hofList

/-- A letter that no other stage rejects, after the shorthand that brings what it requires. -/
theorem rejection_points_into_string_quad :
    parse (fun _ => none) "rv32gqc".toList = .error ⟨.widthIncompatible, "q", "rv32gqc"⟩ ∧
      "q".toList <:+: "rv32gqc".toList := by
  have h : parse (fun _ => none) "rv32gqc".toList =
      .error ⟨.widthIncompatible, "q", "rv32gqc"⟩ := by decide +kernel
  exact ⟨h, (rejection_points_into_string _ h).2.1⟩

end Isa

end RiscvAssembler

