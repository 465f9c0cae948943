import Mathlib.Data.List.Chain
import Mathlib.Data.List.Forall2
import Mathlib.Data.List.TakeWhile
import Mathlib.Data.String.Basic
import RiscvAssembler.Isa.Reader
import RiscvAssembler.Proofs.Except

/-!
Well-formed instruction sets: a base, single letters in canonical order, then a group of longer
names for each class, every group in increasing order. `WellFormed.of_read` says that reading an
ISA string gives nothing else, one lemma for each stage of the reader.
-/

namespace RiscvAssembler

open List (Forall₂)

/-- A subset of version 0.0 is one that the lookup knows no other version of. -/
def Subset.Settled (lookup : Isa.KnownVersions) (s : Subset) : Prop :=
  s.version = ⟨0, 0⟩ → (lookup s.name).getD ⟨0, 0⟩ = ⟨0, 0⟩

namespace Isa

/-- Characters that an ISA string may have. -/
def IsPlain (c : Char) : Prop :=
  c.isUpper = false ∧ c.toNat < 128

instance (c : Char) : Decidable (IsPlain c) :=
  inferInstanceAs (Decidable (_ ∧ _))

/-- The base: `i`, or `e` with the `i` it brings. -/
def IsBase (ss : List Subset) : Prop :=
  ss.map Subset.name = ["i"] ∨ ss.map Subset.name = ["e", "i"]

/-- Single letters, each at most once, in the order of `order`. -/
def AreLetters (order : List Char) (ss : List Subset) : Prop :=
  ∃ letters : List Char, letters.Sublist order ∧
    ss.map Subset.name = letters.map String.singleton

/-- A group of longer names of one class, in increasing order. -/
structure IsGroup (cls : ExtensionClass) (ss : List Subset) : Prop where
  accepted : ∀ s ∈ ss, cls.accepts s.name
  spelled : ∀ s ∈ ss, ∀ c ∈ s.name.toList, Reader.isNameChar c ∧ IsPlain c
  increasing : (ss.map Subset.name).IsChain (· < ·)

/-- Subsets in the order of an ISA string. -/
def Arranged (ss : List Subset) : Prop :=
  ∃ base letters groups, ss = base ++ letters ++ groups.flatten ∧ IsBase base ∧
    AreLetters Extension.letterOrder letters ∧ Forall₂ IsGroup ExtensionClass.multiLetter groups

/-- Which subsets go together, and with which width. -/
structure Coherent (isa : Isa) : Prop where
  double : isa.has "d" → isa.has "f"
  quad : isa.has "q" → isa.has "d" ∧ isa.xlen = .rv64
  reduced : isa.has "e" → isa.xlen = .rv32 ∧ isa.has "f" = false

/-- The instruction sets that ISA strings describe. -/
structure WellFormed (lookup : KnownVersions) (isa : Isa) : Prop where
  arranged : Arranged isa.subsets
  settled : ∀ s ∈ isa.subsets, s.Settled lookup
  coherent : isa.Coherent

theorem AreLetters.snoc {c : Char} {r rank : Nat} {ss : List Subset} {s : Subset}
    (h : AreLetters (Extension.letterOrder.take rank) ss) (hc : Extension.rank? c = some r)
    (hr : rank ≤ r) (hs : s.name = String.singleton c) :
    AreLetters (Extension.letterOrder.take (r + 1)) (ss ++ [s]) := by
  obtain ⟨letters, hsub, hnames⟩ := h
  refine ⟨letters ++ [c], ?_, by simp [hnames, hs]⟩
  obtain ⟨hlt, hget, -⟩ := List.idxOf?_eq_some_iff.1 hc
  rw [List.take_succ_eq_append_getElem hlt, hget]
  exact (hsub.trans (List.take_sublist_take_left hr)).append (List.Sublist.refl _)

theorem IsGroup.snoc {cls : ExtensionClass} {ss : List Subset} {s : Subset} (h : IsGroup cls ss)
    (haccepts : cls.accepts s.name)
    (hspelled : ∀ c ∈ s.name.toList, Reader.isNameChar c ∧ IsPlain c)
    (habove : ∀ name ∈ (ss.map Subset.name).getLast?, name < s.name) :
    IsGroup cls (ss ++ [s]) where
  accepted := by
    intro t ht
    rcases List.mem_append.1 ht with ht | ht
    · exact h.accepted t ht
    · rw [List.mem_singleton.1 ht]
      exact haccepts
  spelled := by
    intro t ht
    rcases List.mem_append.1 ht with ht | ht
    · exact h.spelled t ht
    · rw [List.mem_singleton.1 ht]
      exact hspelled
  increasing := by
    rw [List.map_append, List.isChain_append]
    refine ⟨h.increasing, List.isChain_singleton _, ?_⟩
    intro name hname next hnext
    cases hnext
    exact habove name hname

namespace Reader

theorem consistent_eq_ok_iff {isa : Isa} : consistent isa = .ok () ↔ isa.Coherent := by
  obtain ⟨xlen, ss⟩ := isa
  unfold consistent
  constructor
  · intro h
    constructor <;> cases xlen <;> grind
  · rintro ⟨double, quad, reduced⟩
    grind

/-! ### Versions -/

theorem suffix_of_number {s rest : List Char} {n : Option UInt32}
    (h : number s = .ok (n, rest)) : rest <:+ s := by
  unfold number at h
  split at h
  · cases h
    exact List.suffix_refl _
  · split at h
    · cases h
      exact List.dropWhile_suffix Char.isDigit
    · cases h

theorem versionOf_ne_zero (major minor : Option UInt32) : versionOf major minor ≠ some ⟨0, 0⟩ := by
  intro heq
  unfold versionOf at heq
  split at heq
  · cases heq
  · split at heq
    · cases heq
    · rename_i h
      obtain ⟨hmajor, hminor⟩ := Version.mk.inj (Option.some.inj heq)
      exact h ⟨hmajor, hminor⟩

/-- A version that was read is not 0.0, and it is taken off the front. -/
theorem of_version {afterLetter : Bool} {s rest : List Char} {v : Option Version}
    (h : version afterLetter s = .ok (v, rest)) : v ≠ some ⟨0, 0⟩ ∧ rest <:+ s := by
  unfold version at h
  cases hn : number s with
  | error e => simp [hn, bind, Except.bind] at h
  | ok pair =>
    obtain ⟨major, r⟩ := pair
    have hr := suffix_of_number hn
    simp only [hn, bind, Except.bind] at h
    split at h
    · rename_i r'
      split at h
      · cases hm : number r' with
        | error e => simp [hm] at h
        | ok pair =>
          obtain ⟨minor, r''⟩ := pair
          simp only [hm] at h
          cases h
          exact ⟨versionOf_ne_zero _ _,
            (suffix_of_number hm).trans ((List.suffix_cons _ _).trans hr)⟩
      · split at h
        · cases h
          exact ⟨versionOf_ne_zero _ _, hr⟩
        · cases h
    · cases h
      exact ⟨versionOf_ne_zero _ _, hr⟩

variable {lookup : KnownVersions}

theorem settled_subset {v : Option Version} (hv : v ≠ some ⟨0, 0⟩) (name : String) :
    (subset lookup name v).Settled lookup := by
  intro hzero
  cases v with
  | none => exact hzero
  | some w =>
    exfalso
    apply hv
    rw [← hzero]
    rfl

theorem settled_snoc {ss : List Subset} {v : Option Version} (h : ∀ s ∈ ss, s.Settled lookup)
    (hv : v ≠ some ⟨0, 0⟩) (name : String) :
    ∀ s ∈ ss ++ [subset lookup name v], s.Settled lookup := by
  intro s hs
  rcases List.mem_append.1 hs with hs | hs
  · exact h s hs
  · rw [List.mem_singleton.1 hs]
    exact settled_subset hv name

/-! ### The base -/

theorem of_after? {word s rest : List Char} (h : Text.after? word s = some rest) :
    s = word ++ rest := by
  fun_induction Text.after? word s with
  | case1 s => exact Option.some.inj h
  | case2 w word => cases h
  | case3 w word s ih => rw [ih h, List.cons_append]
  | case4 w word c s hne => cases h

theorem of_base {arch s : List Char} {xlen : Xlen} (h : base arch = .ok (xlen, s)) :
    (∀ c ∈ arch, IsPlain c) ∧ s <:+ arch := by
  unfold base at h
  split at h
  · cases h
  · rename_i hupper
    split at h
    · cases h
    · rename_i hascii
      have hplain : ∀ c ∈ arch, IsPlain c := by
        intro c hc
        simp only [List.any_eq_true, not_exists, not_and, Bool.not_eq_true] at hupper
        simp only [Bool.not_eq_true', Bool.not_eq_false, List.all_eq_true, decide_eq_true_eq]
          at hascii
        exact ⟨hupper c hc, hascii c hc⟩
      refine ⟨hplain, ?_⟩
      split at h
      · rename_i hafter
        cases h
        exact ⟨_, (of_after? hafter).symm⟩
      · rename_i hafter
        cases h
        exact ⟨_, (of_after? hafter).symm⟩
      · cases h

/-- A base with single letters below a rank: what the reader has before the next letter. -/
def Started (rank : Nat) (ss : List Subset) : Prop :=
  ∃ base letters, ss = base ++ letters ∧ IsBase base ∧
    AreLetters (Extension.letterOrder.take rank) letters

theorem IsBase.started {ss : List Subset} (h : IsBase ss) : Started (nextRank ss) ss :=
  ⟨ss, [], (List.append_nil ss).symm, h, [], List.nil_sublist _, rfl⟩

theorem of_first {s rest : List Char} {ss : List Subset} (h : first lookup s = .ok (ss, rest)) :
    Started (nextRank ss) ss ∧ (∀ s ∈ ss, s.Settled lookup) ∧ rest <:+ s := by
  unfold first at h
  split at h
  · rename_i after
    obtain ⟨⟨v, r⟩, hv, h⟩ := bind_eq_ok_iff.1 h
    obtain ⟨hne, hsuffix⟩ := of_version hv
    cases h
    refine ⟨IsBase.started (.inl rfl), ?_, hsuffix.trans (List.suffix_cons _ _)⟩
    simp [settled_subset hne]
  · rename_i after
    obtain ⟨⟨v, r⟩, hv, h⟩ := bind_eq_ok_iff.1 h
    obtain ⟨hne, hsuffix⟩ := of_version hv
    dsimp only at h
    split at h
    · rename_i r' heq
      obtain ⟨⟨w, r''⟩, hw, h⟩ := bind_eq_ok_iff.1 h
      obtain ⟨hne', hsuffix'⟩ := of_version hw
      have hnext : 'i' :: r' <:+ r := by
        rw [← heq]
        split
        · exact List.suffix_cons _ _
        · exact List.suffix_refl _
      cases h
      refine ⟨IsBase.started (.inr rfl), ?_, hsuffix'.trans ((List.suffix_cons _ _).trans
        (hnext.trans (hsuffix.trans (List.suffix_cons _ _))))⟩
      simp [settled_subset hne, settled_subset hne']
    · cases h
      refine ⟨IsBase.started (.inr rfl), ?_, hsuffix.trans (List.suffix_cons _ _)⟩
      have hnone : (none : Option Version) ≠ some ⟨0, 0⟩ := by simp
      simp [settled_subset hne, settled_subset hnone]
  · rename_i after
    obtain ⟨⟨v, r⟩, hv, h⟩ := bind_eq_ok_iff.1 h
    obtain ⟨hne, hsuffix⟩ := of_version hv
    cases h
    refine ⟨?_, ?_, hsuffix.trans (List.suffix_cons _ _)⟩
    · refine ⟨[subset lookup "i" v],
        (Extension.generalLetters.map String.singleton).map (subset lookup · v), rfl, .inl rfl,
        Extension.generalLetters, ?_, ?_⟩
      · have hrank : nextRank (("i" :: Extension.generalLetters.map String.singleton).map
            (subset lookup · v)) = 4 := by
          simp [nextRank, Extension.generalLetters, subset]
          decide
        rw [hrank]
        decide
      · simp [subset]
    · intro s hs
      obtain ⟨name, _, rfl⟩ := List.mem_map.1 hs
      exact settled_subset hne name
  · cases h

theorem Started.snoc {c : Char} {r rank : Nat} {ss : List Subset} {s : Subset}
    (h : Started rank ss) (hc : Extension.rank? c = some r)
    (hr : rank ≤ r) (hs : s.name = String.singleton c) : Started (r + 1) (ss ++ [s]) := by
  obtain ⟨base, letters, rfl, hbase, hletters⟩ := h
  exact ⟨base, letters ++ [s], List.append_assoc _ _ _, hbase, hletters.snoc hc hr hs⟩

theorem of_letters {rank : Nat} {ss out : List Subset} {s rest : List Char}
    (h : letters lookup rank ss s = .ok (out, rest)) (hstarted : Started rank ss)
    (hsettled : ∀ s ∈ ss, s.Settled lookup) :
    (∃ rank', Started rank' out) ∧ (∀ s ∈ out, s.Settled lookup) ∧ rest <:+ s := by
  fun_induction letters lookup rank ss s with
  | case1 rank ss =>
    cases h
    exact ⟨⟨_, hstarted⟩, hsettled, List.suffix_refl _⟩
  | case2 rank ss s ih =>
    obtain ⟨hstarted, hsettled, hsuffix⟩ := ih h hstarted hsettled
    exact ⟨hstarted, hsettled, hsuffix.trans (List.suffix_cons _ _)⟩
  | case3 =>
    cases h
    exact ⟨⟨_, hstarted⟩, hsettled, List.suffix_refl _⟩
  | case4 => cases h
  | case5 => cases h
  | case6 => cases h
  | case7 => cases h
  | case8 rank ss c s _ _ _ r hc hr v after hv _ ih =>
    obtain ⟨hne, hafter⟩ := of_version hv
    obtain ⟨hstarted, hsettled, hsuffix⟩ :=
      ih h (hstarted.snoc hc (Nat.le_of_not_lt hr) rfl) (settled_snoc hsettled hne _)
    exact ⟨hstarted, hsettled, hsuffix.trans (hafter.trans (List.suffix_cons _ _))⟩

/-! ### Longer names -/

theorem suffix_of_separated {s rest : List Char} (h : separated s = .ok rest) : rest <:+ s := by
  unfold separated at h
  split at h
  · cases h
    exact List.suffix_refl _
  · split at h
    · cases h
      exact List.suffix_cons _ _
    · cases h

theorem of_names {cls : ExtensionClass} {letter : Char} {last : Option String}
    {ss out : List Subset} {s rest : List Char}
    (h : names lookup cls letter last ss s = .ok (out, rest)) {before group : List Subset}
    (hss : ss = before ++ group) (hlast : last = (group.map Subset.name).getLast?)
    (hgroup : IsGroup cls group) (hsettled : ∀ s ∈ ss, s.Settled lookup)
    (hplain : ∀ c ∈ s, IsPlain c) :
    (∃ group, out = before ++ group ∧ IsGroup cls group) ∧ (∀ s ∈ out, s.Settled lookup) ∧
      rest <:+ s := by
  fun_induction names lookup cls letter last ss s generalizing group with
  | case1 last ss =>
    cases h
    exact ⟨⟨group, hss, hgroup⟩, hsettled, List.suffix_refl _⟩
  | case2 =>
    cases h
    exact ⟨⟨group, hss, hgroup⟩, hsettled, List.suffix_refl _⟩
  | case3 => cases h
  | case4 => cases h
  | case5 => cases h
  | case6 => cases h
  | case7 => cases h
  | case8 last ss c s _ chars name haccepts hfresh horder v after hv next hnext =>
    rename_i ih
    obtain ⟨hne, hafter⟩ := of_version hv
    rw [Bool.not_eq_true', Bool.not_eq_false] at haccepts
    have hsuffix : next <:+ c :: s :=
      (suffix_of_separated hnext).trans (hafter.trans (List.dropWhile_suffix _))
    have hspelled : ∀ d ∈ name.toList, isNameChar d ∧ IsPlain d := by
      intro d hd
      rw [String.toList_ofList] at hd
      exact ⟨List.mem_takeWhile_imp hd, hplain d (List.takeWhile_subset _ hd)⟩
    -- The name is not below the last one, and it is another one.
    have habove : ∀ n ∈ (group.map Subset.name).getLast?, n < name := by
      intro n hn
      rw [hlast, Option.mem_def.1 hn] at horder
      have hother : n ≠ name := by
        rintro rfl
        obtain ⟨t, ht, htn⟩ := List.mem_map.1 (List.mem_of_getLast? hn)
        apply hfresh
        rw [hss, List.any_eq_true]
        exact ⟨t, List.mem_append_right _ ht, by simp [htn]⟩
      exact lt_of_le_of_ne (not_lt.1 (by simpa using horder)) hother
    have hss' : ss ++ [subset lookup name v] = before ++ (group ++ [subset lookup name v]) := by
      rw [hss, List.append_assoc]
    obtain ⟨hgroup, hsettled, hrest⟩ :=
      ih h hss' (by simp [subset]) (hgroup.snoc haccepts hspelled habove)
        (settled_snoc hsettled hne name) (fun d hd => hplain d (hsuffix.subset hd))
    exact ⟨hgroup, hsettled, hrest.trans hsuffix⟩

theorem of_classes {clss : List ExtensionClass} {ss out : List Subset} {s rest : List Char}
    (h : classes lookup clss ss s = .ok (out, rest)) (hclss : ∀ cls ∈ clss, cls.letter?.isSome)
    (hsettled : ∀ s ∈ ss, s.Settled lookup) (hplain : ∀ c ∈ s, IsPlain c) :
    (∃ groups, out = ss ++ groups.flatten ∧ Forall₂ IsGroup clss groups) ∧
      ∀ s ∈ out, s.Settled lookup := by
  induction clss generalizing ss s with
  | nil =>
    cases h
    exact ⟨⟨[], by simp, .nil⟩, hsettled⟩
  | cons cls clss ih =>
    obtain ⟨letter, hletter⟩ := Option.isSome_iff_exists.1 (hclss cls List.mem_cons_self)
    simp only [classes, hletter] at h
    obtain ⟨⟨ss', s'⟩, hnames, h⟩ := bind_eq_ok_iff.1 h
    have hempty : IsGroup cls [] := ⟨by simp, by simp, List.isChain_nil⟩
    obtain ⟨⟨group, rfl, hgroup⟩, hsettled, hsuffix⟩ :=
      of_names hnames (List.append_nil ss).symm rfl hempty hsettled hplain
    obtain ⟨⟨groups, rfl, hgroups⟩, hsettled⟩ :=
      ih h (fun cls hcls => hclss cls (List.mem_cons_of_mem _ hcls)) hsettled
        (fun c hc => hplain c (hsuffix.subset hc))
    exact ⟨⟨group :: groups, by simp, .cons hgroup hgroups⟩, hsettled⟩

end Reader

theorem read_of_parse {lookup : KnownVersions} {arch : List Char} {isa : Isa}
    (h : parse lookup arch = .ok isa) : Reader.read lookup arch = .ok isa := by
  unfold parse at h
  split at h
  · rename_i hread
    cases h
    exact hread
  · cases h

/-- **Reading gives well-formed instruction sets only.** -/
theorem WellFormed.of_read {lookup : KnownVersions} {arch : List Char} {isa : Isa}
    (h : Reader.read lookup arch = .ok isa) : isa.WellFormed lookup := by
  obtain ⟨⟨xlen, afterBase⟩, hbase, h⟩ := bind_eq_ok_iff.1 h
  obtain ⟨⟨ss, afterFirst⟩, hfirst, h⟩ := bind_eq_ok_iff.1 h
  obtain ⟨⟨ss, afterLetters⟩, hletters, h⟩ := bind_eq_ok_iff.1 h
  obtain ⟨⟨ss, afterNames⟩, hclasses, h⟩ := bind_eq_ok_iff.1 h
  obtain ⟨_, -, h⟩ := bind_eq_ok_iff.1 h
  obtain ⟨_, hconsistent, h⟩ := bind_eq_ok_iff.1 h
  cases h
  obtain ⟨hplain, hafterBase⟩ := Reader.of_base hbase
  obtain ⟨hstarted, hsettled, hafterFirst⟩ := Reader.of_first hfirst
  obtain ⟨⟨rank, base, letters, rfl, hisBase, hareLetters⟩, hsettled, hafterLetters⟩ :=
    Reader.of_letters hletters hstarted hsettled
  have hsuffix : afterLetters <:+ arch := hafterLetters.trans (hafterFirst.trans hafterBase)
  obtain ⟨⟨groups, rfl, hgroups⟩, hsettled⟩ :=
    Reader.of_classes hclasses (by decide) hsettled (fun c hc => hplain c (hsuffix.subset hc))
  refine ⟨⟨base, letters, groups, rfl, hisBase, ?_, hgroups⟩, hsettled,
    Reader.consistent_eq_ok_iff.1 hconsistent⟩
  obtain ⟨cs, hcs, hnames⟩ := hareLetters
  exact ⟨cs, hcs.trans (List.take_sublist _ _), hnames⟩

/-- Every well-formed instruction set has the base instructions. -/
theorem WellFormed.has_base {lookup : KnownVersions} {isa : Isa} (h : isa.WellFormed lookup) :
    isa.has "i" = true := by
  obtain ⟨base, letters, groups, hss, hbase, -, -⟩ := h.arranged
  have hmem : "i" ∈ base.map Subset.name := by
    rcases hbase with hnames | hnames <;> simp [hnames]
  obtain ⟨s, hs, hname⟩ := List.mem_map.1 hmem
  unfold has find?
  rw [List.find?_isSome]
  exact ⟨s, by simp [hss, hs], beq_iff_eq.2 hname⟩

end Isa

end RiscvAssembler
