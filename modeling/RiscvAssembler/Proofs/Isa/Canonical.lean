import Mathlib.Data.List.Nodup
import RiscvAssembler.Proofs.Isa.WellFormed
import RiscvAssembler.Proofs.Text.Numeral

/-!
The canonical ISA string of a well-formed instruction set reads back as that set
(`WellFormed.read_canonical`). Every version is written out in it and every subset but the first
stands after a separator, so each stage of the reader ends where the next subset starts. Since
reading gives well-formed sets only, one reading settles the spelling of an ISA string for good
(`parse_canonical`).
-/

namespace RiscvAssembler

open List (Forall₂)

/-! ### Initial letters -/

/-- The initial of a longer name is the letter of its class. -/
theorem ExtensionClass.head?_of_accepts {cls : ExtensionClass} {name : String}
    (hcls : cls.letter?.isSome) (h : cls.accepts name) : name.toList.head? = cls.letter? := by
  cases cls with
  | standard => cases hcls
  | supervisor =>
    have hmem : name ∈ Extension.supervisorNames := by simpa [ExtensionClass.accepts] using h
    have hall : ∀ n ∈ Extension.supervisorNames, n.toList.head? = some 's' := by decide
    exact hall name hmem
  | z =>
    have hmem : name ∈ Extension.zNames := by simpa [ExtensionClass.accepts] using h
    have hall : ∀ n ∈ Extension.zNames, n.toList.head? = some 'z' := by decide
    exact hall name hmem
  | nonStandard =>
    unfold ExtensionClass.accepts at h
    dsimp only at h
    split at h
    · rename_i hname
      rw [hname]
      rfl
    · cases h

namespace Isa

theorem IsBase.initial {ss : List Subset} (h : IsBase ss) {s : Subset} (hs : s ∈ ss) :
    ∃ c ∈ ['i', 'e'], s.name.toList = [c] := by
  have hname := List.mem_map_of_mem (f := Subset.name) hs
  have hmem : s.name ∈ ["i", "e"] := by
    rcases h with h | h
    · rw [h] at hname
      rw [List.mem_singleton.1 hname]
      exact List.mem_cons_self
    · rw [h] at hname
      simpa [or_comm] using hname
  rcases List.mem_pair.1 hmem with h | h
  · exact ⟨'i', by simp, congrArg String.toList h⟩
  · exact ⟨'e', by simp, congrArg String.toList h⟩

theorem AreLetters.initial {order : List Char} {ss : List Subset} (h : AreLetters order ss)
    {s : Subset} (hs : s ∈ ss) : ∃ c ∈ order, s.name.toList = [c] := by
  obtain ⟨letters, hsub, hnames⟩ := h
  have hname := List.mem_map_of_mem (f := Subset.name) hs
  rw [hnames] at hname
  obtain ⟨c, hc, heq⟩ := List.mem_map.1 hname
  exact ⟨c, hsub.subset hc, by rw [← heq, String.toList_singleton]⟩

theorem letter_initial {base letters : List Subset} {order : List Char} (hbase : IsBase base)
    (hletters : AreLetters order letters) {s : Subset} (hs : s ∈ base ++ letters) :
    ∃ c ∈ ['i', 'e'] ++ order, s.name.toList = [c] := by
  rcases List.mem_append.1 hs with hs | hs
  · obtain ⟨c, hc, hsc⟩ := hbase.initial hs
    exact ⟨c, List.mem_append_left _ hc, hsc⟩
  · obtain ⟨c, hc, hsc⟩ := hletters.initial hs
    exact ⟨c, List.mem_append_right _ hc, hsc⟩

theorem groups_initial {clss : List ExtensionClass} {groups : List (List Subset)}
    (h : Forall₂ IsGroup clss groups) (hclss : ∀ cls ∈ clss, cls.letter?.isSome) {s : Subset}
    (hs : s ∈ groups.flatten) : ∃ cls ∈ clss, s.name.toList.head? = cls.letter? := by
  induction h with
  | nil => cases hs
  | @cons cls group clss groups hgroup _ ih =>
    rw [List.flatten_cons, List.mem_append] at hs
    rcases hs with hs | hs
    · refine ⟨cls, List.mem_cons_self, ?_⟩
      exact ExtensionClass.head?_of_accepts (hclss cls List.mem_cons_self) (hgroup.accepted s hs)
    · obtain ⟨cls', hcls', hinitial⟩ := ih (fun d hd => hclss d (List.mem_cons_of_mem _ hd)) hs
      exact ⟨cls', List.mem_cons_of_mem _ hcls', hinitial⟩

/-! ### No subset twice -/

theorem IsGroup.nodup {cls : ExtensionClass} {ss : List Subset} (h : IsGroup cls ss) :
    (ss.map Subset.name).Nodup :=
  (List.isChain_iff_pairwise.1 h.increasing).imp ne_of_lt

theorem IsGroup.of_cons {cls : ExtensionClass} {s : Subset} {ss : List Subset}
    (h : IsGroup cls (s :: ss)) : IsGroup cls ss ∧ ∀ t ∈ ss, s.name < t.name := by
  obtain ⟨hbelow, hrest⟩ := List.pairwise_cons.1 (List.isChain_iff_pairwise.1 h.increasing)
  refine ⟨⟨?_, ?_, List.isChain_iff_pairwise.2 hrest⟩, ?_⟩
  · exact fun t ht => h.accepted t (List.mem_cons_of_mem _ ht)
  · exact fun t ht => h.spelled t (List.mem_cons_of_mem _ ht)
  · exact fun t ht => hbelow t.name (List.mem_map_of_mem ht)

theorem groups_nodup {clss : List ExtensionClass} {groups : List (List Subset)}
    (h : Forall₂ IsGroup clss groups) (hclss : ∀ cls ∈ clss, cls.letter?.isSome)
    (hdistinct : clss.Pairwise (·.letter? ≠ ·.letter?)) :
    (groups.flatten.map Subset.name).Nodup := by
  induction h with
  | nil => exact List.nodup_nil
  | @cons cls group clss groups hgroup hgroups ih =>
    obtain ⟨hother, hdistinct⟩ := List.pairwise_cons.1 hdistinct
    obtain ⟨hcls, hclss⟩ := List.forall_mem_cons.1 hclss
    rw [List.flatten_cons, List.map_append, List.nodup_append]
    refine ⟨hgroup.nodup, ih hclss hdistinct, ?_⟩
    intro a ha b hb hab
    obtain ⟨s, hs, rfl⟩ := List.mem_map.1 ha
    obtain ⟨t, ht, rfl⟩ := List.mem_map.1 hb
    obtain ⟨cls', hcls', hinitial⟩ := groups_initial hgroups hclss ht
    apply hother cls' hcls'
    rw [← hinitial, ← hab, ExtensionClass.head?_of_accepts hcls (hgroup.accepted s hs)]

theorem Arranged.nodup {ss : List Subset} (h : Arranged ss) : (ss.map Subset.name).Nodup := by
  obtain ⟨base, letters, groups, rfl, hbase, hletters, hgroups⟩ := h
  rw [List.map_append, List.map_append, List.nodup_append, List.nodup_append]
  refine ⟨⟨?_, ?_, ?_⟩, groups_nodup hgroups (by decide) (by decide), ?_⟩
  · rcases hbase with h | h <;> rw [h] <;> decide
  · obtain ⟨cs, hsub, hnames⟩ := hletters
    rw [hnames]
    refine List.Nodup.map ?_ (hsub.nodup (by decide))
    intro c d hcd
    simpa using congrArg String.toList hcd
  · intro a ha b hb hab
    obtain ⟨s, hs, rfl⟩ := List.mem_map.1 ha
    obtain ⟨t, ht, rfl⟩ := List.mem_map.1 hb
    obtain ⟨c, hc, hsc⟩ := hbase.initial hs
    obtain ⟨d, hd, htd⟩ := hletters.initial ht
    rw [hab, htd, List.singleton_inj] at hsc
    have hnone : ∀ d ∈ Extension.letterOrder, d ∉ ['i', 'e'] :=
      List.forall_iff_forall_mem.1 (by decide)
    exact hnone d hd (hsc ▸ hc)
  · intro a ha b hb hab
    rw [← List.map_append] at ha
    obtain ⟨s, hs, rfl⟩ := List.mem_map.1 ha
    obtain ⟨t, ht, rfl⟩ := List.mem_map.1 hb
    obtain ⟨cls, hcls, hinitial⟩ := groups_initial hgroups (by decide) ht
    obtain ⟨c, hc, hsc⟩ := letter_initial hbase hletters hs
    have hnone : ∀ cls ∈ ExtensionClass.multiLetter,
        (['i', 'e'] ++ Extension.letterOrder).Forall fun c => some c ≠ cls.letter? := by decide
    apply List.forall_iff_forall_mem.1 (hnone cls hcls) c hc
    rw [← hinitial, ← hab, hsc]
    rfl

/-! ### Characters -/

theorem plain_of_isDigit {c : Char} (h : c.isDigit = true) : IsPlain c := by
  have hrange : 48 ≤ c.toNat ∧ c.toNat ≤ 57 := by
    simpa [Char.isDigit, UInt32.le_iff_toNat_le] using h
  have hupper : ¬ 65 ≤ c.val := by
    rw [UInt32.le_iff_toNat_le]
    exact fun hle => absurd (Nat.le_trans hle hrange.2) (by decide)
  exact ⟨decide_eq_false fun h => hupper h.1, by omega⟩

theorem plain_text {s : Subset} (h : ∀ c ∈ s.name.toList, IsPlain c) :
    ∀ c ∈ s.text, IsPlain c := by
  intro c hc
  simp only [Subset.text, List.mem_append, List.mem_cons] at hc
  rcases hc with (hc | hc) | rfl | hc
  · exact h c hc
  · exact plain_of_isDigit (Text.isDigit_of_mem_decimal hc)
  · decide
  · exact plain_of_isDigit (Text.isDigit_of_mem_decimal hc)

theorem groups_plain {clss : List ExtensionClass} {groups : List (List Subset)}
    (h : Forall₂ IsGroup clss groups) {s : Subset} (hs : s ∈ groups.flatten) :
    ∀ c ∈ s.name.toList, IsPlain c := by
  induction h with
  | nil => cases hs
  | cons hgroup _ ih =>
    rw [List.flatten_cons, List.mem_append] at hs
    rcases hs with hs | hs
    · exact fun c hc => (hgroup.spelled s hs c hc).2
    · exact ih hs

theorem Arranged.plain {ss : List Subset} (h : Arranged ss) {s : Subset} (hs : s ∈ ss) :
    ∀ c ∈ s.name.toList, IsPlain c := by
  obtain ⟨base, letters, groups, rfl, hbase, hletters, hgroups⟩ := h
  have hall : ∀ c ∈ ['i', 'e'] ++ Extension.letterOrder, IsPlain c :=
    List.forall_iff_forall_mem.1 (by decide)
  rcases List.mem_append.1 hs with hs | hs
  · obtain ⟨c, hc, hsc⟩ := letter_initial hbase hletters hs
    rw [hsc]
    intro d hd
    rw [List.mem_singleton.1 hd]
    exact hall c hc
  · exact groups_plain hgroups hs

/-! ### Texts -/

namespace Reader

/-- Subsets as they stand after others, each with its separator. -/
def spelled (ss : List Subset) : List Char :=
  ss.flatMap ('_' :: ·.text)

/-- Subsets as they stand at the start. -/
def joined (ss : List Subset) : List Char :=
  ['_'].intercalate (ss.map Subset.text)

theorem joined_cons (s : Subset) (ss : List Subset) : joined (s :: ss) = s.text ++ spelled ss := by
  induction ss generalizing s with
  | nil => simp [joined, spelled]
  | cons t ss ih =>
    have hjoined : joined (s :: t :: ss) = s.text ++ ['_'] ++ joined (t :: ss) :=
      List.intercalate_cons_cons
    rw [hjoined, ih t]
    simp [spelled]

theorem spelled_append (ss ts : List Subset) : spelled (ss ++ ts) = spelled ss ++ spelled ts :=
  List.flatMap_append

theorem plain_joined {ss : List Subset} (h : ∀ s ∈ ss, ∀ c ∈ s.name.toList, IsPlain c) :
    ∀ c ∈ joined ss, IsPlain c := by
  have hspelled : ∀ ts ⊆ ss, ∀ c ∈ spelled ts, IsPlain c := by
    intro ts hts c hc
    obtain ⟨s, hs, hc⟩ := List.mem_flatMap.1 hc
    rcases List.mem_cons.1 hc with rfl | hc
    · decide
    · exact plain_text (h s (hts hs)) c hc
  cases ss with
  | nil => exact fun c hc => by cases hc
  | cons s ss =>
    intro c hc
    rw [joined_cons, List.mem_append] at hc
    rcases hc with hc | hc
    · exact plain_text (h s List.mem_cons_self) c hc
    · exact hspelled ss (List.subset_cons_self _ _) c hc

theorem separated_spelled (ss : List Subset) : separated (spelled ss) = .ok (joined ss) := by
  cases ss with
  | nil => rfl
  | cons s ss =>
    rw [joined_cons]
    rfl

/-- A text that no digit continues. -/
def NoDigit (s : List Char) : Prop :=
  ∀ c ∈ s.head?, c.isDigit = false

theorem noDigit_cons {c : Char} (h : c.isDigit = false) (s : List Char) : NoDigit (c :: s) := by
  intro d hd
  cases hd
  exact h

theorem noDigit_spelled (ss : List Subset) : NoDigit (spelled ss) := by
  cases ss with
  | nil => exact fun c hc => by cases hc
  | cons s ss => exact noDigit_cons rfl _

/-- A number reads back as it was written. -/
theorem number_decimal (n : UInt32) {rest : List Char} (h : NoDigit rest) :
    number (Text.decimal n.toNat ++ rest) = .ok (some n, rest) := by
  have hn : n.toNat < 0x100000000 := n.toNat_lt
  have hdigits : ∀ c ∈ Text.decimal n.toNat, c.isDigit = true :=
    fun c hc => Text.isDigit_of_mem_decimal hc
  have hfilter : (Text.readNumeral? 10 (Text.decimal n.toNat)).filter (· < 0x100000000) =
      some n.toNat := by
    rw [Text.readNumeral?_decimal, Option.filter_some, if_pos (decide_eq_true hn)]
  unfold number
  rw [Text.takeWhile_run hdigits h, Text.dropWhile_run hdigits h]
  obtain ⟨d, digits, hd⟩ := Text.exists_cons_of_decimal n.toNat
  rw [hd] at hfilter ⊢
  simp only [hfilter, UInt32.ofNat_toNat]

/-- The text of a version. -/
def versionText (v : Version) : List Char :=
  Text.decimal v.major.toNat ++ 'p' :: Text.decimal v.minor.toNat

/-- A version reads back as it was written, whatever it stands after. -/
theorem version_versionText (afterLetter : Bool) (v : Version) {rest : List Char}
    (h : NoDigit rest) :
    version afterLetter (versionText v ++ rest) =
      .ok (versionOf (some v.major) (some v.minor), rest) := by
  have hhead : ((Text.decimal v.minor.toNat ++ rest).head?.any Char.isDigit) = true := by
    obtain ⟨d, digits, hd⟩ := Text.exists_cons_of_decimal v.minor.toNat
    have hdigit : d.isDigit = true := Text.isDigit_of_mem_decimal (n := v.minor.toNat) (by simp [hd])
    simp [hd, hdigit]
  unfold version versionText
  rw [List.append_assoc, List.cons_append, number_decimal v.major (noDigit_cons rfl _)]
  simp only [bind, Except.bind, hhead, Option.isSome_some, Bool.and_self, if_true]
  rw [number_decimal v.minor h]
  rfl

variable {lookup : KnownVersions}

/-- A subset reads back as it was written, also if it has version 0.0. -/
theorem subset_versionOf {s : Subset} (hs : s.Settled lookup) :
    subset lookup s.name (versionOf (some s.version.major) (some s.version.minor)) = s := by
  obtain ⟨name, major, minor⟩ := s
  simp only [versionOf, Option.getD_some]
  by_cases hzero : major = 0 ∧ minor = 0
  · obtain ⟨rfl, rfl⟩ := hzero
    rw [if_pos ⟨rfl, rfl⟩, subset, Option.none_or]
    exact congrArg (Subset.mk name) (hs rfl)
  · rw [if_neg hzero]
    rfl

theorem text_append (s : Subset) (rest : List Char) :
    s.text ++ rest = s.name.toList ++ (versionText s.version ++ rest) := by
  simp [Subset.text, versionText]

/-! ### Stages of the reader -/

theorem base_plain (xlen : Xlen) {s : List Char} (h : ∀ c ∈ s, IsPlain c) :
    base (xlen.text ++ s) = .ok (xlen, s) := by
  have htext : ∀ c ∈ xlen.text, IsPlain c :=
    List.forall_iff_forall_mem.1 (by cases xlen <;> decide)
  have hplain : ∀ c ∈ xlen.text ++ s, IsPlain c := by
    intro c hc
    rcases List.mem_append.1 hc with hc | hc
    · exact htext c hc
    · exact h c hc
  have hupper : (xlen.text ++ s).any Char.isUpper = false := by
    rw [List.any_eq_false]
    exact fun c hc => by simp [(hplain c hc).1]
  have hascii : (xlen.text ++ s).all (·.toNat < 128) = true := by
    rw [List.all_eq_true]
    exact fun c hc => by simp [(hplain c hc).2]
  unfold base
  rw [hupper, hascii]
  cases xlen <;> rfl

theorem first_joined {ss : List Subset} (hbase : IsBase ss) (hsettled : ∀ s ∈ ss, s.Settled lookup)
    (rest : List Subset) : first lookup (joined (ss ++ rest)) = .ok (ss, spelled rest) := by
  rcases hbase with h | h
  · obtain ⟨i, rfl, hi⟩ := List.map_eq_singleton_iff.1 h
    have hread := subset_versionOf (hsettled i (by simp))
    have htext : joined ([i] ++ rest) = 'i' :: (versionText i.version ++ spelled rest) := by
      rw [List.singleton_append, joined_cons, text_append, hi]
      rfl
    rw [hi] at hread
    rw [htext]
    simp only [first, version_versionText true _ (noDigit_spelled _), bind, Except.bind, hread]
    rfl
  · obtain ⟨e, l, rfl, he, h⟩ := List.map_eq_cons_iff.1 h
    obtain ⟨i, rfl, hi⟩ := List.map_eq_singleton_iff.1 h
    have hreadE := subset_versionOf (hsettled e (by simp))
    have hreadI := subset_versionOf (hsettled i (by simp))
    have hnext : spelled (i :: rest) = '_' :: 'i' :: (versionText i.version ++ spelled rest) := by
      rw [← List.singleton_append, spelled_append]
      simp only [spelled, List.flatMap_cons, List.flatMap_nil, List.append_nil, List.cons_append,
        text_append, hi]
      rfl
    have htext : joined ([e, i] ++ rest) = 'e' :: (versionText e.version ++ spelled (i :: rest)) := by
      rw [List.cons_append, List.singleton_append, joined_cons, text_append, he]
      rfl
    rw [he] at hreadE
    rw [hi] at hreadI
    rw [htext]
    simp only [first, version_versionText true _ (noDigit_spelled _), bind, Except.bind, hreadE]
    simp only [hnext, version_versionText true _ (noDigit_spelled _), hreadI]
    rfl

theorem nextRank_of_isBase {ss : List Subset} (h : IsBase ss) : nextRank ss = 0 := by
  have hlast : (ss.map Subset.name).getLast? = some "i" := by
    rcases h with h | h <;> rw [h] <;> rfl
  rw [List.getLast?_map, Option.map_eq_some_iff] at hlast
  obtain ⟨i, hi, hname⟩ := hlast
  unfold nextRank
  rw [hi, Option.bind_some, hname]
  decide

/-- A letter that may come next has a rank, and the letters after it have higher ones. -/
theorem rank?_of_cons_sublist {c : Char} {cs : List Char} {rank : Nat}
    (h : (c :: cs).Sublist (Extension.letterOrder.drop rank)) :
    ∃ r, Extension.rank? c = some r ∧ rank ≤ r ∧
      cs.Sublist (Extension.letterOrder.drop (r + 1)) := by
  obtain ⟨front, back, hdrop, hc, hcs⟩ := List.cons_sublist_iff.1 h
  obtain ⟨j, hj, hget⟩ := List.getElem_of_mem hc
  have hat : Extension.letterOrder[rank + j]? = some c := by
    rw [← List.getElem?_drop, hdrop, List.getElem?_append_left hj, List.getElem?_eq_getElem hj, hget]
  obtain ⟨hlt, hat⟩ := List.getElem?_eq_some_iff.1 hat
  have hrank : ∀ i (h : i < Extension.letterOrder.length),
      Extension.rank? Extension.letterOrder[i] = some i := by decide
  refine ⟨rank + j, hat ▸ hrank _ hlt, Nat.le_add_right _ _, ?_⟩
  have hback : back = Extension.letterOrder.drop (rank + front.length) := by
    rw [← List.drop_drop, hdrop, List.drop_left]
  rw [hback] at hcs
  exact hcs.trans (List.drop_sublist_drop_left _ (by omega))

theorem isClassLetter_of_rank? {c : Char} {r : Nat} (h : Extension.rank? c = some r) :
    c ≠ '_' ∧ ExtensionClass.isClassLetter c = false := by
  obtain ⟨hlt, hget, -⟩ := List.idxOf?_eq_some_iff.1 h
  have hall : ∀ c ∈ Extension.letterOrder, c ≠ '_' ∧ ExtensionClass.isClassLetter c = false :=
    List.forall_iff_forall_mem.1 (by decide)
  exact hall c (hget ▸ List.getElem_mem hlt)

theorem any_name_eq_false {before more : List Subset} {s : Subset}
    (h : ((before ++ s :: more).map Subset.name).Nodup) :
    before.any (·.name == s.name) = false := by
  rw [List.any_eq_false]
  intro t ht heq
  rw [List.map_append, List.nodup_append] at h
  exact h.2.2 _ (List.mem_map_of_mem ht) _ (List.mem_map_of_mem List.mem_cons_self) (by simpa using heq)

theorem letters_spelled {rank : Nat} {before ls ns : List Subset}
    (hletters : AreLetters (Extension.letterOrder.drop rank) ls)
    (hsettled : ∀ s ∈ ls, s.Settled lookup)
    (hnodup : ((before ++ ls).map Subset.name).Nodup)
    (hns : ∀ s ∈ ns, ∃ c ∈ s.name.toList.head?, ExtensionClass.isClassLetter c) :
    letters lookup rank before (spelled (ls ++ ns)) = .ok (before ++ ls, joined ns) := by
  induction ls generalizing rank before with
  | nil =>
    cases ns with
    | nil =>
      unfold letters
      simp [spelled, joined]
    | cons s ns =>
      obtain ⟨c, hc, hclass⟩ := hns s List.mem_cons_self
      obtain ⟨name, hname⟩ := List.head?_eq_some_iff.1 hc
      have htext : spelled ([] ++ s :: ns) = '_' :: joined (s :: ns) := by
        rw [joined_cons]
        rfl
      have hjoined : joined (s :: ns) = c :: (name ++ (versionText s.version ++ spelled ns)) := by
        rw [joined_cons, text_append, hname, List.cons_append]
      have hsep : c ≠ '_' := by
        rintro rfl
        cases hclass
      rw [htext, letters, if_pos rfl, hjoined, letters, if_neg hsep, if_pos hclass,
        List.append_nil]
  | cons s ls ih =>
    obtain ⟨cs, hsub, hnames⟩ := hletters
    obtain ⟨c, cs, rfl, hc, hnames⟩ := List.map_eq_cons_iff.1 hnames.symm
    obtain ⟨r, hrank, hle, hsub⟩ := rank?_of_cons_sublist hsub
    obtain ⟨hsep, hclass⟩ := isClassLetter_of_rank? hrank
    have hread := subset_versionOf (hsettled s List.mem_cons_self)
    have htext : spelled (s :: ls ++ ns) =
        '_' :: c :: (versionText s.version ++ spelled (ls ++ ns)) := by
      rw [List.cons_append, ← List.singleton_append, spelled_append]
      simp only [spelled, List.flatMap_cons, List.flatMap_nil, List.append_nil, List.cons_append,
        text_append, ← hc, String.toList_singleton]
      rfl
    have hfresh : before.any (·.name == String.singleton c) = false := by
      rw [hc]
      exact any_name_eq_false hnodup
    rw [htext, letters, if_pos rfl, letters, if_neg hsep, hclass, hfresh]
    simp only [hrank, Nat.not_lt.2 hle, if_false, Bool.false_eq_true]
    split
    · rename_i e hv
      rw [version_versionText true _ (noDigit_spelled _)] at hv
      cases hv
    · rename_i v after hv
      rw [version_versionText true _ (noDigit_spelled _)] at hv
      cases hv
      rw [hc, hread, ih ⟨cs, hsub, hnames.symm⟩ (fun t ht => hsettled t (List.mem_cons_of_mem _ ht))
        (by simpa using hnodup), List.append_assoc, List.singleton_append]

theorem isNameChar_versionText (v : Version) (rest : List Char) :
    ∀ c ∈ (versionText v ++ rest).head?, isNameChar c = false := by
  intro c hc
  obtain ⟨d, digits, hd⟩ := Text.exists_cons_of_decimal v.major.toNat
  have hdigit : d.isDigit = true := Text.isDigit_of_mem_decimal (n := v.major.toNat) (by simp [hd])
  rw [versionText, hd] at hc
  cases hc
  simp [isNameChar, hdigit]

theorem names_joined {cls : ExtensionClass} {letter : Char} {last : Option String}
    {before group more : List Subset} (hcls : cls.letter? = some letter)
    (hgroup : IsGroup cls group) (hlast : ∀ name ∈ last, ∀ s ∈ group, name < s.name)
    (hsettled : ∀ s ∈ group, s.Settled lookup)
    (hnodup : ((before ++ group).map Subset.name).Nodup)
    (hmore : ∀ s ∈ more, ∃ c, s.name.toList.head? = some c ∧ c ≠ letter) :
    names lookup cls letter last before (joined (group ++ more)) =
      .ok (before ++ group, joined more) := by
  induction group generalizing last before with
  | nil =>
    rw [List.nil_append, List.append_nil]
    cases more with
    | nil =>
      unfold names
      rfl
    | cons s more =>
      obtain ⟨c, hc, hother⟩ := hmore s List.mem_cons_self
      obtain ⟨name, hname⟩ := List.head?_eq_some_iff.1 hc
      have htext : joined (s :: more) = c :: (name ++ (versionText s.version ++ spelled more)) := by
        rw [joined_cons, text_append, hname, List.cons_append]
      rw [htext, names, if_pos hother]
  | cons s group ih =>
    have hhead := ExtensionClass.head?_of_accepts (by rw [hcls]; rfl)
      (hgroup.accepted s List.mem_cons_self)
    rw [hcls] at hhead
    obtain ⟨name, hname⟩ := List.head?_eq_some_iff.1 hhead
    have hread := subset_versionOf (hsettled s List.mem_cons_self)
    have htext : joined (s :: group ++ more) =
        s.name.toList ++ (versionText s.version ++ spelled (group ++ more)) := by
      rw [List.cons_append, joined_cons, text_append]
    have hrun : ∀ c ∈ s.name.toList, isNameChar c = true :=
      fun c hc => (hgroup.spelled s List.mem_cons_self c hc).1
    have htake := Text.takeWhile_run hrun (isNameChar_versionText s.version (spelled (group ++ more)))
    have hdrop := Text.dropWhile_run hrun (isNameChar_versionText s.version (spelled (group ++ more)))
    have horder : last.any (s.name < ·) = false := by
      cases last with
      | none => rfl
      | some name => exact decide_eq_false (lt_asymm (hlast name rfl s List.mem_cons_self))
    rw [htext]
    rw [hname, List.cons_append] at htake hdrop ⊢
    rw [names, if_neg (not_not.2 rfl)]
    simp only [htake, ← hname, String.ofList_toList, hgroup.accepted s List.mem_cons_self,
      any_name_eq_false hnodup, horder, Bool.not_true, Bool.false_eq_true, if_false]
    split
    · rename_i e hv
      rw [hdrop, version_versionText false _ (noDigit_spelled _)] at hv
      cases hv
    · rename_i v after hv
      rw [hdrop, version_versionText false _ (noDigit_spelled _)] at hv
      cases hv
      split
      · rename_i e hs
        rw [separated_spelled] at hs
        cases hs
      · rename_i next hs
        rw [separated_spelled] at hs
        cases hs
        obtain ⟨hrest, habove⟩ := hgroup.of_cons
        have hlast' : ∀ name ∈ some s.name, ∀ t ∈ group, name < t.name := by
          rintro _ ⟨⟩
          exact habove
        rw [hread, ih hrest hlast' (fun t ht => hsettled t (List.mem_cons_of_mem _ ht))
          (by simpa using hnodup), List.append_assoc, List.singleton_append]

theorem classes_joined {clss : List ExtensionClass} {groups : List (List Subset)}
    (h : Forall₂ IsGroup clss groups) (hclss : ∀ cls ∈ clss, cls.letter?.isSome)
    (hdistinct : clss.Pairwise (·.letter? ≠ ·.letter?)) {before : List Subset}
    (hsettled : ∀ s ∈ groups.flatten, s.Settled lookup)
    (hnodup : ((before ++ groups.flatten).map Subset.name).Nodup) :
    classes lookup clss before (joined groups.flatten) = .ok (before ++ groups.flatten, []) := by
  induction h generalizing before with
  | nil =>
    rw [List.flatten_nil, List.append_nil]
    rfl
  | @cons cls group clss groups hgroup hgroups ih =>
    obtain ⟨hother, hdistinct⟩ := List.pairwise_cons.1 hdistinct
    obtain ⟨hcls, hclss⟩ := List.forall_mem_cons.1 hclss
    obtain ⟨letter, hletter⟩ := Option.isSome_iff_exists.1 hcls
    have hmore : ∀ s ∈ groups.flatten, ∃ c, s.name.toList.head? = some c ∧ c ≠ letter := by
      intro s hs
      obtain ⟨cls', hcls', hinitial⟩ := groups_initial hgroups hclss hs
      obtain ⟨c, hc⟩ := Option.isSome_iff_exists.1 (hclss cls' hcls')
      refine ⟨c, hinitial.trans hc, ?_⟩
      rintro rfl
      exact hother cls' hcls' (hletter.trans hc.symm)
    rw [List.flatten_cons] at hsettled hnodup ⊢
    rw [← List.append_assoc] at hnodup ⊢
    have hnames : names lookup cls letter none before (joined (group ++ groups.flatten)) =
        .ok (before ++ group, joined groups.flatten) :=
      names_joined hletter hgroup (by simp) (fun s hs => hsettled s (List.mem_append_left _ hs))
        (by rw [List.map_append] at hnodup; exact (List.nodup_append.1 hnodup).1) hmore
    simp only [classes, hletter, hnames, bind, Except.bind]
    exact ih hclss hdistinct (fun s hs => hsettled s (List.mem_append_right _ hs)) hnodup

end Reader

/-- **The canonical string of a well-formed instruction set describes it.** -/
theorem WellFormed.read_canonical {lookup : KnownVersions} {isa : Isa} (h : isa.WellFormed lookup) :
    Reader.read lookup isa.canonical = .ok isa := by
  obtain ⟨xlen, ss⟩ := isa
  obtain ⟨harranged, hsettled, hcoherent⟩ := h
  have hplain : ∀ c ∈ Reader.joined ss, IsPlain c :=
    Reader.plain_joined fun s hs => harranged.plain hs
  have hnodup := harranged.nodup
  obtain ⟨base, letters, groups, rfl, hbase, hletters, hgroups⟩ := harranged
  have hinitial : ∀ s ∈ groups.flatten,
      ∃ c ∈ s.name.toList.head?, ExtensionClass.isClassLetter c := by
    intro s hs
    obtain ⟨cls, hcls, hinitial⟩ := groups_initial hgroups (by decide) hs
    have hall : ∀ cls ∈ ExtensionClass.multiLetter,
        ∃ c, cls.letter? = some c ∧ ExtensionClass.isClassLetter c := by
      intro cls hcls
      cases cls with
      | standard => exact absurd hcls (by decide)
      | supervisor => exact ⟨_, rfl, rfl⟩
      | z => exact ⟨_, rfl, rfl⟩
      | nonStandard => exact ⟨_, rfl, rfl⟩
    obtain ⟨c, hc, hclass⟩ := hall cls hcls
    exact ⟨c, hinitial.trans hc, hclass⟩
  have hread : Reader.base (xlen.text ++ Reader.joined (base ++ letters ++ groups.flatten)) = _ :=
    Reader.base_plain xlen hplain
  have hfirst : Reader.first lookup (Reader.joined (base ++ letters ++ groups.flatten)) =
      .ok (base, Reader.spelled (letters ++ groups.flatten)) := by
    rw [List.append_assoc]
    exact Reader.first_joined hbase (fun s hs => hsettled s (by simp [hs])) _
  have hletters : Reader.letters lookup (Reader.nextRank base) base
      (Reader.spelled (letters ++ groups.flatten)) =
        .ok (base ++ letters, Reader.joined groups.flatten) := by
    rw [Reader.nextRank_of_isBase hbase]
    refine Reader.letters_spelled hletters (fun s hs => hsettled s (by simp [hs])) ?_ hinitial
    rw [List.map_append] at hnodup
    exact (List.nodup_append.1 hnodup).1
  have hclasses : Reader.classes lookup ExtensionClass.multiLetter (base ++ letters)
      (Reader.joined groups.flatten) = .ok (base ++ letters ++ groups.flatten, []) :=
    Reader.classes_joined hgroups (by decide) (by decide)
      (fun s hs => hsettled s (List.mem_append_right _ hs)) hnodup
  have hconsistent := Reader.consistent_eq_ok_iff.2 hcoherent
  unfold Reader.read canonical
  change (Reader.base (xlen.text ++ Reader.joined (base ++ letters ++ groups.flatten)) >>= _) = _
  simp only [hread, hfirst, hletters, hclasses, bind, Except.bind, Reader.finish, hconsistent]
  rfl

/-- **Canonical strings are stable.** Whatever string an instruction set was read from, its canonical
string reads back as the same width and the same subsets, with their versions and in their order. -/
theorem parse_canonical {lookup : KnownVersions} {arch : List Char} {isa : Isa}
    (h : parse lookup arch = .ok isa) : parse lookup isa.canonical = .ok isa := by
  have hcanonical := (WellFormed.of_read (read_of_parse h)).read_canonical
  unfold parse
  rw [hcanonical]

/-- The set that `rv32e_i2p1mc3p_svinval_zicsr_xfoo7` describes: the letter `p` after a version, and
subsets of no known version. -/
def embeddedIsa : Isa :=
  ⟨.rv32, [⟨"e", ⟨1, 9⟩⟩, ⟨"i", ⟨2, 1⟩⟩, ⟨"m", ⟨2, 0⟩⟩, ⟨"c", ⟨3, 0⟩⟩, ⟨"p", ⟨0, 0⟩⟩,
    ⟨"svinval", ⟨0, 0⟩⟩, ⟨"zicsr", ⟨2, 0⟩⟩, ⟨"xfoo", ⟨7, 0⟩⟩]⟩

theorem parse_canonical_embeddedIsa :
    parse Extension.standardVersion? "rv32e_i2p1mc3p_svinval_zicsr_xfoo7".toList =
        .ok embeddedIsa ∧
      parse Extension.standardVersion?
          "rv32e1p9_i2p1_m2p0_c3p0_p0p0_svinval0p0_zicsr2p0_xfoo7p0".toList =
        .ok embeddedIsa := by
  have hread : parse Extension.standardVersion? "rv32e_i2p1mc3p_svinval_zicsr_xfoo7".toList =
      .ok embeddedIsa := eq_ok_of_toOption (by decide +kernel)
  have htext : embeddedIsa.canonical =
      "rv32e1p9_i2p1_m2p0_c3p0_p0p0_svinval0p0_zicsr2p0_xfoo7p0".toList := by decide +kernel
  exact ⟨hread, htext ▸ parse_canonical hread⟩

end Isa

end RiscvAssembler
