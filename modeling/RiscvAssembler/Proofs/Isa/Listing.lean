import RiscvAssembler.Proofs.Isa.Canonical
import RiscvAssembler.Proofs.Text.Bytes

/-!
Which instruction sets have an ISA string. `IsListing` says it without the reader: which names may
stand in a list of subsets and in which order, which go together, and which versions they may have.
These are the well-formed sets (`isListing_iff`), so the reader accepts some string for each of them
and returns nothing else (`exists_parse_iff_isListing`).
-/

namespace RiscvAssembler

open List (Forall₂)

namespace Isa

/-! ### Lists of subsets -/

/-- Single letters of strictly increasing rank. -/
def Ascending (ss : List Subset) : Prop :=
  ∃ (letters : List Char) (ranks : List Nat), ss.map Subset.name = letters.map String.singleton ∧
    letters.map Extension.rank? = ranks.map some ∧ ranks.Pairwise (· < ·)

/-- The names that vendors may choose. -/
structure IsVendorName (name : String) : Prop where
  initial : name.toList.head? = some 'x'
  long : 1 < name.length
  ascii : ∀ c ∈ name.toList, c.toNat < 128
  spelled : ∀ c ∈ name.toList, c.isUpper = false ∧ c.isDigit = false ∧ c ≠ '_'

/-- Longer names of one class, in strictly increasing order of their bytes. -/
structure IsSorted (allowed : String → Prop) (ss : List Subset) : Prop where
  allowed : ∀ s ∈ ss, allowed s.name
  increasing : (ss.map fun s => Text.bytes s.name).Pairwise (· < ·)

/-- A width and a list of subsets that go together: a base, single letters, then a group of longer
names for each class. -/
structure IsListing (lookup : KnownVersions) (xlen : Xlen) (ss : List Subset) : Prop where
  parts : ∃ base letters supervisor z vendor, ss = base ++ letters ++ supervisor ++ z ++ vendor ∧
    (base.map Subset.name = ["i"] ∨ base.map Subset.name = ["e", "i"]) ∧ Ascending letters ∧
    IsSorted (· ∈ Extension.supervisorNames) supervisor ∧ IsSorted (· ∈ Extension.zNames) z ∧
    IsSorted IsVendorName vendor
  double : "d" ∈ ss.map Subset.name → "f" ∈ ss.map Subset.name
  quad : "q" ∈ ss.map Subset.name → "d" ∈ ss.map Subset.name ∧ xlen = .rv64
  reduced : "e" ∈ ss.map Subset.name → xlen = .rv32 ∧ "f" ∉ ss.map Subset.name
  versions : ∀ s ∈ ss, s.version = ⟨0, 0⟩ → lookup s.name = none ∨ lookup s.name = some ⟨0, 0⟩

/-! ### Ranks -/

theorem exists_ranks_of_sublist {letters : List Char} {rank : Nat}
    (h : letters.Sublist (Extension.letterOrder.drop rank)) :
    ∃ ranks : List Nat, letters.map Extension.rank? = ranks.map some ∧
      ranks.Pairwise (· < ·) ∧ ∀ r ∈ ranks, rank ≤ r := by
  induction letters generalizing rank with
  | nil => exact ⟨[], rfl, .nil, by simp⟩
  | cons c cs ih =>
    obtain ⟨r, hc, hle, hcs⟩ := Reader.rank?_of_cons_sublist h
    obtain ⟨ranks, hranks, hsorted, hbelow⟩ := ih hcs
    refine ⟨r :: ranks, by simp [hc, hranks], List.pairwise_cons.2 ⟨hbelow, hsorted⟩, ?_⟩
    intro k hk
    rcases List.mem_cons.1 hk with rfl | hk
    · exact hle
    · exact Nat.le_trans hle (Nat.le_of_succ_le (hbelow k hk))

theorem sublist_of_ranks {letters : List Char} {ranks : List Nat} {rank : Nat}
    (h : letters.map Extension.rank? = ranks.map some) (hsorted : ranks.Pairwise (· < ·))
    (hle : ∀ r ∈ ranks, rank ≤ r) : letters.Sublist (Extension.letterOrder.drop rank) := by
  induction letters generalizing ranks rank with
  | nil => exact List.nil_sublist _
  | cons c cs ih =>
    obtain ⟨r, rs, rfl, hc, hcs⟩ := List.map_eq_cons_iff.1 h.symm
    obtain ⟨hbelow, hsorted⟩ := List.pairwise_cons.1 hsorted
    obtain ⟨hlt, hget, -⟩ := List.idxOf?_eq_some_iff.1 hc.symm
    have htail : cs.Sublist (Extension.letterOrder.drop (r + 1)) := ih hcs.symm hsorted hbelow
    have hdrop : Extension.letterOrder.drop r = c :: Extension.letterOrder.drop (r + 1) := by
      rw [List.drop_eq_getElem_cons hlt, hget]
    refine List.Sublist.trans ?_ (List.drop_sublist_drop_left _ (hle r List.mem_cons_self))
    rw [hdrop]
    exact htail.cons_cons c

theorem areLetters_iff_ascending {ss : List Subset} :
    AreLetters Extension.letterOrder ss ↔ Ascending ss := by
  constructor
  · rintro ⟨letters, hsub, hnames⟩
    rw [← List.drop_zero (l := Extension.letterOrder)] at hsub
    obtain ⟨ranks, hranks, hsorted, -⟩ := exists_ranks_of_sublist hsub
    exact ⟨letters, ranks, hnames, hranks, hsorted⟩
  · rintro ⟨letters, ranks, hnames, hranks, hsorted⟩
    have hsub : letters.Sublist (Extension.letterOrder.drop 0) :=
      sublist_of_ranks hranks hsorted fun r _ => Nat.zero_le r
    exact ⟨letters, hsub, hnames⟩

/-! ### Groups -/

/-- A name whose characters an ISA string may have in a longer name. -/
def IsSpelled (name : String) : Prop :=
  ∀ c ∈ name.toList, Reader.isNameChar c = true ∧ IsPlain c

/-- The groups of a class, by the names that it allows. -/
theorem isGroup_iff_isSorted {cls : ExtensionClass} {allowed : String → Prop}
    (h : ∀ name, allowed name ↔ cls.accepts name = true ∧ IsSpelled name) {ss : List Subset} :
    IsGroup cls ss ↔ IsSorted allowed ss := by
  have hbytes : (∀ s ∈ ss, IsSpelled s.name) → ((ss.map Subset.name).IsChain (· < ·) ↔
      (ss.map fun s => Text.bytes s.name).Pairwise (· < ·)) := by
    intro hspelled
    rw [List.isChain_iff_pairwise, List.pairwise_map, List.pairwise_map]
    apply List.Pairwise.iff_of_mem
    intro s t hs ht
    exact (Text.bytes_lt_bytes_iff (fun c hc => (hspelled s hs c hc).2.2)
      fun c hc => (hspelled t ht c hc).2.2).symm
  constructor
  · rintro ⟨haccepted, hspelled, hincreasing⟩
    refine ⟨fun s hs => (h s.name).2 ⟨haccepted s hs, hspelled s hs⟩, ?_⟩
    exact (hbytes hspelled).1 hincreasing
  · rintro ⟨hallowed, hincreasing⟩
    have hspelled : ∀ s ∈ ss, IsSpelled s.name := fun s hs => ((h s.name).1 (hallowed s hs)).2
    exact ⟨fun s hs => ((h s.name).1 (hallowed s hs)).1, hspelled, (hbytes hspelled).2 hincreasing⟩

theorem mem_supervisorNames_iff (name : String) : name ∈ Extension.supervisorNames ↔
    ExtensionClass.supervisor.accepts name = true ∧ IsSpelled name := by
  have hspelled : ∀ n ∈ Extension.supervisorNames, n.toList.Forall fun c =>
      Reader.isNameChar c = true ∧ IsPlain c := by decide
  simp only [ExtensionClass.accepts, List.contains_iff_mem]
  exact ⟨fun hn => ⟨hn, List.forall_iff_forall_mem.1 (hspelled name hn)⟩, And.left⟩

theorem mem_zNames_iff (name : String) : name ∈ Extension.zNames ↔
    ExtensionClass.z.accepts name = true ∧ IsSpelled name := by
  have hspelled : ∀ n ∈ Extension.zNames, n.toList.Forall fun c =>
      Reader.isNameChar c = true ∧ IsPlain c := by decide
  simp only [ExtensionClass.accepts, List.contains_iff_mem]
  exact ⟨fun hn => ⟨hn, List.forall_iff_forall_mem.1 (hspelled name hn)⟩, And.left⟩

theorem isVendorName_iff (name : String) : IsVendorName name ↔
    ExtensionClass.nonStandard.accepts name = true ∧ IsSpelled name := by
  have hchar : ∀ c : Char, Reader.isNameChar c = true ∧ IsPlain c ↔
      c.toNat < 128 ∧ c.isUpper = false ∧ c.isDigit = false ∧ c ≠ '_' := by
    intro c
    simp [Reader.isNameChar, IsPlain]
    tauto
  have hlong : ExtensionClass.nonStandard.accepts name = true ↔
      name.toList.head? = some 'x' ∧ 1 < name.length := by
    rw [← String.length_toList]
    unfold ExtensionClass.accepts
    rcases name.toList with _ | ⟨a, _ | ⟨b, rest⟩⟩
    · simp
    · simp
    · by_cases ha : a = 'x' <;> simp [ha]
  unfold IsSpelled
  simp only [hchar, hlong]
  constructor
  · rintro ⟨hinitial, hlength, hascii, hspelled⟩
    exact ⟨⟨hinitial, hlength⟩, fun c hc => ⟨hascii c hc, hspelled c hc⟩⟩
  · rintro ⟨⟨hinitial, hlength⟩, hspelled⟩
    exact ⟨hinitial, hlength, fun c hc => (hspelled c hc).1, fun c hc => (hspelled c hc).2⟩

/-! ### Listings -/

theorem arranged_iff {ss : List Subset} : Arranged ss ↔
    ∃ base letters supervisor z vendor, ss = base ++ letters ++ supervisor ++ z ++ vendor ∧
      (base.map Subset.name = ["i"] ∨ base.map Subset.name = ["e", "i"]) ∧ Ascending letters ∧
      IsSorted (· ∈ Extension.supervisorNames) supervisor ∧ IsSorted (· ∈ Extension.zNames) z ∧
      IsSorted IsVendorName vendor := by
  constructor
  · rintro ⟨base, letters, groups, rfl, hbase, hletters, hgroups⟩
    obtain ⟨supervisor, _, hsupervisor, hrest, rfl⟩ := List.forall₂_cons_left_iff.1 hgroups
    obtain ⟨z, _, hz, hlast, rfl⟩ := List.forall₂_cons_left_iff.1 hrest
    obtain ⟨vendor, _, hvendor, hnone, rfl⟩ := List.forall₂_cons_left_iff.1 hlast
    cases hnone
    exact ⟨base, letters, supervisor, z, vendor, by simp, hbase,
      areLetters_iff_ascending.1 hletters,
      (isGroup_iff_isSorted mem_supervisorNames_iff).1 hsupervisor,
      (isGroup_iff_isSorted mem_zNames_iff).1 hz, (isGroup_iff_isSorted isVendorName_iff).1 hvendor⟩
  · rintro ⟨base, letters, supervisor, z, vendor, rfl, hbase, hletters, hsupervisor, hz, hvendor⟩
    exact ⟨base, letters, [supervisor, z, vendor], by simp, hbase,
      areLetters_iff_ascending.2 hletters,
      .cons ((isGroup_iff_isSorted mem_supervisorNames_iff).2 hsupervisor)
        (.cons ((isGroup_iff_isSorted mem_zNames_iff).2 hz)
          (.cons ((isGroup_iff_isSorted isVendorName_iff).2 hvendor) .nil))⟩

theorem has_iff_mem {isa : Isa} {name : String} :
    isa.has name = true ↔ name ∈ isa.subsets.map Subset.name := by
  unfold has find?
  rw [List.find?_isSome, List.mem_map]
  simp

theorem coherent_iff {xlen : Xlen} {ss : List Subset} : Coherent ⟨xlen, ss⟩ ↔
    ("d" ∈ ss.map Subset.name → "f" ∈ ss.map Subset.name) ∧
      ("q" ∈ ss.map Subset.name → "d" ∈ ss.map Subset.name ∧ xlen = .rv64) ∧
      ("e" ∈ ss.map Subset.name → xlen = .rv32 ∧ "f" ∉ ss.map Subset.name) := by
  constructor
  · rintro ⟨hdouble, hquad, hreduced⟩
    simp only [← Bool.not_eq_true, has_iff_mem] at hdouble hquad hreduced
    exact ⟨hdouble, hquad, hreduced⟩
  · rintro ⟨hdouble, hquad, hreduced⟩
    constructor <;> simp only [← Bool.not_eq_true, has_iff_mem] <;> assumption

theorem settled_iff {lookup : KnownVersions} {s : Subset} : s.Settled lookup ↔
    (s.version = ⟨0, 0⟩ → lookup s.name = none ∨ lookup s.name = some ⟨0, 0⟩) := by
  unfold Subset.Settled
  cases lookup s.name <;> simp

/-- The listings are the well-formed instruction sets. -/
theorem isListing_iff {lookup : KnownVersions} {xlen : Xlen} {ss : List Subset} :
    IsListing lookup xlen ss ↔ WellFormed lookup ⟨xlen, ss⟩ := by
  constructor
  · rintro ⟨hparts, hdouble, hquad, hreduced, hversions⟩
    exact ⟨arranged_iff.2 hparts, fun s hs => settled_iff.2 (hversions s hs),
      coherent_iff.2 ⟨hdouble, hquad, hreduced⟩⟩
  · rintro ⟨harranged, hsettled, hcoherent⟩
    obtain ⟨hdouble, hquad, hreduced⟩ := coherent_iff.1 hcoherent
    exact ⟨arranged_iff.1 harranged, hdouble, hquad, hreduced,
      fun s hs => settled_iff.1 (hsettled s hs)⟩

/-- **The reader accepts exactly the listings.** For every lookup of versions, a width and a list of
subsets are what some ISA string describes if and only if they are a listing. -/
theorem exists_parse_iff_isListing (lookup : KnownVersions) (xlen : Xlen) (ss : List Subset) :
    (∃ arch : List Char, parse lookup arch = .ok ⟨xlen, ss⟩) ↔ IsListing lookup xlen ss := by
  rw [isListing_iff]
  constructor
  · rintro ⟨arch, h⟩
    exact WellFormed.of_read (read_of_parse h)
  · intro h
    refine ⟨canonical ⟨xlen, ss⟩, ?_⟩
    unfold parse
    rw [h.read_canonical]

end Isa

end RiscvAssembler
