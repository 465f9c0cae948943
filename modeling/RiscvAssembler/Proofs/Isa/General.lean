import RiscvAssembler.Proofs.Isa.Canonical

/-!
The shorthand `g`. Read letter by letter, `imafd` leaves the reader with the subsets and the next rank
that `g` gives it at once (`letters_general`), so the two are read alike before every text that does
not continue a version (`general_reads_as_imafd`).
-/

namespace RiscvAssembler

namespace Isa

namespace Reader

variable {lookup : KnownVersions}

/-- No version is written before a text that no digit starts; a `p` there is the next letter. -/
theorem version_of_noDigit {s : List Char} (h : NoDigit s) : version true s = .ok (none, s) := by
  have hdigits : s.takeWhile Char.isDigit = [] := by
    cases s with
    | nil => rfl
    | cons c s => simp [h c rfl]
  have hnumber : number s = .ok (none, s) := by
    unfold number
    rw [hdigits]
  unfold version
  rw [hnumber]
  cases s with
  | nil => rfl
  | cons c s =>
    by_cases hp : c = 'p'
    · subst hp
      simp [bind, Except.bind, versionOf, pure, Except.pure]
    · simp [bind, Except.bind, versionOf, hp, pure, Except.pure]

/-- A letter without a version is added, and the next letter has to have a higher rank. -/
theorem letters_cons {rank r : Nat} {ss : List Subset} {c : Char} {s : List Char}
    (hc : Extension.rank? c = some r) (hr : rank ≤ r)
    (hfresh : ss.any (·.name == String.singleton c) = false) (hs : NoDigit s) :
    letters lookup rank ss (c :: s) =
      letters lookup (r + 1) (ss ++ [subset lookup (String.singleton c) none]) s := by
  obtain ⟨hsep, hclass⟩ := isClassLetter_of_rank? hc
  rw [letters, if_neg hsep, hclass, hfresh]
  simp only [hc, Nat.not_lt.2 hr, if_false, Bool.false_eq_true]
  split
  · rename_i e hv
    rw [version_of_noDigit hs] at hv
    cases hv
  · rename_i v after hv
    rw [version_of_noDigit hs] at hv
    cases hv
    rfl

/-- The subsets that `g` stands for, without a version. -/
def generalSubsets (lookup : KnownVersions) : List Subset :=
  ("i" :: Extension.generalLetters.map String.singleton).map (subset lookup · none)

theorem nextRank_generalSubsets : nextRank (generalSubsets lookup) = 4 := by
  simp [nextRank, generalSubsets, Extension.generalLetters, subset]
  decide

/-- The letters that `g` adds, one by one. -/
theorem letters_general {s : List Char} (hs : NoDigit s) :
    letters lookup 0 [subset lookup "i" none] (Extension.generalLetters ++ s) =
      letters lookup 4 (generalSubsets lookup) s := by
  have hm : Extension.rank? 'm' = some 0 := by decide
  have ha : Extension.rank? 'a' = some 1 := by decide
  have hf : Extension.rank? 'f' = some 2 := by decide
  have hd : Extension.rank? 'd' = some 3 := by decide
  change letters lookup 0 _ ('m' :: 'a' :: 'f' :: 'd' :: s) = _
  rw [letters_cons hm (by decide) rfl (noDigit_cons rfl _),
    letters_cons ha (by decide) rfl (noDigit_cons rfl _),
    letters_cons hf (by decide) rfl (noDigit_cons rfl _), letters_cons hd (by decide) rfl hs]
  rfl

/-- What the base comes down to once the width is there: the characters of the rest. -/
theorem base_text (xlen : Xlen) (s : List Char) :
    base (xlen.text ++ s) =
      if s.any Char.isUpper then .error (.uppercase, xlen.text ++ s)
      else if !s.all (·.toNat < 128) then .error (.unknownExtension, xlen.text ++ s)
      else .ok (xlen, s) := by
  have hupper : (xlen.text ++ s).any Char.isUpper = s.any Char.isUpper := by
    rw [List.any_append]
    cases xlen <;> rfl
  have hascii : (xlen.text ++ s).all (·.toNat < 128) = s.all (·.toNat < 128) := by
    rw [List.all_append]
    cases xlen <;> rfl
  unfold base
  rw [hupper, hascii]
  cases xlen <;> rfl

theorem first_general {s : List Char} (hs : NoDigit s) :
    first lookup ('g' :: s) = .ok (generalSubsets lookup, s) := by
  simp only [first, version_of_noDigit hs, bind, Except.bind]
  rfl

theorem first_imafd (s : List Char) :
    first lookup ("imafd".toList ++ s) =
      .ok ([subset lookup "i" none], Extension.generalLetters ++ s) := by
  change first lookup ('i' :: 'm' :: _) = _
  simp only [first, version_of_noDigit (noDigit_cons (c := 'm') rfl _), bind, Except.bind]
  rfl

/-- Once the characters are accepted, the two spellings are read alike. -/
theorem read_general (xlen : Xlen) {s : List Char} (hs : NoDigit s)
    (hbase : base (xlen.text ++ 'g' :: s) = .ok (xlen, 'g' :: s))
    (hbase' : base (xlen.text ++ ("imafd".toList ++ s)) = .ok (xlen, "imafd".toList ++ s)) :
    read lookup (xlen.text ++ 'g' :: s) = read lookup (xlen.text ++ ("imafd".toList ++ s)) := by
  have hrank : nextRank [subset lookup "i" none] = 0 := nextRank_of_isBase (.inl rfl)
  unfold read
  rw [hbase, hbase']
  simp only [bind, Except.bind, first_general hs, first_imafd, nextRank_generalSubsets, hrank,
    letters_general hs]

end Reader

theorem mapError_parse (lookup : KnownVersions) (arch : List Char) :
    (parse lookup arch).mapError IsaError.fault = (Reader.read lookup arch).mapError Prod.fst := by
  unfold parse
  cases Reader.read lookup arch <;> rfl

/-- **The shorthand `g` is exactly `imafd`.** For each width and every lookup of versions, the two
spellings before a text that no digit starts describe the same instruction set, or are rejected for the
same cause. -/
theorem general_reads_as_imafd (lookup : KnownVersions) (xlen : Xlen) {suffix : List Char}
    (h : ∀ c ∈ suffix.head?, c.isDigit = false) :
    (parse lookup (xlen.text ++ 'g' :: suffix)).mapError IsaError.fault =
      (parse lookup (xlen.text ++ ("imafd".toList ++ suffix))).mapError IsaError.fault := by
  have hbase := Reader.base_text xlen ('g' :: suffix)
  have hbase' := Reader.base_text xlen ("imafd".toList ++ suffix)
  -- None of the letters is in upper case or beyond ASCII, so the suffix alone decides on the base.
  have hupper : ("imafd".toList ++ suffix).any Char.isUpper = ('g' :: suffix).any Char.isUpper := rfl
  have hascii : ("imafd".toList ++ suffix).all (·.toNat < 128) =
      ('g' :: suffix).all (·.toNat < 128) := rfl
  rw [hupper, hascii] at hbase'
  rw [mapError_parse, mapError_parse]
  split at hbase
  · rw [if_pos ‹_›] at hbase'
    unfold Reader.read
    rw [hbase, hbase']
    rfl
  · rw [if_neg ‹_›] at hbase'
    split at hbase
    · rw [if_pos ‹_›] at hbase'
      unfold Reader.read
      rw [hbase, hbase']
      rfl
    · rw [if_neg ‹_›] at hbase'
      rw [Reader.read_general xlen h hbase hbase']

/-- The letter `p` right after the shorthand, with a version of its own. -/
theorem general_reads_as_imafd_packed :
    (∀ c ∈ "p2_xfoo".toList.head?, c.isDigit = false) ∧
      (parse Extension.standardVersion? "rv64gp2_xfoo".toList).mapError IsaError.fault =
        (parse Extension.standardVersion? "rv64imafdp2_xfoo".toList).mapError IsaError.fault := by
  have hsuffix : ∀ c ∈ "p2_xfoo".toList.head?, c.isDigit = false := by
    rintro c ⟨⟩
    rfl
  exact ⟨hsuffix, general_reads_as_imafd Extension.standardVersion? .rv64 hsuffix⟩

end Isa

end RiscvAssembler
