import RiscvAssembler.Isa.Basic
import RiscvAssembler.Text.Scan

/-!
Reading ISA strings such as `rv64imac_zicsr2p0`: a base width, a first subset, single letters in
canonical order, then longer names class by class. A subset written without a version gets one
from a lookup that the caller supplies. `Isa.parse` rejects every other string with a cause and
the part of the string it stopped at.
-/

namespace RiscvAssembler

/-- Why an ISA string is rejected. -/
inductive IsaFault where
  /-- It has upper-case letters. -/
  | uppercase
  /-- It does not open with a known width. -/
  | malformedBase
  /-- The first subset is none of `i`, `e` and `g`. -/
  | invalidFirst
  /-- A subset stands after one that should follow it. -/
  | outOfOrder
  /-- A subset is unknown. -/
  | unknownExtension
  /-- A subset is given twice. -/
  | duplicateExtension
  /-- Two longer names stand together without a separator. -/
  | missingSeparator
  /-- A version number is malformed or too large. -/
  | invalidVersion
  /-- Text is left over at the end. -/
  | unexpectedSuffix
  /-- A subset needs another one that is absent. -/
  | missingCompanion (needed : String)
  /-- The base `e` is combined with 64-bit registers or floating point. -/
  | reducedBaseOnly
  /-- A subset needs wider registers. -/
  | widthIncompatible
deriving DecidableEq, Repr

/-- A rejected ISA string: the cause, the part of the string it concerns, and all of the string. -/
structure IsaError where
  fault : IsaFault
  offending : String
  arch : String
deriving DecidableEq, Repr

namespace IsaFault

/-- What diagnostics say of the cause. -/
def message : IsaFault → String
  | .uppercase => "ISA string must not contain upper case letters"
  | .malformedBase => "ISA string must begin with rv32 or rv64"
  | .invalidFirst => "first ISA subset must be `e', `i' or `g'"
  | .outOfOrder => "ISA string is not in canonical order"
  | .unknownExtension => "unknown extension"
  | .duplicateExtension => "duplicate extension"
  | .missingSeparator => "multi-letter extensions must be separated by `_'"
  | .invalidVersion => "expect number after `p'"
  | .unexpectedSuffix => "unexpected ISA string at end"
  | .missingCompanion needed => "extension requires `" ++ needed ++ "'"
  | .reducedBaseOnly => "the `e' base is only valid as rv32 without the `f' extension"
  | .widthIncompatible => "extension requires rv64"

end IsaFault

/-- What diagnostics say of a rejected ISA string. -/
def IsaError.message (e : IsaError) : String :=
  "-march=" ++ e.arch ++ ": " ++ e.fault.message ++ " `" ++ e.offending ++ "'"

namespace Isa

/-- The version of a subset that is written without one. -/
abbrev KnownVersions := String → Option Version

namespace Reader

/-- A result, or a cause with the text it concerns. -/
abbrev Result (α : Type) := Except (IsaFault × List Char) α

/-! ### Versions -/

/-- A decimal number of at most 32 bits, if the text starts with a digit. -/
def number (s : List Char) : Result (Option UInt32 × List Char) :=
  match s.takeWhile Char.isDigit with
  | [] => .ok (none, s)
  | d :: digits =>
    match (Text.readNumeral? 10 (d :: digits)).filter (· < 0x100000000) with
    | some n => .ok (some (UInt32.ofNat n), s.dropWhile Char.isDigit)
    | none => .error (.invalidVersion, s)

/-- The version that two numbers spell. Zero stands for a version that is not written. -/
def versionOf (major minor : Option UInt32) : Option Version :=
  match major, minor with
  | none, _ => none
  | some major, minor =>
    if major = 0 ∧ minor.getD 0 = 0 then none else some ⟨major, minor.getD 0⟩

/-- A version `<major>` or `<major>p<minor>`, if one is written. A `p` that no version contains is
the next letter after a single letter, and a mistake after a longer name. -/
def version (afterLetter : Bool) (s : List Char) : Result (Option Version × List Char) := do
  let (major, rest) ← number s
  match rest with
  | 'p' :: rest' =>
    if (rest'.head?.any Char.isDigit) && major.isSome then
      let (minor, rest'') ← number rest'
      return (versionOf major minor, rest'')
    else if afterLetter then return (versionOf major none, rest)
    else throw (.invalidVersion, s)
  | _ => return (versionOf major none, rest)

theorem length_of_number {s rest : List Char} {n : Option UInt32}
    (h : number s = .ok (n, rest)) : rest.length ≤ s.length := by
  unfold number at h
  split at h
  · cases h
    exact Nat.le_refl _
  · split at h
    · cases h
      exact (List.dropWhile_suffix Char.isDigit).length_le
    · cases h

theorem length_of_version {afterLetter : Bool} {s rest : List Char} {v : Option Version}
    (h : version afterLetter s = .ok (v, rest)) : rest.length ≤ s.length := by
  unfold version at h
  cases hn : number s with
  | error e => simp [hn, bind, Except.bind] at h
  | ok pair =>
    obtain ⟨major, r⟩ := pair
    have hr := length_of_number hn
    simp only [hn, bind, Except.bind] at h
    split at h
    · rename_i r'
      split at h
      · cases hm : number r' with
        | error e => simp [hm] at h
        | ok pair =>
          obtain ⟨minor, r''⟩ := pair
          have hr' := length_of_number hm
          simp only [hm, pure, Except.pure, Except.ok.injEq, Prod.mk.injEq] at h
          rw [← h.2]
          simp only [List.length_cons] at hr
          omega
      · split at h
        · simp only [pure, Except.pure, Except.ok.injEq, Prod.mk.injEq] at h
          rw [← h.2]
          exact hr
        · cases h
    · simp only [pure, Except.pure, Except.ok.injEq, Prod.mk.injEq] at h
      rw [← h.2]
      exact hr

/-! ### Subsets -/

/-- A subset with the version written for it, or else the one looked up, or else 0.0. -/
def subset (lookup : KnownVersions) (name : String) (written : Option Version) : Subset :=
  ⟨name, (written.or (lookup name)).getD ⟨0, 0⟩⟩

/-- The base width and the text after it. -/
def base (arch : List Char) : Result (Xlen × List Char) :=
  if arch.any Char.isUpper then .error (.uppercase, arch)
  else if !arch.all (·.toNat < 128) then .error (.unknownExtension, arch)
  else match Text.after? Xlen.rv32.text arch, Text.after? Xlen.rv64.text arch with
    | some rest, _ => .ok (.rv32, rest)
    | none, some rest => .ok (.rv64, rest)
    | none, none => .error (.malformedBase, arch)

/-- The first subset. Base `e` brings `i`, which may be spelt out; `g` stands for `i` and more. -/
def first (lookup : KnownVersions) (s : List Char) : Result (List Subset × List Char) :=
  match s with
  | 'i' :: rest => do
    let (v, rest) ← version true rest
    return ([subset lookup "i" v], rest)
  | 'e' :: rest => do
    let (v, rest) ← version true rest
    let next := match rest with
      | '_' :: after => after
      | _ => rest
    match next with
    | 'i' :: after =>
      let (w, after) ← version true after
      return ([subset lookup "e" v, subset lookup "i" w], after)
    | _ => return ([subset lookup "e" v, subset lookup "i" none], rest)
  | 'g' :: rest => do
    let (v, rest) ← version true rest
    return (("i" :: Extension.generalLetters.map String.singleton).map (subset lookup · v), rest)
  | _ => .error (.invalidFirst, s)

/-- The lowest rank that a letter after these subsets may have. -/
def nextRank (subsets : List Subset) : Nat :=
  match subsets.getLast?.bind (·.name.toList.head?.bind Extension.rank?) with
  | some rank => rank + 1
  | none => 0

/-- Single letters, up to the first class letter; `subsets` come before them. -/
def letters (lookup : KnownVersions) (rank : Nat) (subsets : List Subset) (s : List Char) :
    Result (List Subset × List Char) :=
  match s with
  | [] => .ok (subsets, [])
  | c :: rest =>
    if c = '_' then letters lookup rank subsets rest
    else if ExtensionClass.isClassLetter c then .ok (subsets, c :: rest)
    else if subsets.any (·.name == String.singleton c) then
      .error (.duplicateExtension, c :: rest)
    else match Extension.rank? c with
      | none => .error (.unknownExtension, c :: rest)
      | some r =>
        if r < rank then .error (.outOfOrder, c :: rest)
        else match h : version true rest with
          | .error e => .error e
          | .ok (v, after) =>
            have := length_of_version h
            letters lookup (r + 1) (subsets ++ [subset lookup (String.singleton c) v]) after
termination_by s.length

/-- Characters of a longer name: all but the separator and digits. -/
def isNameChar (c : Char) : Bool :=
  c != '_' && !c.isDigit

/-- The text past the separator after a longer name; only the end may take its place. -/
def separated (s : List Char) : Result (List Char) :=
  match s with
  | [] => .ok []
  | c :: rest => if c = '_' then .ok rest else .error (.missingSeparator, s)

theorem length_of_separated {s rest : List Char} (h : separated s = .ok rest) :
    rest.length ≤ s.length - 1 := by
  unfold separated at h
  split at h
  · cases h
    exact Nat.le_refl _
  · split at h
    · cases h
      simp
    · cases h

/-- The longer names of one class, whose letter is `letter`; `last` is the name before them. -/
def names (lookup : KnownVersions) (cls : ExtensionClass) (letter : Char)
    (last : Option String) (subsets : List Subset) (s : List Char) :
    Result (List Subset × List Char) :=
  match s with
  | [] => .ok (subsets, [])
  | c :: rest =>
    if c ≠ letter then .ok (subsets, c :: rest)
    else
      let chars := (c :: rest).takeWhile isNameChar
      let name := String.ofList chars
      if !cls.accepts name then .error (.unknownExtension, chars)
      else if subsets.any (·.name == name) then .error (.duplicateExtension, chars)
      else if last.any (name < ·) then .error (.outOfOrder, chars)
      else match hv : version false ((c :: rest).dropWhile isNameChar) with
        | .error e => .error e
        | .ok (v, after) =>
          match hs : separated after with
          | .error e => .error e
          | .ok next =>
            have : next.length < (c :: rest).length := by
              have hv := length_of_version hv
              have hs := length_of_separated hs
              have hd := (List.dropWhile_suffix (l := c :: rest) isNameChar).length_le
              rw [List.length_cons] at hd ⊢
              omega
            names lookup cls letter (some name) (subsets ++ [subset lookup name v]) next
termination_by s.length
decreasing_by exact this

/-- The longer names of every class. -/
def classes (lookup : KnownVersions) :
    List ExtensionClass → List Subset → List Char → Result (List Subset × List Char)
  | [], subsets, s => .ok (subsets, s)
  | cls :: rest, subsets, s =>
    match cls.letter? with
    | none => classes lookup rest subsets s
    | some letter => do
      let (subsets, s) ← names lookup cls letter none subsets s
      classes lookup rest subsets s

/-- Text after the last subset: a class out of its place, or no subset at all. -/
def finish (s : List Char) : Result Unit :=
  match s with
  | [] => .ok ()
  | c :: _ =>
    if ExtensionClass.isClassLetter c then .error (.outOfOrder, s)
    else .error (.unexpectedSuffix, s)

/-- Which subsets go together, and with which width. -/
def consistent (isa : Isa) : Result Unit :=
  if isa.has "e" && isa.has "f" then .error (.reducedBaseOnly, "f".toList)
  else if isa.has "e" && isa.xlen = .rv64 then .error (.reducedBaseOnly, "rv64e".toList)
  else if isa.has "d" && !isa.has "f" then .error (.missingCompanion "f", "d".toList)
  else if isa.has "q" && !isa.has "d" then .error (.missingCompanion "d", "q".toList)
  else if isa.has "q" && isa.xlen = .rv32 then .error (.widthIncompatible, "q".toList)
  else .ok ()

/-- The instruction set that an ISA string describes. -/
def read (lookup : KnownVersions) (arch : List Char) : Result Isa := do
  let (xlen, s) ← base arch
  let (subsets, s) ← first lookup s
  let (subsets, s) ← letters lookup (nextRank subsets) subsets s
  let (subsets, s) ← classes lookup ExtensionClass.multiLetter subsets s
  finish s
  let isa : Isa := ⟨xlen, subsets⟩
  consistent isa
  return isa

end Reader

/-- The instruction set that an ISA string describes, or why it describes none. -/
def parse (lookup : KnownVersions) (arch : List Char) : Except IsaError Isa :=
  match Reader.read lookup arch with
  | .ok isa => .ok isa
  | .error (fault, offending) => .error ⟨fault, String.ofList offending, String.ofList arch⟩

end Isa

end RiscvAssembler
