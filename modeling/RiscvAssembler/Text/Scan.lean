/-!
Scanning of source text, held as a list of characters. Each scan takes characters off the front
and leaves the rest, so the characters it returns and the rest concatenate to its input.
Letters and digits are the ASCII ones; only trimming knows the white space of other scripts.
-/

namespace RiscvAssembler.Text

/-! ### Character classes -/

/-- Blanks between operands: space and tab. -/
def isBlank (c : Char) : Bool :=
  c == ' ' || c == '\t'

/-- Characters of a register or opcode name. -/
def isWordChar (c : Char) : Bool :=
  c.isAlphanum || c == '_'

/-- Characters a symbol may start with. -/
def isSymbolStart (c : Char) : Bool :=
  c.isAlpha || c == '_' || c == '.' || c == '$'

/-- Characters of a symbol or of a numeric label. -/
def isSymbolChar (c : Char) : Bool :=
  isSymbolStart c || c.isDigit

/-- ASCII white space, without the vertical tab. -/
def isAsciiSpace (c : Char) : Bool :=
  c == ' ' || c == '\t' || c == '\n' || c == '\r' || c == '\x0c'

/-- White space that trimming removes: the characters with the Unicode property of that name. -/
def isSpace (c : Char) : Bool :=
  let n := c.toNat
  (0x09 ≤ n && n ≤ 0x0d) || n == 0x20 || n == 0x85 || n == 0xa0 || n == 0x1680 ||
    (0x2000 ≤ n && n ≤ 0x200a) || n == 0x2028 || n == 0x2029 || n == 0x202f || n == 0x205f ||
    n == 0x3000

/-! ### Taking text off the front -/

/-- The text after its leading blanks. -/
def dropBlanks (s : List Char) : List Char :=
  s.dropWhile isBlank

/-- The text after `c`, if it starts with `c`. -/
def afterChar? (c : Char) : List Char → Option (List Char)
  | [] => none
  | d :: rest => if d = c then some rest else none

/-- The text after `word`, if it starts with `word`. -/
def after? : (word s : List Char) → Option (List Char)
  | [], s => some s
  | _ :: _, [] => none
  | w :: word, c :: rest => if c = w then after? word rest else none

/-- The text after `word`, if it starts with `word` in any mixture of cases. -/
def afterIgnoringCase? : (word s : List Char) → Option (List Char)
  | [], s => some s
  | _ :: _, [] => none
  | w :: word, c :: rest =>
    if c.toLower = w.toLower then afterIgnoringCase? word rest else none

/-! ### Trimming and splitting -/

/-- The text without its leading white space. -/
def trimStart (s : List Char) : List Char :=
  s.dropWhile isSpace

/-- The text without its trailing white space. -/
def trimEnd (s : List Char) : List Char :=
  (s.reverse.dropWhile isSpace).reverse

/-- The text without white space at either end. -/
def trim (s : List Char) : List Char :=
  trimEnd (trimStart s)

/-- The text before the first `sep` and the text after it. -/
def splitFirst? (sep : Char) : List Char → Option (List Char × List Char)
  | [] => none
  | c :: rest =>
    if c = sep then some ([], rest)
    else (splitFirst? sep rest).map fun (before, after) => (c :: before, after)

/-- The first word of a trimmed text, and what follows the blanks after it. -/
def firstWord (s : List Char) : List Char × List Char :=
  let t := trim s
  (t.takeWhile (!isBlank ·), trimStart (t.dropWhile (!isBlank ·)))

/-! ### Lengths -/

theorem length_dropBlanks_le (s : List Char) : (dropBlanks s).length ≤ s.length :=
  (List.dropWhile_suffix isBlank).length_le

theorem length_trimStart_le (s : List Char) : (trimStart s).length ≤ s.length :=
  (List.dropWhile_suffix isSpace).length_le

theorem length_of_splitFirst? {sep : Char} {s before after : List Char}
    (h : splitFirst? sep s = some (before, after)) : after.length < s.length := by
  induction s generalizing before after with
  | nil => simp [splitFirst?] at h
  | cons c rest ih =>
    unfold splitFirst? at h
    split at h
    · cases h
      simp
    · obtain ⟨⟨b, a⟩, hr, he⟩ := Option.map_eq_some_iff.1 h
      cases he
      exact Nat.lt_succ_of_lt (ih hr)

end RiscvAssembler.Text
