import Mathlib.Data.String.Basic

/-!
Texts by their bytes. A text whose bytes are all below 128 has one character for each
(`toList_eq_asciiChars`) and is ordered as they are (`bytes_lt_bytes_iff`), and a text is known by
its bytes, written as one number (`code_injective`). Bytes evaluate where characters do not: a
literal is encoded once, and nothing decodes it again.
-/

namespace RiscvAssembler.Text

/-- The bytes of a text. -/
def bytes (text : String) : List UInt8 :=
  text.toByteArray.data.toList

theorem bytes_eq_flatMap (text : String) :
    bytes text = text.toList.flatMap String.utf8EncodeChar := by
  have hencoded : text.toByteArray = text.toList.utf8Encode := String.utf8Encode_toList.symm
  rw [bytes, hencoded, List.utf8Encode, List.toList_data_toByteArray]

theorem bytes_inj {a b : String} : bytes a = bytes b ↔ a = b := by
  constructor
  · intro h
    exact String.toByteArray_inj.1 (ByteArray.ext (Array.toList_inj.1 h))
  · rintro rfl
    rfl

/-! ### Characters of one byte -/

/-- Whether every byte is a character of its own. -/
def isAscii (text : String) : Bool :=
  (bytes text).all fun b => b.toNat < 128

/-- The characters of a text, if each is one byte. -/
def asciiChars (text : String) : List Char :=
  (bytes text).map fun b => Char.ofNat b.toNat

/-- A character with no byte from 128 on is its only byte. -/
theorem map_utf8EncodeChar {c : Char} (h : ∀ b ∈ String.utf8EncodeChar c, b.toNat < 128) :
    (String.utf8EncodeChar c).map (fun b => Char.ofNat b.toNat) = [c] := by
  unfold String.utf8EncodeChar at h ⊢
  dsimp only at h ⊢
  split
  · rename_i hle
    have hbyte : c.val.toNat % 2 ^ 8 = c.toNat := Nat.mod_eq_of_lt (by omega)
    simp only [List.map_cons, List.map_nil, UInt8.toNat_ofNat', hbyte, Char.ofNat_toNat]
  · -- The first byte of a longer encoding is 192 or more.
    rename_i hgt
    rw [if_neg hgt] at h
    exfalso
    split at h
    · have hfirst := h _ List.mem_cons_self
      rw [UInt8.toNat_ofNat'] at hfirst
      omega
    · split at h <;>
      · have hfirst := h _ List.mem_cons_self
        rw [UInt8.toNat_ofNat'] at hfirst
        omega

theorem toList_eq_asciiChars {text : String} (h : isAscii text = true) :
    text.toList = asciiChars text := by
  rw [isAscii, List.all_eq_true] at h
  rw [asciiChars]
  rw [bytes_eq_flatMap] at h ⊢
  generalize text.toList = chars at h ⊢
  induction chars with
  | nil => rfl
  | cons c chars ih =>
    rw [List.flatMap_cons] at h ⊢
    have hc : ∀ b ∈ String.utf8EncodeChar c, b.toNat < 128 := fun b hb =>
      of_decide_eq_true (h b (List.mem_append_left _ hb))
    rw [List.map_append, map_utf8EncodeChar hc,
      ← ih fun b hb => h b (List.mem_append_right _ hb)]
    rfl

/-- The bytes of a text in ASCII are its characters. -/
theorem bytes_eq_map {text : String} (h : ∀ c ∈ text.toList, c.toNat < 128) :
    bytes text = text.toList.map fun c => UInt8.ofNat c.toNat := by
  rw [bytes_eq_flatMap, List.map_eq_flatMap]
  apply List.flatMap_congr
  intro c hc
  have hc := h c hc
  unfold String.utf8EncodeChar
  dsimp only
  rw [if_pos (show c.val.toNat ≤ 127 from Nat.le_of_lt_succ hc)]
  rfl

/-- Characters in ASCII are ordered as their bytes are. -/
theorem map_lt_map_iff {as bs : List Char} (ha : ∀ c ∈ as, c.toNat < 128)
    (hb : ∀ c ∈ bs, c.toNat < 128) :
    as.map (fun c => UInt8.ofNat c.toNat) < bs.map (fun c => UInt8.ofNat c.toNat) ↔ as < bs := by
  induction as generalizing bs with
  | nil => cases bs <;> simp
  | cons a as ih =>
    cases bs with
    | nil => simp
    | cons b bs =>
      obtain ⟨ha, has⟩ := List.forall_mem_cons.1 ha
      obtain ⟨hb, hbs⟩ := List.forall_mem_cons.1 hb
      have hbyte : ∀ c : Char, c.toNat < 128 → (UInt8.ofNat c.toNat).toNat = c.toNat := by
        intro c hc
        rw [UInt8.toNat_ofNat', Nat.mod_eq_of_lt (by omega)]
      rw [List.map_cons, List.map_cons, List.cons_lt_cons_iff, List.cons_lt_cons_iff, ih has hbs,
        UInt8.lt_iff_toNat_lt, ← UInt8.toNat_inj, hbyte a ha, hbyte b hb, Char.toNat_inj]
      rfl

/-- Texts in ASCII are ordered as their bytes are. -/
theorem bytes_lt_bytes_iff {a b : String} (ha : ∀ c ∈ a.toList, c.toNat < 128)
    (hb : ∀ c ∈ b.toList, c.toNat < 128) : bytes a < bytes b ↔ a < b := by
  rw [bytes_eq_map ha, bytes_eq_map hb, String.lt_iff_toList_lt]
  exact map_lt_map_iff ha hb

/-! ### Texts as numbers -/

/-- Bytes as one number, the first one lowest, with a one above the last. -/
def byteNumber (bs : List UInt8) : Nat :=
  bs.foldr (fun b n => n * 256 + b.toNat) 1

theorem byteNumber_cons (b : UInt8) (bs : List UInt8) :
    byteNumber (b :: bs) = byteNumber bs * 256 + b.toNat :=
  rfl

theorem byteNumber_pos (bs : List UInt8) : 0 < byteNumber bs := by
  induction bs with
  | nil => decide
  | cons b bs ih =>
    rw [byteNumber_cons]
    omega

theorem byteNumber_cons_ne_nil (b : UInt8) (bs : List UInt8) :
    byteNumber (b :: bs) ≠ byteNumber [] := by
  have hpos := byteNumber_pos bs
  have hnil : byteNumber [] = 1 := rfl
  rw [byteNumber_cons, hnil]
  omega

theorem byteNumber_injective : Function.Injective byteNumber := by
  intro as
  induction as with
  | nil =>
    intro bs h
    cases bs with
    | nil => rfl
    | cons b bs => exact absurd h.symm (byteNumber_cons_ne_nil b bs)
  | cons a as ih =>
    intro bs h
    cases bs with
    | nil => exact absurd h (byteNumber_cons_ne_nil a as)
    | cons b bs =>
      rw [byteNumber_cons, byteNumber_cons] at h
      have ha := a.toNat_lt
      have hb := b.toNat_lt
      have hfirst : a = b := UInt8.toNat_inj.1 (by omega)
      have hrest : as = bs := ih (by omega)
      rw [hfirst, hrest]

/-- A text as one number. -/
def code (text : String) : Nat :=
  byteNumber (bytes text)

theorem code_injective : Function.Injective code := by
  intro a b h
  exact bytes_inj.1 (byteNumber_injective h)

end RiscvAssembler.Text
