import RiscvAssembler.Operand.Format

/-!
Formats read back. Reading takes off the code of one operand at a time, whatever follows it
(`Format.read_code_append`), and what it takes off is the code of the operand that it gives
(`Format.code_of_single?` and its companions). So reading and writing are inverse to each other, and
no code is the beginning of another one.
-/

namespace RiscvAssembler

namespace Format

/-! ### From operands to codes and back -/

/-- The code of an operand is read as this operand, whatever follows. -/
theorem read_code_append (op : Operand) (rest : List Char) :
    read (op.code ++ rest) = (read rest).map (op :: ·) := by
  cases op with
  | mark m => cases m <;> rfl
  | register bank slot => cases bank <;> cases slot <;> rfl
  | shortRegister bank slot => cases bank <;> cases slot <;> rfl
  | repeated slot => cases slot <;> rfl
  | fixed r => cases r <;> rfl
  | ranged r => cases r <;> rfl
  | keyword k => cases k <;> rfl
  | imm12 i => cases i <;> rfl
  | target k => cases k <;> rfl
  | compressedImm i => cases i <;> rfl
  | bothSources | csr | tprelAdd | zeroOffset | zero | upper | call | constant | symbol | address
  | opcode => rfl

theorem write_cons (op : Operand) (ops : List Operand) : write (op :: ops) = op.code ++ write ops :=
  List.flatMap_cons

theorem read_write (ops : List Operand) : read (write ops) = .ok ops := by
  induction ops with
  | nil => rfl
  | cons op ops ih =>
    rw [write_cons, read_code_append, ih]
    rfl

/-! ### From codes to operands and back -/

theorem code_of_single? {c : Char} {op : Operand} (h : single? c = some op) : op.code = [c] := by
  unfold single? at h
  split at h <;> cases h <;> rfl

theorem code_of_opcode? {c : Char} {op : Operand} (h : opcode? c = some op) :
    op.code = ['O', c] := by
  unfold opcode? at h
  split at h <;> cases h <;> rfl

theorem code_of_function? {c : Char} {op : Operand} (h : function? c = some op) :
    op.code = ['F', c] := by
  unfold function? at h
  split at h <;> cases h <;> rfl

theorem code_of_compressed? {c : Char} {op : Operand} (h : compressed? c = some op) :
    op.code = ['C', c] := by
  unfold compressed? at h
  split at h <;> cases h <;> rfl

theorem code_of_compressedFunction? {c : Char} {op : Operand}
    (h : compressedFunction? c = some op) : op.code = ['C', 'F', c] := by
  unfold compressedFunction? at h
  split at h <;> cases h <;> rfl

/-- A code that is read for an operand is written for it, if the rest is. -/
theorem write_of_push {code rest : List Char} {op : Option Operand} {ops : List Operand}
    (hcode : ∀ o, op = some o → o.code = code)
    (hrest : ∀ more, read rest = .ok more → write more = rest)
    (h : push code op (read rest) = .ok ops) : write ops = code ++ rest := by
  cases op with
  | none => cases h
  | some o =>
    cases hmore : read rest with
    | error e =>
      rw [hmore] at h
      cases h
    | ok more =>
      rw [hmore] at h
      cases h
      rw [write_cons, hcode o rfl, hrest more hmore]

theorem write_of_read {cs : List Char} {ops : List Operand} (h : read cs = .ok ops) :
    write ops = cs := by
  fun_induction read cs generalizing ops with
  | case1 =>
    cases h
    rfl
  | case2 => cases h
  | case3 c rest ih => exact write_of_push (fun _ => code_of_opcode?) (fun _ => ih) h
  | case4 => cases h
  | case5 c rest ih => exact write_of_push (fun _ => code_of_function?) (fun _ => ih) h
  | case6 => cases h
  | case7 => cases h
  | case8 c rest ih => exact write_of_push (fun _ => code_of_compressedFunction?) (fun _ => ih) h
  | case9 c rest _ _ ih => exact write_of_push (fun _ => code_of_compressed?) (fun _ => ih) h
  | case10 c rest _ _ _ _ _ _ _ _ ih =>
    exact write_of_push (fun _ => code_of_single?) (fun _ => ih) h

end Format

/-! ### Prefixes -/

/-- **No code is the beginning of another one.** -/
theorem Operand.eq_of_code_prefix {a b : Operand} (h : a.code <+: b.code) : a = b := by
  obtain ⟨rest, hrest⟩ := h
  have hread : (Format.read rest).map (a :: ·) = .ok [b] := by
    rw [← Format.read_code_append, hrest, ← List.append_nil b.code, Format.read_code_append]
    rfl
  cases hmore : Format.read rest with
  | error e =>
    rw [hmore] at hread
    cases hread
  | ok more =>
    rw [hmore] at hread
    cases hread
    rfl

/-- **Formats are uniquely decodable.** A text is read as a list of operands exactly if it is what
the codes of this list make up, one after the other. No code is the beginning of another one. -/
theorem Format.formats_decode_uniquely :
    (∀ (cs : List Char) (ops : List Operand), read cs = .ok ops ↔ write ops = cs) ∧
      ∀ a b : Operand, a.code <+: b.code ↔ a = b := by
  constructor
  · intro cs ops
    constructor
    · exact write_of_read
    · rintro rfl
      exact read_write ops
  · intro a b
    constructor
    · exact Operand.eq_of_code_prefix
    · rintro rfl
      exact List.prefix_rfl

end RiscvAssembler
