import RiscvAssembler.Error
import RiscvAssembler.Expr.Evaluator
import RiscvAssembler.Operand.Basic
import RiscvAssembler.Reloc.Value
import RiscvAssembler.Text.Scan

/-!
Reading of operands. The text of an operand gives a `Reading`: a value for the bits of the operand,
or an expression left for later. A text that does not fit refuses the template at hand, so that
another template may take it; a text that fits but cannot be used is a fault, which ends the search.
-/

namespace RiscvAssembler

/-- What decides how an instruction is read. -/
structure Context where
  isa : Isa
  /-- Whether compressed instructions are on. -/
  rvc : Bool
  /-- Whether there are only 16 integer registers. -/
  reduced : Bool
  /-- Whether compressed forms of this instruction may be chosen. -/
  allowCompressed : Bool
  evaluator : Evaluator

/-- Why a template does not take a text. -/
inductive Refusal where
  /-- The text does not fit. -/
  | differs
  /-- The text fits but cannot be used. -/
  | fault (e : InstructionError)
deriving DecidableEq, Repr

/-- What the text of an operand says. -/
inductive Reading where
  /-- Nothing that the word does not hold already. -/
  | nothing
  /-- A value for the bits of the operand. -/
  | value (v : Int64)
  /-- A constant under a modifier. -/
  | folded (kind : RelocType) (v : Int64)
  /-- An expression left for a relocation or an expansion. -/
  | pending (e : Expr) (reloc : Option RelocType)
deriving DecidableEq, Repr

namespace Context

/-- On 32-bit registers, a 32-bit pattern with its top bit set reads as negative. -/
def normalize (ctx : Context) : Expr → Expr
  | .constant v =>
    if ctx.isa.xlen = .rv32 ∧ 0x80000000 ≤ v ∧ v ≤ 0xffffffff then .constant (v - 0x100000000)
    else .constant v
  | e => e

/-- The expression at the front of a text, and the rest. -/
def expression (ctx : Context) (s : List Char) : Option (Expr × List Char) :=
  (ctx.evaluator s).map fun (e, rest) => (ctx.normalize e, rest)

/-- The register at the front of a text, and the rest. -/
def register (ctx : Context) (bank : Bank) (s : List Char) : Option (Nat × List Char) :=
  Register.lookup bank ctx.reduced s

end Context

/-! ### Modifiers -/

/-- Modifiers such as `%hi`, each with the relocation it asks for. -/
abbrev Modifiers := List (String × RelocType)

namespace Modifiers

/-- Modifiers of upper immediates. -/
def upper : Modifiers :=
  [("%tprel_hi", .tprelHi20), ("%pcrel_hi", .pcrelHi20), ("%got_pcrel_hi", .gotHi20),
    ("%tls_ie_pcrel_hi", .tlsGotHi20), ("%tls_gd_pcrel_hi", .tlsGdHi20), ("%hi", .hi20)]

/-- Modifiers of twelve-bit immediates. -/
def low : Imm12 → Modifiers
  | .arithmetic | .loadOffset =>
    [("%lo", .lo12I), ("%pcrel_lo", .pcrelLo12I), ("%tprel_lo", .tprelLo12I)]
  | .storeOffset =>
    [("%lo", .lo12S), ("%pcrel_lo", .pcrelLo12S), ("%tprel_lo", .tprelLo12S)]

/-- The modifier of additions to the thread pointer. -/
def add : Modifiers :=
  [("%tprel_add", .tprelAdd)]

/-- The modifier at the front of a text, in any mixture of cases, and the rest. A blank or a
parenthesis has to follow it. -/
def find? (ms : Modifiers) (s : List Char) : Option (RelocType × List Char) :=
  ms.findSome? fun (name, kind) =>
    match Text.afterIgnoringCase? name.toList s with
    | some (c :: rest) => if c = '(' ∨ Text.isBlank c then some (kind, c :: rest) else none
    | _ => none

end Modifiers

/-! ### Parts of operands -/

namespace Reading

/-- A reading and the rest of the text. -/
abbrev Result := Except Refusal (Reading × List Char)

/-- A refusal in place of a missing value. -/
def fit {α : Type} : Option α → Except Refusal α
  | some a => .ok a
  | none => .error .differs

/-- A value of a lookup. -/
def number (found : Option (Nat × List Char)) : Result :=
  (fit found).map fun (n, rest) => (.value (Int64.ofNat n), rest)

/-- A register that has to be the one given, and adds nothing to the word. -/
def sameRegister (ctx : Context) (expected : Nat) (s : List Char) : Result := do
  let (n, rest) ← fit (ctx.register .integer s)
  if n = expected then .ok (.nothing, rest) else .error .differs

/-- A constant from zero to `limit`, and the rest of the text. -/
def upTo (ctx : Context) (mnemonic what : String) (limit : Int64) (s : List Char) :
    Except Refusal (Int64 × List Char) :=
  match ctx.expression s with
  | some (.constant v, rest) =>
    if 0 ≤ v ∧ v ≤ limit then .ok (v, rest) else .error (.fault (.outOfRange what v 0 limit))
  | some (.symbol .., _) => .error (.fault (.requiresConstant mnemonic))
  | _ => .error .differs

/-- A constant from zero to `limit`. -/
def ranged (ctx : Context) (mnemonic what : String) (limit : Int64) (s : List Char) : Result := do
  let (v, rest) ← upTo ctx mnemonic what limit s
  .ok (.value v, rest)

/-- A constant that passes a test. -/
def constantWith (ctx : Context) (allowed : Int64 → Bool) (s : List Char) : Result :=
  match ctx.expression s with
  | some (.constant v, rest) => if allowed v then .ok (.value v, rest) else .error .differs
  | _ => .error .differs

/-- A symbol left for a relocation. -/
def symbol (ctx : Context) (kind : RelocType) (s : List Char) : Result :=
  match ctx.expression s with
  | some (.symbol name addend, rest) => .ok (.pending (.symbol name addend) (some kind), rest)
  | _ => .error .differs

/-- A constant left for an expansion. -/
def constant (ctx : Context) (s : List Char) : Result :=
  match ctx.expression s with
  | some (.constant v, rest) => .ok (.pending (.constant v) none, rest)
  | _ => .error .differs

/-- A symbol or a constant, left for an expansion. -/
def address (ctx : Context) (s : List Char) : Result :=
  match ctx.expression s with
  | some (.symbol name addend, rest) => .ok (.pending (.symbol name addend) (some .abs32), rest)
  | some (.constant v, rest) => .ok (.pending (.constant v) none, rest)
  | _ => .error .differs

/-- An expression, perhaps under a modifier. -/
def modified (ctx : Context) (modifiers : Modifiers) (s : List Char) :
    Except Refusal (Option RelocType × Expr × List Char) :=
  if s.head? = some '%' then do
    let (kind, rest) ← fit (modifiers.find? s)
    let rest ← fit (Text.afterChar? '(' (Text.dropBlanks rest))
    let (e, rest) ← fit (ctx.expression rest)
    match Text.afterChar? ')' (Text.dropBlanks rest) with
    | none => .error (.fault .unclosedParen)
    | some rest => .ok (some kind, e, rest)
  else do
    let (e, rest) ← fit (ctx.expression s)
    .ok (none, e, rest)

/-- The reading of an expression under a modifier: the bits of a constant are known at once. -/
def relocated (kind : RelocType) : Expr → Except Refusal Reading
  | .constant v =>
    if (kind.constantBits? v).isSome then .ok (.folded kind v)
    else .error (.fault (.unsupportedRelocation kind))
  | .symbol name addend => .ok (.pending (.symbol name addend) (some kind))
  | .register _ => .error .differs

/-- A twelve-bit constant, or an expression under a modifier. -/
def imm12 (ctx : Context) (i : Imm12) (s : List Char) : Result := do
  match ← modified ctx (Modifiers.low i) s with
  | (some kind, e, rest) => (relocated kind e).map (·, rest)
  | (none, .constant v, rest) =>
    if -2048 ≤ v ∧ v ≤ 2047 then .ok (.value v, rest) else .error .differs
  | _ => .error .differs

/-- A symbol under the modifier of additions to the thread pointer. -/
def tprelAdd (ctx : Context) (s : List Char) : Result := do
  match ← modified ctx Modifiers.add s with
  | (some kind, e, rest) => (relocated kind e).map (·, rest)
  | _ => .error .differs

/-- A twenty-bit constant, or an expression under a modifier. -/
def upper (ctx : Context) (s : List Char) : Result := do
  match ← modified ctx Modifiers.upper s with
  | (some kind, e, rest) => (relocated kind e).map (·, rest)
  | (none, .constant v, rest) =>
    if 0 ≤ v ∧ v ≤ 0xfffff then .ok (.value v, rest)
    else .error (.fault (.outOfRange Operand.upper.description v 0 0xfffff))
  | _ => .error .differs

/-- A control and status register, by name or number. -/
def csr (ctx : Context) (mnemonic : String) (s : List Char) : Result :=
  match Csr.lookup s with
  | some found => number (some found)
  | none =>
    match ctx.expression s with
    | some (.symbol name _, _) => .error (.fault (.unknownCsr name))
    | _ => ranged ctx mnemonic Operand.csr.description 0xfff s

/-- A major opcode, by name or number. The low bits of a number have to announce four bytes. -/
def opcode (ctx : Context) (mnemonic : String) (s : List Char) : Result :=
  match majorOpcode? s with
  | some found => number (some found)
  | none => do
    let (v, rest) ← upTo ctx mnemonic Operand.opcode.description 127 s
    if v.toBitVec &&& 0b11 = 0b11 then .ok (.value v, rest)
    else .error (.fault (.outOfRange "32-bit opcode (low bits must be 0b11)" v 3 127))

/-- A symbol to call, through the linkage table if `@plt` follows it. -/
def call (ctx : Context) (s : List Char) : Result :=
  match ctx.expression s with
  | some (.symbol name addend, rest) =>
    match Text.after? "@plt".toList rest with
    | some rest => .ok (.pending (.symbol name addend) (some .callPlt), rest)
    | none => .ok (.pending (.symbol name addend) (some .call), rest)
  | _ => .error .differs

/-- Whether a base register follows and nothing else, so that the offset before it is left out. -/
def baseFollows : List Char → Bool
  | '(' :: rest => !rest.contains '('
  | _ => false

end Reading

/-! ### Operands -/

namespace Operand

open Reading in
/-- Reads an operand off the front of a text that has no leading blanks. An offset that is left out
is zero. The word so far tells which registers are repeated, and `mnemonic` names the instruction
in diagnostics. -/
def read (ctx : Context) (mnemonic : String) (word : Word) (op : Operand) (s : List Char) :
    Reading.Result :=
  if op.mayBeOmitted ∧ baseFollows s then .ok (.value 0, s)
  else
    match op with
    | .mark m => (fit (Text.afterChar? m.char s)).map (Reading.nothing, ·)
    | .register bank _ => number (ctx.register bank s)
    | .bothSources => number (ctx.register .float s)
    | .shortRegister bank _ =>
      number ((ctx.register bank s).filter fun (n, _) => 8 ≤ n ∧ n < 16)
    | .repeated slot => sameRegister ctx (slot.number word) s
    | .fixed r => sameRegister ctx r.number s
    | .ranged r => Reading.ranged ctx mnemonic op.description (r.limit ctx.isa.xlen) s
    | .csr => Reading.csr ctx mnemonic s
    | .keyword .rounding => number (roundingMode? s)
    | .keyword .predecessor | .keyword .successor => number (fenceSet? s)
    | .imm12 i => Reading.imm12 ctx i s
    | .tprelAdd => Reading.tprelAdd ctx s
    | .zeroOffset | .zero => constantWith ctx (· == 0) s
    | .upper => Reading.upper ctx s
    | .target k => Reading.symbol ctx k.reloc s
    | .call => Reading.call ctx s
    | .constant => Reading.constant ctx s
    | .symbol => Reading.symbol ctx .abs32 s
    | .address => Reading.address ctx s
    | .opcode => Reading.opcode ctx mnemonic s
    | .compressedImm i => constantWith ctx (i.allows ctx.isa.xlen) s

end Operand

end RiscvAssembler
