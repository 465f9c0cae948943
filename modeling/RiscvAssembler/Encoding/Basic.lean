import RiscvAssembler.Encoding.Reading
import RiscvAssembler.Template.Catalog

/-!
Encoding of instructions. The candidates for a mnemonic are tried in table order, and the first one
whose operands take the text wins. Reading the operands and assembling the word are separate, so the
word is the fixed bits of the template with the readings of its operands added.
-/

namespace RiscvAssembler

/-- An instruction while its operands are added. -/
structure Draft where
  bits : Word
  /-- An expression left for a relocation or an expansion. -/
  imm : Option Expr
  /-- The relocation against that expression. -/
  reloc : Option RelocType
deriving DecidableEq, Repr

/-- A draft with the reading of an operand added. -/
def Draft.add (d : Draft) (op : Operand) : Reading → Draft
  | .nothing => d
  | .value v => { d with bits := op.store d.bits v }
  | .folded kind v => { d with bits := d.bits ||| (kind.constantBits? v).getD 0 }
  | .pending e reloc => { d with imm := some e, reloc := reloc <|> d.reloc }

/-- An encoded instruction. -/
structure Encoded where
  template : Template
  /-- The word; for a pseudo-instruction, the registers that its expansion needs. -/
  bits : Word
  /-- An expression left for a relocation or an expansion. -/
  imm : Option Expr
  /-- The relocation against that expression. -/
  reloc : Option RelocType
deriving DecidableEq, Repr

namespace Encoded

/-- Length in bytes. -/
def length (e : Encoded) : Nat :=
  e.template.length

/-- The bytes of the word, in memory order. -/
def toBytes (e : Encoded) : List UInt8 :=
  e.bits.toBytes e.length

end Encoded

/-! ### One template -/

namespace Template

/-- The draft before any operand. -/
def start (t : Template) : Draft :=
  ⟨t.matchBits, none, none⟩

/-- Reads operands in order, up to the end of the text. -/
def readOperands (ctx : Context) (mnemonic : String) :
    (d : Draft) → List Operand → List Char → Except Refusal (List Reading)
  | _, [], s => if (Text.dropBlanks s).isEmpty then .ok [] else .error .differs
  | d, op :: ops, s => do
    let (r, rest) ← op.read ctx mnemonic d.bits (Text.dropBlanks s)
    let more ← readOperands ctx mnemonic (d.add op r) ops rest
    .ok (r :: more)

/-- The draft with the readings of operands added. -/
def addReadings (d : Draft) : List Operand → List Reading → Draft
  | op :: ops, r :: rs => addReadings (d.add op r) ops rs
  | _, _ => d

/-- Whether an assembled word may stand: pseudo-instructions have no word to check. -/
def accepts (ctx : Context) (t : Template) (word : Word) : Bool :=
  t.isPseudo || (t.admits word && (t.length != 2 || ctx.rvc))

/-- Encodes an operand text with a template. -/
def encode (ctx : Context) (t : Template) (s : List Char) : Except Refusal Encoded := do
  let readings ← readOperands ctx t.mnemonic t.start t.operands s
  let d := addReadings t.start t.operands readings
  if t.accepts ctx d.bits then .ok ⟨t, d.bits, d.imm, d.reloc⟩ else .error .differs

/-- Whether a template may be used in a context at all. -/
def eligible (ctx : Context) (t : Template) : Bool :=
  t.width.all (· == ctx.isa.xlen) && t.needs.isPartOf ctx.isa ctx.rvc &&
    (ctx.allowCompressed || !t.isCompressed)

end Template

/-! ### All templates of a mnemonic -/

/-- The encoding by the first template that takes a text. A fault ends the search. -/
def encodeFirst (ctx : Context) (s : List Char) : List Template → Except Refusal Encoded
  | [] => .error .differs
  | t :: ts =>
    match t.encode ctx s with
    | .error .differs => encodeFirst ctx s ts
    | outcome => outcome

/-- The encoding of an operand text by one of the candidates for a mnemonic. -/
def encodeWith (ctx : Context) (mnemonic : String) (candidates : List Template) (s : List Char) :
    Except InstructionError Encoded :=
  match candidates.filter (Template.eligible ctx) with
  | [] => .error (.unknownMnemonic mnemonic)
  | t :: ts =>
    match encodeFirst ctx s (t :: ts) with
    | .ok e => .ok e
    | .error (.fault e) => .error e
    | .error .differs => .error (.illegalOperands mnemonic (String.ofList (Text.trim s)))

/-- Encodes an instruction with the templates of a catalog. -/
def Catalog.encode (c : Catalog) (ctx : Context) (mnemonic : String) (operands : List Char) :
    Except InstructionError Encoded :=
  encodeWith ctx mnemonic (c.lookup mnemonic) operands

end RiscvAssembler
