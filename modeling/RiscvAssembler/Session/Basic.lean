import RiscvAssembler.Encoding.Basic
import RiscvAssembler.Section.Basic
import RiscvAssembler.Session.Labels
import RiscvAssembler.Session.Options

/-!
The state of an assembler session: its instruction set, options, labels and section. A step of a
session runs in `AssemblerM`, which keeps what was done before an error.
-/

namespace RiscvAssembler

/-- The state of a session. -/
structure Session where
  catalogs : Catalogs
  config : Config
  evaluator : Evaluator
  isa : Isa
  options : Options
  /-- Saved options, the latest first. -/
  saved : List Options
  contents : Section
  labels : Labels
  /-- Whether an instruction was given. -/
  started : Bool
  /-- Whether a directive set the instruction set. -/
  archGiven : Bool
  /-- Whether compressed instructions were on at some time. -/
  compressedSeen : Bool

/-- A step of a session. -/
abbrev AssemblerM := EStateM Error Session

namespace Session

/-- A step that leaves the session alone when it fails. -/
def update (f : Session → Except Error Session) : AssemblerM Unit := do
  match f (← get) with
  | .ok s => set s
  | .error e => throw e

/-! ### Instruction set -/

/-- The session with another instruction set. Compressed instructions are on if it has them. -/
def withIsa (s : Session) (isa : Isa) : Session :=
  let rvc := isa.has "c"
  { s with isa := isa, options := { s.options with rvc := rvc },
           compressedSeen := s.compressedSeen || rvc }

/-- The session with the instruction set of an ISA string. -/
def useIsa (s : Session) (arch : List Char) : Except Error Session :=
  match Isa.parse s.config.versionOf arch with
  | .error e => .error (.isa e)
  | .ok isa => .ok (s.withIsa isa)

/-- The session with an instruction set given by a directive, before the first instruction. -/
def declareArch (s : Session) (arch : List Char) : Except Error Session :=
  if s.started then .error (.directive .archAfterInstructions)
  else (s.useIsa arch).map fun s => { s with archGiven := true }

/-- A new session. -/
def new (catalogs : Catalogs) (config : Config) : Except Error Session := do
  let start : Session :=
    { catalogs := catalogs, config := config, evaluator := .basic, isa := ⟨.rv64, []⟩,
      options := config.startOptions, saved := [], contents := .empty, labels := .empty,
      started := false, archGiven := false, compressedSeen := false }
  let s ← start.useIsa config.arch
  config.checkAbi s.isa.xlen
  return s

/-- The instruction set to record as an attribute. -/
def recordedArch? (s : Session) : Option (List Char) :=
  if s.options.recordsArch || s.archGiven then some s.isa.canonical else none

/-- The flags of the object file for a way to pass floating-point arguments. -/
def floatFlags : FloatAbi → UInt32
  | .soft => 0
  | .single => 2
  | .double => 4
  | .quad => 6

/-- The flags of the object file. -/
def objectFlags (s : Session) : UInt32 :=
  (if s.compressedSeen then 1 else 0) |||
    floatFlags (s.config.floatAbi.getD s.isa.floatAbi) ||| (if s.isa.isReduced then 8 else 0)

/-! ### Options -/

/-- The session after an option command. -/
def runOption (s : Session) : OptionCommand → Except Error Session
  | .rvc true => .ok { s with options := { s.options with rvc := true }, compressedSeen := true }
  | .rvc false => .ok { s with options := { s.options with rvc := false } }
  | .pic on => .ok { s with options := { s.options with pic := on } }
  | .relax on => .ok { s with options := { s.options with relax := on } }
  | .push => .ok { s with saved := s.options :: s.saved }
  | .pop =>
    match s.saved with
    | [] => .error (.directive .optionStackEmpty)
    | options :: rest => .ok { s with options := options, saved := rest }

/-- The session after an option directive. -/
def option (s : Session) (name : String) : Except Error Session :=
  match OptionCommand.ofName? name with
  | none => .error (.directive (.unrecognizedOption name))
  | some command => s.runOption command

/-! ### Encoding -/

/-- How instructions are read at this point. -/
def context (s : Session) (allowCompressed : Bool) : Context :=
  { isa := s.isa, rvc := s.options.rvc, reduced := s.isa.isReduced,
    allowCompressed := allowCompressed, evaluator := s.evaluator }

end Session

end RiscvAssembler
