import RiscvAssembler.Branch.Store
import RiscvAssembler.Session.Source
import RiscvAssembler.Proofs.Section.Growth
import RiscvAssembler.Proofs.Section.Placement
import RiscvAssembler.Proofs.Section.Flat
import RiscvAssembler.Proofs.Section.Relaxation
import RiscvAssembler.Proofs.Section.Success
import RiscvAssembler.Proofs.Machine.Decode
import RiscvAssembler.Proofs.Word.Slice
import RiscvAssembler.Proofs.Word.Immediate
import RiscvAssembler.Proofs.Word.Range
import RiscvAssembler.Proofs.Word.Bytes
import RiscvAssembler.Proofs.Machine.Control
import RiscvAssembler.Proofs.Section.Filling
import RiscvAssembler.Proofs.Branch.ControlFlow
import RiscvAssembler.Proofs.Text.Numeral
import RiscvAssembler.Proofs.Isa.Canonical
import RiscvAssembler.Proofs.Isa.WellFormed
import RiscvAssembler.Proofs.Encoding.Token
import RiscvAssembler.Proofs.Template.Catalog
import RiscvAssembler.Proofs.Template.Standard
import RiscvAssembler.Proofs.Encoding.Cover
import RiscvAssembler.Proofs.Machine.Effect
import RiscvAssembler.Proofs.Template.Shape
import RiscvAssembler.Proofs.Encoding.Integrity
import RiscvAssembler.Proofs.Encoding.Words
import RiscvAssembler.Proofs.Encoding.Exact
import RiscvAssembler.Proofs.Encoding.Expansion
import RiscvAssembler.Proofs.Encoding.Counterpart
import RiscvAssembler.Proofs.Encoding.Compression
import RiscvAssembler.Proofs.Encoding.Outcome
import RiscvAssembler.Proofs.Encoding.Printed
import RiscvAssembler.Proofs.Encoding.Target
import RiscvAssembler.Proofs.Pseudo.Steps
import RiscvAssembler.Proofs.Pseudo.Words
import RiscvAssembler.Proofs.Session.Instructions
import RiscvAssembler.Proofs.Session.Reachable
import RiscvAssembler.Proofs.Session.Defects
import RiscvAssembler.Proofs.Branch.Lifecycle
import RiscvAssembler.Proofs.Isa.Listing
import RiscvAssembler.Proofs.Encoding.Ownership
import RiscvAssembler.Proofs.Encoding.Length
import RiscvAssembler.Proofs.Encoding.RoundTrip
import RiscvAssembler.Proofs.Session.Lines
import RiscvAssembler.Proofs.Encoding.Relocations
import RiscvAssembler.Proofs.Section.Entries
import RiscvAssembler.Proofs.Session.Steps
import RiscvAssembler.Proofs.Session.Growth
import RiscvAssembler.Proofs.Session.Calls
import RiscvAssembler.Proofs.Session.Expansions
import RiscvAssembler.Proofs.Session.Anchors
import RiscvAssembler.Proofs.Session.Labels
import RiscvAssembler.Proofs.Session.References
import RiscvAssembler.Proofs.Session.Pending
import RiscvAssembler.Proofs.Session.Rejected
import RiscvAssembler.Proofs.Session.Inert
import RiscvAssembler.Proofs.Branch.Stray
import RiscvAssembler.Proofs.Section.Linkage
import RiscvAssembler.Proofs.Session.Linkage
import RiscvAssembler.Proofs.Machine.Constant
import RiscvAssembler.Proofs.Section.FixedPoint
import RiscvAssembler.Proofs.Session.Settings
import RiscvAssembler.Proofs.Pseudo.Real
import RiscvAssembler.Proofs.Session.Compressed
import RiscvAssembler.Proofs.Section.Idempotence
import RiscvAssembler.Proofs.Branch.Reach
import RiscvAssembler.Proofs.Expr.Sum
import RiscvAssembler.Proofs.Expr.Display
import RiscvAssembler.Proofs.Encoding.Locality
import RiscvAssembler.Proofs.Encoding.Front
import RiscvAssembler.Proofs.Encoding.Omission
import RiscvAssembler.Proofs.Encoding.Parts
import RiscvAssembler.Proofs.Isa.General
import RiscvAssembler.Proofs.Isa.Offending
import RiscvAssembler.Proofs.Session.Provided
import RiscvAssembler.Proofs.Pseudo.Chain
import RiscvAssembler.Proofs.Machine.Shortest
import RiscvAssembler.Proofs.Template.Consistency
import RiscvAssembler.Proofs.Operand.Format
import RiscvAssembler.Proofs.Template.Lookup
