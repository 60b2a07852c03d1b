import HackBackend.Cli.Outcome
import HackBackend.Machine.Cpu
import HackBackend.Main
import HackBackend.Proofs.Asm.Capacity
import HackBackend.Proofs.Asm.Grammar
import HackBackend.Proofs.Asm.Resolution
import HackBackend.Proofs.Cli.UnitNaming
import HackBackend.Proofs.Cli.Writing
import HackBackend.Proofs.Codegen.Acceptance
import HackBackend.Proofs.Codegen.Calling
import HackBackend.Proofs.Codegen.Clashes
import HackBackend.Proofs.Codegen.Comments
import HackBackend.Proofs.Codegen.CompareStyles
import HackBackend.Proofs.Codegen.Comparing
import HackBackend.Proofs.Codegen.Counting
import HackBackend.Proofs.Codegen.DataLayout
import HackBackend.Proofs.Codegen.LineByLine
import HackBackend.Proofs.Codegen.PhysicalLines
import HackBackend.Proofs.Codegen.References
import HackBackend.Proofs.Codegen.Relocation
import HackBackend.Proofs.Codegen.Requests
import HackBackend.Proofs.Codegen.RoundTrip
import HackBackend.Proofs.Codegen.Running
import HackBackend.Proofs.Codegen.Scopes
import HackBackend.Proofs.Codegen.Uniqueness
import HackBackend.Proofs.Codegen.Validity
import HackBackend.Proofs.Codegen.Variables
import HackBackend.Proofs.Vm.Grammar
