import AvrConformance.Main
import AvrConformance.Proofs.Acceptance
import AvrConformance.Proofs.Accounting
import AvrConformance.Proofs.Architecture
import AvrConformance.Proofs.CodeSpace
import AvrConformance.Proofs.CommandLine
import AvrConformance.Proofs.ExitStatus
import AvrConformance.Proofs.Farewell
import AvrConformance.Proofs.Hexadecimal
import AvrConformance.Proofs.Interruption
import AvrConformance.Proofs.Isolation
import AvrConformance.Proofs.Json
import AvrConformance.Proofs.Link.Effort
import AvrConformance.Proofs.Link.Expansion
import AvrConformance.Proofs.Link.Failure
import AvrConformance.Proofs.Link.Integrity
import AvrConformance.Proofs.Link.Reliability
import AvrConformance.Proofs.Link.StopReply
import AvrConformance.Proofs.Link.Wire
import AvrConformance.Proofs.MultiByte
import AvrConformance.Proofs.PartialReport
import AvrConformance.Proofs.Product
import AvrConformance.Proofs.Refinement
import AvrConformance.Proofs.RegisterFile
import AvrConformance.Proofs.ReportFile
import AvrConformance.Proofs.SettingsFile
import AvrConformance.Proofs.Strategies
import AvrConformance.Proofs.Summary
import AvrConformance.Proofs.Transfers
import AvrConformance.Target.Scripted
import AvrConformance.Target.Simulated
