import TypeFlow.Json.Printer
import TypeFlow.Proofs.Ascents
import TypeFlow.Proofs.BlockChecks
import TypeFlow.Proofs.Enrolment
import TypeFlow.Proofs.Destruction
import TypeFlow.Proofs.Fuel
import TypeFlow.Proofs.Partition
import TypeFlow.Proofs.Propagation
import TypeFlow.Proofs.Reachability
import TypeFlow.Proofs.Relocation
import TypeFlow.Proofs.Rendering
import TypeFlow.Proofs.RoundTrip
import TypeFlow.Proofs.Seniority
import TypeFlow.Proofs.Splats
import TypeFlow.Proofs.Steadiness
