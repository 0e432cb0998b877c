import StablecoinSystem.Ledger.Conservation
import StablecoinSystem.Ledger.HotDeltaEquiv
import StablecoinSystem.Ledger.Supply
import StablecoinSystem.Ledger.WriteSets
import StablecoinSystem.Ledger.Speculation
import StablecoinSystem.Ledger.Execution
import StablecoinSystem.Cado.Ordering
import StablecoinSystem.Cado.Interleave
import StablecoinSystem.Leap.Retries
import StablecoinSystem.Leap.Termination
import StablecoinSystem.Leap.Throttling
import StablecoinSystem.Leap.Backpressure
import StablecoinSystem.Narwhal.Integrity
import StablecoinSystem.Narwhal.Causal
import StablecoinSystem.Narwhal.Agreement
import StablecoinSystem.Narwhal.Settled
import StablecoinSystem.Narwhal.Heights
import StablecoinSystem.Narwhal.DagRefinement
import StablecoinSystem.Narwhal.TuskAgreement
import StablecoinSystem.Primary.Hazards
import StablecoinSystem.Primary.Payload
import StablecoinSystem.Worker.Availability
import StablecoinSystem.Worker.Synchronizer
import StablecoinSystem.ControlPlane.CommitRule
import StablecoinSystem.ControlPlane.Collector
import StablecoinSystem.ControlPlane.Certificates
import StablecoinSystem.ControlPlane.Buckets
import StablecoinSystem.ControlPlane.DataPlane
import StablecoinSystem.ControlPlane.ViewChange
