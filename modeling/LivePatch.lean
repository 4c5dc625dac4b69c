import LivePatch.Program
import LivePatch.Syntax.Outline
import LivePatch.Proofs.Compiled.Field
import LivePatch.Proofs.Machine.Isolation
import LivePatch.Proofs.Machine.Footprint
import LivePatch.Proofs.Module.Outcome
import LivePatch.Proofs.Module.Rollback
import LivePatch.Proofs.Program.Globals
import LivePatch.Proofs.Program.Sound
import LivePatch.Proofs.Compiled.Canonical
import LivePatch.Proofs.Machine.Congruence
import LivePatch.Proofs.Machine.Endless
import LivePatch.Proofs.Module.Pairing
import LivePatch.Proofs.Module.Takeover
import LivePatch.Proofs.Heap.Twin
import LivePatch.Proofs.Machine.Twins
import LivePatch.Proofs.Machine.Lockstep
import LivePatch.Proofs.Module.Replay
import LivePatch.Proofs.Program.Reload
import LivePatch.Proofs.Machine.Limit
import LivePatch.Proofs.Heap.Correspondence
import LivePatch.Proofs.Machine.History
import LivePatch.Proofs.Module.Reachable
import LivePatch.Proofs.Module.Versions
import LivePatch.Proofs.Program.Hosted
import LivePatch.Proofs.Program.Repeat
import LivePatch.Proofs.Program.Registry
import LivePatch.Proofs.Heap.Hierarchy
import LivePatch.Proofs.Module.Coverage
import LivePatch.Proofs.Module.Inherit
import LivePatch.Proofs.Module.Held
import LivePatch.Proofs.Syntax.Reading
import LivePatch.Proofs.Syntax.Operators
import LivePatch.Proofs.Syntax.Expression
import LivePatch.Proofs.Syntax.Statement
import LivePatch.Proofs.Syntax.RoundTrip
import LivePatch.Proofs.Module.ClassUpdate
import LivePatch.Proofs.Module.AnyOrder
import LivePatch.Proofs.Syntax.WellFormed
import LivePatch.Proofs.Syntax.Words
import LivePatch.Proofs.Syntax.Places
import LivePatch.Proofs.Module.Sourced
import LivePatch.Proofs.Syntax.Returning
import LivePatch.Proofs.Token.Cover
import LivePatch.Proofs.Module.Layers
import LivePatch.Proofs.Module.Defaults
import LivePatch.Proofs.Module.Depth
import LivePatch.Proofs.Machine.Arithmetic
import LivePatch.Proofs.Storage.Search
import LivePatch.Proofs.Syntax.Faults
import LivePatch.Proofs.Module.Difference
import LivePatch.Proofs.Module.Recording
