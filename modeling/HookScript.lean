import HookScript.Hook.Blit
import HookScript.Hook.Scalar
import HookScript.Main
import HookScript.Proofs.Compile.Allocation
import HookScript.Proofs.Compile.Backfilling
import HookScript.Proofs.Compile.Decoding
import HookScript.Proofs.Compile.ForwardLabels
import HookScript.Proofs.Compile.Members
import HookScript.Proofs.Compile.NameIndependence
import HookScript.Proofs.Compile.References
import HookScript.Proofs.Compile.Resolution
import HookScript.Proofs.Control.Ahead
import HookScript.Proofs.Control.BlockErrors
import HookScript.Proofs.Control.Rejections
import HookScript.Proofs.Hook.Blits
import HookScript.Proofs.Hook.FaultReports
import HookScript.Proofs.Hook.ReadOnly
import HookScript.Proofs.Host.Accessors
import HookScript.Proofs.Machine.Arithmetic
import HookScript.Proofs.Machine.Faults
import HookScript.Proofs.Program.Grammar
import HookScript.Proofs.Program.Listing
import HookScript.Proofs.Program.Relinking
import HookScript.Proofs.Program.Saving
import HookScript.Proofs.Statement.Kinds
import HookScript.Proofs.Statement.Printing
import HookScript.Proofs.Token.Numerals
