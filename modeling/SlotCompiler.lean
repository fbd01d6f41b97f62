import SlotCompiler.Tree.Text
import SlotCompiler.Proofs.Program.ControlFlow
import SlotCompiler.Proofs.Program.Meaning
import SlotCompiler.Proofs.Program.Locking
import SlotCompiler.Proofs.Parse.ExpressionGrammar
import SlotCompiler.Proofs.Program.Initialised
import SlotCompiler.Proofs.Program.Relocking
import SlotCompiler.Proofs.Program.Returns
import SlotCompiler.Proofs.Program.InternalFaults
import SlotCompiler.Proofs.Code.Backpatching
import SlotCompiler.Proofs.Program.Registration
import SlotCompiler.Proofs.Parse.CallOrder
import SlotCompiler.Proofs.Emission.RoundTrip
import SlotCompiler.Proofs.Program.Independence
import SlotCompiler.Proofs.Emission.JumpLayout
import SlotCompiler.Proofs.Program.SlotTable
import SlotCompiler.Proofs.Parse.TreeDepth
import SlotCompiler.Proofs.Parse.NameResolution
import SlotCompiler.Proofs.Layering.Worklist
import SlotCompiler.Proofs.Parse.Settling
import SlotCompiler.Proofs.Program.Constants
import SlotCompiler.Proofs.Machine.Decoding
import SlotCompiler.Proofs.Program.FaultPlaces
