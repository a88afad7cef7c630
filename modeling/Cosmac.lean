import Cosmac.Bus.Folded
import Cosmac.Bus.RomRam
import Cosmac.Console
import Cosmac.Disassembly.Listing
import Cosmac.Proofs.Alu.Chain
import Cosmac.Proofs.Bus.Alike
import Cosmac.Proofs.Bus.LastWrite
import Cosmac.Proofs.Console.Simulation
import Cosmac.Proofs.Disassembly.Classification
import Cosmac.Proofs.Disassembly.Columns
import Cosmac.Proofs.Disassembly.Successor
import Cosmac.Proofs.Disassembly.Text
import Cosmac.Proofs.Disassembly.Window
import Cosmac.Proofs.Machine.Alike
import Cosmac.Proofs.Machine.Call
import Cosmac.Proofs.Machine.Changes
import Cosmac.Proofs.Machine.Footprint
import Cosmac.Proofs.Machine.Forms
import Cosmac.Proofs.Machine.History
import Cosmac.Proofs.Machine.Idle
import Cosmac.Proofs.Machine.Independence
import Cosmac.Proofs.Machine.Steps
import Cosmac.Proofs.Machine.StraightLine
import Cosmac.Proofs.Machine.Transcript
import Cosmac.Proofs.Manual.Agreement
import Cosmac.Proofs.Program.Accumulate
import Cosmac.Proofs.Program.MultiByte
import Cosmac.Proofs.Program.MultiShift
import Cosmac.Proofs.Program.Push
import Cosmac.Proofs.Program.Rotation
import Cosmac.Proofs.Program.Stack
import Cosmac.Proofs.Raw.InRange

