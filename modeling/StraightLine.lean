import StraightLine.Code.Listing
import StraightLine.Main
import StraightLine.Program.Descent
import StraightLine.Program.Grammar
import StraightLine.Program.Printer
import StraightLine.Proofs.Code.Conservation
import StraightLine.Proofs.Code.Cut
import StraightLine.Proofs.Code.Listing
import StraightLine.Proofs.Code.Lowering
import StraightLine.Proofs.Code.OneStore
import StraightLine.Proofs.Code.Rewording
import StraightLine.Proofs.Code.Simulation
import StraightLine.Proofs.Code.Tasks
import StraightLine.Proofs.Code.Temporaries
import StraightLine.Proofs.Compile.Clash
import StraightLine.Proofs.Compile.Conservation
import StraightLine.Proofs.Compile.Definedness
import StraightLine.Proofs.Compile.Diagnostics
import StraightLine.Proofs.Compile.Faithful
import StraightLine.Proofs.Compile.Increment
import StraightLine.Proofs.Compile.ListedProgram
import StraightLine.Proofs.Compile.Recovery
import StraightLine.Proofs.Compile.Rewording
import StraightLine.Proofs.Compile.Stages
import StraightLine.Proofs.Location.Order
import StraightLine.Proofs.Program.Acceptance
import StraightLine.Proofs.Program.Continuation
import StraightLine.Proofs.Program.Declarations
import StraightLine.Proofs.Program.Descent
import StraightLine.Proofs.Program.Misfit
import StraightLine.Proofs.Program.Names
import StraightLine.Proofs.Program.Places
import StraightLine.Proofs.Program.Printing
import StraightLine.Proofs.Program.Resumption
import StraightLine.Proofs.Program.Rewording
import StraightLine.Proofs.Program.RoundTrip
import StraightLine.Proofs.Program.Viable
import StraightLine.Proofs.Scope.Discipline
import StraightLine.Proofs.Scope.FirstFault
import StraightLine.Proofs.Scope.Rewording
import StraightLine.Proofs.Scope.Violation
import StraightLine.Proofs.SymbolTable.Operations
import StraightLine.Proofs.Text.Segments
import StraightLine.Proofs.Token.Calls
import StraightLine.Proofs.Token.Layout
import StraightLine.Proofs.Token.LongestMatch
import StraightLine.Proofs.Token.Names
import StraightLine.Proofs.Token.Positions
import StraightLine.Proofs.Token.Reading
import StraightLine.Proofs.Token.Seam
import StraightLine.Semantics
import StraightLine.Proofs.Token.Separation
import StraightLine.Proofs.Command.Transparency
import StraightLine.Proofs.Compile.Log
