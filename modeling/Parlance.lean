import Parlance.Main
import Parlance.Native.Gallery
import Parlance.Proofs.Code.Pieces
import Parlance.Proofs.Compiler.Lexical
import Parlance.Proofs.Compiler.Progress
import Parlance.Proofs.Image.Canonical
import Parlance.Proofs.Machine.Failures
import Parlance.Proofs.Machine.OpenList
import Parlance.Proofs.Machine.Outcomes
import Parlance.Proofs.Parallel.Cells
import Parlance.Proofs.Table.Capacity
import Parlance.Proofs.Token.Lines
import Parlance.Proofs.Token.Printing
