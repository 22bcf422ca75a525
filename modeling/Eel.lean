import Eel.Main
import Eel.Double.Scientific
import Eel.Proofs.Engine.Isolation
import Eel.Proofs.Manifest.Agreement
import Eel.Proofs.Manifest.Naming
import Eel.Proofs.Program.Caret
import Eel.Proofs.Program.LetterCase
import Eel.Proofs.Program.Requests
import Eel.Proofs.Program.Slots
import Eel.Proofs.Session.Evaluation
import Eel.Proofs.Session.Stream
import Eel.Proofs.Simplify.Completeness
import Eel.Proofs.Simplify.Folding
import Eel.Proofs.Simplify.Refinement
import Eel.Proofs.Simplify.Termination
import Eel.Proofs.Source.ErrorSpans
import Eel.Proofs.Source.Scanning
import Eel.Proofs.Wasm.Entries
import Eel.Proofs.Wasm.Indices
import Eel.Proofs.Wasm.Shortest
