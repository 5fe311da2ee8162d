import Polyglot.ByteCursor
import Polyglot.Main
import Polyglot.Proofs.Agreement
import Polyglot.Proofs.Body
import Polyglot.Proofs.Feature
import Polyglot.Proofs.Mark
import Polyglot.Proofs.Number
import Polyglot.Proofs.Recovery
import Polyglot.Proofs.Refinement
import Polyglot.Proofs.Routing
import Polyglot.Text.Passage
import Polyglot.Proofs.Automaton
import Polyglot.Proofs.Nesting
import Polyglot.Proofs.Trailing
import Polyglot.Proofs.Window
import Polyglot.Proofs.Depth
import Polyglot.Proofs.Motion
import Polyglot.Proofs.Presence
import Polyglot.Proofs.Word
import Polyglot.Proofs.Settled
import Polyglot.Proofs.Portion
import Polyglot.Proofs.Grouping
import Polyglot.Proofs.Call
import Polyglot.Proofs.Property
import Polyglot.Proofs.Atom
import Polyglot.Proofs.Octet
import Polyglot.Proofs.Reslice
import Polyglot.Proofs.Compound
import Polyglot.Proofs.Handover
import Polyglot.Proofs.Caret
import Polyglot.Proofs.Sever
import Polyglot.Proofs.LineEnd
import Polyglot.Proofs.Numeral
import Polyglot.Proofs.Json
import Polyglot.Proofs.Report
import Polyglot.Proofs.Discipline
import Polyglot.Proofs.Loop
import Polyglot.Proofs.Listing
import Polyglot.Proofs.Room
