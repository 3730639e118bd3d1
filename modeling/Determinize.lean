import Determinize.Checked
import Determinize.Proofs.Canonical
import Determinize.Proofs.Checked
import Determinize.Proofs.Emptiness
import Determinize.Proofs.Language
import Determinize.Proofs.Lockstep
import Determinize.Proofs.Lookup
import Determinize.Proofs.Narrowing
import Determinize.Proofs.Queue
import Determinize.Proofs.Records
import Determinize.Proofs.Renaming
import Determinize.Proofs.Reordering
import Determinize.Proofs.Reseeding
import Determinize.Proofs.Saturation
import Determinize.Proofs.Scan
import Determinize.Proofs.Search.Ending
import Determinize.Proofs.Search.Rename
import Determinize.Proofs.Search.Route
import Determinize.Proofs.Search.Story
import Determinize.Proofs.SubsetDfa.EmptySet
import Determinize.Proofs.SubsetDfa.Moves
import Determinize.Proofs.SubsetDfa.Order
import Determinize.Proofs.SubsetDfa.Size
import Determinize.Proofs.Symbol
import Determinize.Proofs.TableDfa.Cells
import Determinize.Proofs.TableDfa.Isomorphic
import Determinize.Proofs.Text
import Determinize.Proofs.Waves
import Determinize.States.Lemmas
import Determinize.TableDfa
