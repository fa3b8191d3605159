import Relabel.Proofs.Asking
import Relabel.Proofs.Binding.BoundCount
import Relabel.Proofs.Binding.ClosedForm
import Relabel.Proofs.Binding.Misplaced
import Relabel.Proofs.Binding.Repeated
import Relabel.Proofs.Binding.Verified
import Relabel.Proofs.Building.InStep
import Relabel.Proofs.Building.Nested
import Relabel.Proofs.Copy.Blame
import Relabel.Proofs.Copy.Consulted
import Relabel.Proofs.Copy.Cost
import Relabel.Proofs.Copy.Descents
import Relabel.Proofs.Copy.Hygiene
import Relabel.Proofs.Copy.NormalForm
import Relabel.Proofs.Copy.Parameters
import Relabel.Proofs.Copy.Renaming
import Relabel.Proofs.Copy.RootOrder
import Relabel.Proofs.Copy.Termination
import Relabel.Proofs.Copy.UnknownOwner
import Relabel.Proofs.Interning
import Relabel.Proofs.Judge.DecisionTable
import Relabel.Proofs.Judge.Rules
import Relabel.Proofs.Judge.Transparency
import Relabel.Proofs.LifeCycle
import Relabel.Proofs.Relabelled.Counts
import Relabel.Proofs.Relabelled.Rerun
import Relabel.Proofs.Relabelled.Untouched
import Relabel.Proofs.Relabelled.WellFormed
import Relabel.Proofs.Symbol.Requests
import Relabel.Proofs.TableInvariant
import Relabel.Proofs.Tree.Fault
import Relabel.Proofs.Tree.Pruned
import Relabel.Proofs.Tree.Walking
