import InfixTree.Main
import InfixTree.Proofs.Acceptance
import InfixTree.Proofs.Conservation
import InfixTree.Proofs.Decomposition
import InfixTree.Proofs.FirstClash
import InfixTree.Proofs.Formatting
import InfixTree.Proofs.Strictness
import InfixTree.Proofs.Contexts
import InfixTree.Proofs.Boundaries
import InfixTree.Proofs.Renaming
import InfixTree.Proofs.Words
import InfixTree.Proofs.JsonText
import InfixTree.Proofs.JsonTrees
import InfixTree.Proofs.Columns
import InfixTree.Proofs.Origins
import InfixTree.Proofs.Output
import InfixTree.Proofs.UniqueReading
import InfixTree.Proofs.Account
import InfixTree.Proofs.Counting
import InfixTree.Proofs.StackOrder
import InfixTree.Proofs.Blame
import InfixTree.Proofs.Entries
import InfixTree.Proofs.Exhaustion
import InfixTree.Proofs.Braces
