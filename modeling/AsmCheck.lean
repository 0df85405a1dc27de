import AsmCheck.Main
import AsmCheck.Proofs.Convergence
import AsmCheck.Proofs.DeadStores
import AsmCheck.Proofs.OperandText
import AsmCheck.Proofs.Partition
import AsmCheck.Proofs.StoreHistory
import AsmCheck.Store
import AsmCheck.Proofs.StatementText
import AsmCheck.Proofs.Regions
import AsmCheck.Proofs.Sorting
import AsmCheck.Proofs.Findings
import AsmCheck.Proofs.Overlaps
import AsmCheck.Proofs.Ownership
import AsmCheck.Proofs.RegisterInputs
import AsmCheck.Proofs.References
import AsmCheck.Proofs.LineNumbers
import AsmCheck.Proofs.BlankLines
import AsmCheck.Proofs.BackwardScan
import AsmCheck.Proofs.BlockOwners
import AsmCheck.Proofs.InputPaths
import AsmCheck.Proofs.LoopFree
import AsmCheck.Proofs.Exits
import AsmCheck.Proofs.CodeRuns
import AsmCheck.Proofs.SavedRegisters
import AsmCheck.Proofs.Sizes
import AsmCheck.Proofs.NarrowWrites
import AsmCheck.Proofs.Addresses
import AsmCheck.Proofs.JumpTargets
import AsmCheck.Proofs.LabelTargets
import AsmCheck.Proofs.LiteralValues
import AsmCheck.Proofs.Ranges
import AsmCheck.Proofs.LogicalLines
import AsmCheck.Proofs.TrailingComments
import AsmCheck.Proofs.StringSizes
import AsmCheck.Proofs.UnreachableRuns
import AsmCheck.Proofs.UpdateBudget
import AsmCheck.Proofs.WalkOrder
import AsmCheck.Proofs.FindingOrder
import AsmCheck.Proofs.StringBounds
