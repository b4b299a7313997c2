import BoundsSolver.Constraint.Meaning
import BoundsSolver.Main
import BoundsSolver.Proofs.Contract
import BoundsSolver.Proofs.Constraint.Conjunction
import BoundsSolver.Proofs.Constraint.Exactly
import BoundsSolver.Proofs.Constraint.Maximum
import BoundsSolver.Proofs.Constraint.Lexicographic
import BoundsSolver.Proofs.Constraint.Element
import BoundsSolver.Proofs.Constraint.Affine
import BoundsSolver.Proofs.Constraint.Inequality
import BoundsSolver.Proofs.AllDifferent.Forest
import BoundsSolver.Proofs.Constraint.Equation
import BoundsSolver.Proofs.AllDifferent.Side
import BoundsSolver.Proofs.AllDifferent.Greedy
import BoundsSolver.Proofs.AllDifferent.Pass
import BoundsSolver.Proofs.AllDifferent.Ranking
import BoundsSolver.Proofs.Constraint.AllDifferent
import BoundsSolver.Proofs.Constraint.Contract
import BoundsSolver.Proofs.Constraint.Tight
import BoundsSolver.Proofs.Constraint.SumRange
import BoundsSolver.Proofs.Hull
import BoundsSolver.Proofs.AllDifferent.Consistency
import BoundsSolver.Proofs.Constraint.Linear
import BoundsSolver.Proofs.Network.Box
import BoundsSolver.Proofs.Network.WellFormed
import BoundsSolver.Proofs.Network.Built
import BoundsSolver.Proofs.Network.Layout
import BoundsSolver.Proofs.Network.Narrowing
import BoundsSolver.Proofs.Propagation.Cut
import BoundsSolver.Proofs.Propagation.Run
import BoundsSolver.Proofs.Propagation.Settle
import BoundsSolver.Proofs.Propagation.Fixpoint
import BoundsSolver.Proofs.Propagation.Congruence
import BoundsSolver.Proofs.Propagation.Counters
import BoundsSolver.Proofs.Network.Posting
import BoundsSolver.Proofs.Search.Filtering
import BoundsSolver.Proofs.Search.Invariant
import BoundsSolver.Proofs.Search.Moves
import BoundsSolver.Proofs.Search.Reached
import BoundsSolver.Proofs.Search.Accounts
import BoundsSolver.Proofs.Search.Enumeration
import BoundsSolver.Proofs.Search.Objective
import BoundsSolver.Proofs.Search.Optimum
import BoundsSolver.Proofs.Search.Shaving
import BoundsSolver.Proofs.Search.Ascending
import BoundsSolver.Proofs.Search.Calls
import BoundsSolver.Proofs.Parallel.Arrival
import BoundsSolver.Proofs.Parallel.Partition
import BoundsSolver.Proofs.Search.Counts
import BoundsSolver.Proofs.Parallel.Tally
import BoundsSolver.Proofs.Parallel.Division
import BoundsSolver.Proofs.Search.Stacks
import BoundsSolver.Proofs.Search.Choices
import BoundsSolver.Proofs.Search.Capacity
import BoundsSolver.Proofs.Search.Agreement
import BoundsSolver.Proofs.Search.Reset
import BoundsSolver.Proofs.Loop
import BoundsSolver.Proofs.Constraint.Loops
import BoundsSolver.Proofs.Completes
import BoundsSolver.Proofs.Constraint.Completes
import BoundsSolver.Proofs.Constraint.Consistency
import BoundsSolver.Proofs.Propagation.Grounded
import BoundsSolver.Proofs.Propagation.Offsets
import BoundsSolver.Proofs.Search.Draws
import BoundsSolver.Proofs.Search.Branching
import BoundsSolver.Proofs.Search.Completes
import BoundsSolver.Proofs.Search.Loops
import BoundsSolver.Proofs.Search.Ends
import BoundsSolver.Proofs.Search.Progress
import BoundsSolver.Proofs.Parallel.Limit
import BoundsSolver.Proofs.Model.Posted
import BoundsSolver.Proofs.Network.Tables
import BoundsSolver.Proofs.Search.Nodes
import BoundsSolver.Proofs.Model.Queens
import BoundsSolver.Proofs.Model.Ordered
import BoundsSolver.Proofs.Model.BlockDesign
import BoundsSolver.Proofs.Model.Ruler
import BoundsSolver.Proofs.Model.Distances
import BoundsSolver.Proofs.Model.GolombRuler
import BoundsSolver.Proofs.Refinement
import BoundsSolver.Proofs.Propagation.Queue
import BoundsSolver.Proofs.Search.Records
import BoundsSolver.Proofs.Search.Determinacy
import BoundsSolver.Proofs.Search.Mirroring
import BoundsSolver.Proofs.Search.Backtracking
import BoundsSolver.Proofs.Parallel.Ranges
