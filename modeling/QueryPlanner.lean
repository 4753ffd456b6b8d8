import QueryPlanner.BestPath
import QueryPlanner.Explain
import QueryPlanner.JoinSearch
import QueryPlanner.Statistics.Cache
import QueryPlanner.Stored.Index
import QueryPlanner.Stored.Json
import QueryPlanner.Stored.Settings
import QueryPlanner.Stored.Statistics
import QueryPlanner.Proofs.Number
import QueryPlanner.Proofs.Path.Dominance
import QueryPlanner.Proofs.Path.Frontier
import QueryPlanner.Proofs.Path.Cheapest
import QueryPlanner.Proofs.Clause
import QueryPlanner.Proofs.Planner.JoinInfo
import QueryPlanner.Proofs.PlanM
import QueryPlanner.Proofs.Planner.Outline
import QueryPlanner.Proofs.Planner.Build
import QueryPlanner.Proofs.Planner.Distribution
import QueryPlanner.Proofs.Planner.Session
import QueryPlanner.Proofs.Planner.JoinTree
import QueryPlanner.Proofs.JoinGraph
import QueryPlanner.Proofs.JoinSearch.Connected
import QueryPlanner.Proofs.Pathkeys.Join
import QueryPlanner.Proofs.Pathkeys.Merge
import QueryPlanner.Proofs.Path.Candidates
import QueryPlanner.Proofs.Path.Fit
import QueryPlanner.Proofs.Planner.Sound
import QueryPlanner.Proofs.Planner.JoinPaths
import QueryPlanner.Proofs.Path.Rows
import QueryPlanner.Proofs.JoinSearch.Levels
import QueryPlanner.Proofs.Operator.Catalog
import QueryPlanner.Proofs.Selectivity
import QueryPlanner.Proofs.Path.Total
import QueryPlanner.Proofs.Planner.Sources
import QueryPlanner.Proofs.Planner.Plans
import QueryPlanner.Proofs.JoinSearch.Equations
import QueryPlanner.Proofs.JoinSearch.Cliques
import QueryPlanner.Proofs.JoinSearch.Sides
import QueryPlanner.Proofs.Pathkeys.Sorted
import QueryPlanner.Proofs.Planner.Filing
import QueryPlanner.Proofs.Planner.Changes
import QueryPlanner.Proofs.Planner.Requested
import QueryPlanner.Proofs.Planner.Register
import QueryPlanner.Proofs.JoinSearch.Complete
import QueryPlanner.Proofs.Pattern.LikeRange
import QueryPlanner.Proofs.Pattern.LikeSplit
import QueryPlanner.Proofs.Pattern.RegexPrefix
import QueryPlanner.Proofs.Selectivity.Probability
import QueryPlanner.Proofs.Selectivity.Total
import QueryPlanner.Proofs.Path.Priced
import QueryPlanner.Proofs.Planner.Prices
import QueryPlanner.Proofs.Planner.Atomic
import QueryPlanner.Proofs.Statistics.Transparency
import QueryPlanner.Proofs.Planner.Cached
import QueryPlanner.Proofs.Selectivity.View
import QueryPlanner.Proofs.Path.View
import QueryPlanner.Proofs.Planner.Later
import QueryPlanner.Proofs.JoinSearch.Replay
import QueryPlanner.Proofs.Selectivity.Conjunction
import QueryPlanner.Proofs.Datum.Order
import QueryPlanner.Proofs.Operator.Comparison
import QueryPlanner.Proofs.Selectivity.Commuted
import QueryPlanner.Proofs.Selectivity.Range
import QueryPlanner.Proofs.Datum.Scale
import QueryPlanner.Proofs.Datum.Moments
import QueryPlanner.Proofs.Datum.Scale.Text
import QueryPlanner.Proofs.Selectivity.Monotone
import QueryPlanner.Proofs.Selectivity.Texts
import QueryPlanner.Proofs.Selectivity.Rank
import QueryPlanner.Proofs.Selectivity.Direction
import QueryPlanner.Proofs.Statistics.Maximum
import QueryPlanner.Proofs.Selectivity.Equality
import QueryPlanner.Proofs.Selectivity.Null
import QueryPlanner.Proofs.Selectivity.Test
import QueryPlanner.Proofs.BestPath
import QueryPlanner.Proofs.Selectivity.MergeScan
import QueryPlanner.Proofs.Selectivity.Join
import QueryPlanner.Proofs.Selectivity.JoinTurned
import QueryPlanner.Proofs.IndexAccess
import QueryPlanner.Proofs.Operator.Links
import QueryPlanner.Proofs.Number.Integers
import QueryPlanner.Proofs.Datum.Preorder
import QueryPlanner.Proofs.Kernel
import QueryPlanner.Proofs.Grouping.Product
import QueryPlanner.Proofs.Grouping.Order
import QueryPlanner.Proofs.Operator.Registration
import QueryPlanner.Proofs.Pattern.SuccessorLeast
import QueryPlanner.Proofs.Planner.RowWidth
import QueryPlanner.Proofs.Planner.Widths
import QueryPlanner.Proofs.Selectivity.DistinctCount
import QueryPlanner.Proofs.Pathkeys.Greedy
import QueryPlanner.Proofs.RelSet.Construction
import QueryPlanner.Proofs.Pattern.Weight.Agreement
