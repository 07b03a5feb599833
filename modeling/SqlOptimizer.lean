import SqlOptimizer.Deparse.WhereText
import SqlOptimizer.Tree.PushDownBlocks
import SqlOptimizer.Tree.PushDownConditions
import SqlOptimizer.Tree.InnerJoinTrees
import SqlOptimizer.Tree.OuterJoins
import SqlOptimizer.Parse.WhereRoundTrip
import SqlOptimizer.Parse.ParsedTree
import SqlOptimizer.Parse.WithBinding
import SqlOptimizer.Parse.KeptStatements
import SqlOptimizer.Unnesting.WithOrder
import SqlOptimizer.Unnesting.FreshNames
import SqlOptimizer.Unnesting.ClosedCtes
import SqlOptimizer.Unnesting.CorrelationAgreement
import SqlOptimizer.Unnesting.ProbeTruth
import SqlOptimizer.Unnesting.RedundantPredicates
import SqlOptimizer.Unnesting.SelectLists
import SqlOptimizer.Unnesting.DColumns
import SqlOptimizer.Unnesting.Decoupling
import SqlOptimizer.Unnesting.FreeAttributes
import SqlOptimizer.Tree.SettledConditions
import SqlOptimizer.Parse.FreshRoots
import SqlOptimizer.Parse.FromOrder
import SqlOptimizer.Parse.FreeReferences
import SqlOptimizer.Unnesting.RenamedAttributes
import SqlOptimizer.Tree.PlacedConditions
import SqlOptimizer.Deparse.FromText
import SqlOptimizer.Logic.SplitJoins
import SqlOptimizer.Unnesting.SplitDepJoins
import SqlOptimizer.Semantics.FreeReads
import SqlOptimizer.Unnesting.MovedBindings
import SqlOptimizer.Unnesting.QueryRows
import SqlOptimizer.Unnesting.LiftedRows
import SqlOptimizer.Unnesting.ExistsRows
import SqlOptimizer.Unnesting.OptimizedRows
import SqlOptimizer.Unnesting.PushedDepJoins
import SqlOptimizer.Logic.FlagLoops
import SqlOptimizer.Tree.Paths
import SqlOptimizer.Tree.ReferenceSearch
import SqlOptimizer.Unnesting.EquivalentAttributes
import SqlOptimizer.Parse.ImplicitGroupBy
import SqlOptimizer.Unnesting.MarkerOrder
import SqlOptimizer.Logic.CallStacks
import SqlOptimizer.Unnesting.CollectorCalls
import SqlOptimizer.Unnesting.CollectorSearches
import SqlOptimizer.Logic.Transducers
import SqlOptimizer.Postgres.Scanner
import SqlOptimizer.Postgres.Keywords
import SqlOptimizer.Postgres.ExpressionGrammar
import SqlOptimizer.Postgres.Lexemes
import SqlOptimizer.Postgres.ScannedTokens
import SqlOptimizer.Postgres.ReadTrees
import SqlOptimizer.Postgres.ReadStrings
import SqlOptimizer.Postgres.Renderings
import SqlOptimizer.Postgres.Operands
import SqlOptimizer.Postgres.GluedOperands
import SqlOptimizer.Deparse.ExpressionText
import SqlOptimizer.Deparse.ReadableText
import SqlOptimizer.Deparse.ExpressionRoundTrip
import SqlOptimizer.Logic.Iteration
import SqlOptimizer.Tree.AlikeTrees
import SqlOptimizer.Unnesting.DepJoinSteps
import SqlOptimizer.Unnesting.DepJoinLoop
import SqlOptimizer.Unnesting.DepJoinSetup
import SqlOptimizer.Unnesting.DepJoinTermination
import SqlOptimizer.Logic.GroupedJoins
import SqlOptimizer.Semantics.ExchangedRows
import SqlOptimizer.Unnesting.ChangedConditions
import SqlOptimizer.Unnesting.DecoupledRun
import SqlOptimizer.Unnesting.UnnestedRows
