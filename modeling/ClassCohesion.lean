import ClassCohesion.Analysis.Basic
import ClassCohesion.Command.Arguments
import ClassCohesion.Command.Basic
import ClassCohesion.Command.Screen
import ClassCohesion.Disk
import ClassCohesion.Fault
import ClassCohesion.Glob.Brace
import ClassCohesion.Glob.Pattern
import ClassCohesion.Glob.Segment
import ClassCohesion.Inheritance.Graph
import ClassCohesion.Instant
import ClassCohesion.Json.Basic
import ClassCohesion.Json.Reader
import ClassCohesion.Json.Writer
import ClassCohesion.Language.Declaration
import ClassCohesion.Language.Profile
import ClassCohesion.Language.TypeName
import ClassCohesion.Lock
import ClassCohesion.Log.Entry
import ClassCohesion.Log.Logger
import ClassCohesion.Log.Shared
import ClassCohesion.Main
import ClassCohesion.Metrics.Class
import ClassCohesion.Metrics.Cohesion
import ClassCohesion.Metrics.Extract
import ClassCohesion.Number.Basic
import ClassCohesion.Number.Reader
import ClassCohesion.Number.Shortest
import ClassCohesion.Number.Text
import ClassCohesion.Parsing.Awaited
import ClassCohesion.Parsing.Session
import ClassCohesion.Path.Basic
import ClassCohesion.Path.Name
import ClassCohesion.Pool.Basic
import ClassCohesion.Pool.Timeline
import ClassCohesion.Proofs.Accounts
import ClassCohesion.Proofs.AddedDeclarations
import ClassCohesion.Proofs.Ancestry
import ClassCohesion.Proofs.AssignmentTargets
import ClassCohesion.Proofs.AwaitedReplies
import ClassCohesion.Proofs.Checkouts
import ClassCohesion.Proofs.ClassNodes
import ClassCohesion.Proofs.CodeUnits
import ClassCohesion.Proofs.CommonDirectory
import ClassCohesion.Proofs.DecimalText
import ClassCohesion.Proofs.DecisionCounts
import ClassCohesion.Proofs.Declarators
import ClassCohesion.Proofs.Depth
import ClassCohesion.Proofs.DepthMemo
import ClassCohesion.Proofs.Directories
import ClassCohesion.Proofs.DirectoryPatterns
import ClassCohesion.Proofs.EarlyFailure
import ClassCohesion.Proofs.FactIndexes
import ClassCohesion.Proofs.ForeignMembers
import ClassCohesion.Proofs.ForwardDeclarations
import ClassCohesion.Proofs.GlobMatching
import ClassCohesion.Proofs.GraphFacts
import ClassCohesion.Proofs.JsonRoundTrip
import ClassCohesion.Proofs.LateFailure
import ClassCohesion.Proofs.Links
import ClassCohesion.Proofs.LoadTurns
import ClassCohesion.Proofs.LockSections
import ClassCohesion.Proofs.LogRuns
import ClassCohesion.Proofs.MethodGroups
import ClassCohesion.Proofs.NameLists
import ClassCohesion.Proofs.ParentSites
import ClassCohesion.Proofs.Phases
import ClassCohesion.Proofs.Places
import ClassCohesion.Proofs.PoolAnswers
import ClassCohesion.Proofs.PoolCalls
import ClassCohesion.Proofs.PoolHoldings
import ClassCohesion.Proofs.PoolLedger
import ClassCohesion.Proofs.PoolMoves
import ClassCohesion.Proofs.PoolOrder
import ClassCohesion.Proofs.PoolStarts
import ClassCohesion.Proofs.RelativePaths
import ClassCohesion.Proofs.Replies
import ClassCohesion.Proofs.ReportOrder
import ClassCohesion.Proofs.Rounding
import ClassCohesion.Proofs.Rows
import ClassCohesion.Proofs.ScanListing
import ClassCohesion.Proofs.ScanPaths
import ClassCohesion.Proofs.SessionClearing
import ClassCohesion.Proofs.SessionEngines
import ClassCohesion.Proofs.SessionMoves
import ClassCohesion.Proofs.SessionRestart
import ClassCohesion.Proofs.SessionSettling
import ClassCohesion.Proofs.SettingsFile
import ClassCohesion.Proofs.SettingsResolve
import ClassCohesion.Proofs.SharedChain
import ClassCohesion.Proofs.SharedLoads
import ClassCohesion.Proofs.SharedUse
import ClassCohesion.Proofs.SimpleNames
import ClassCohesion.Proofs.SizeLimits
import ClassCohesion.Proofs.Sorting
import ClassCohesion.Proofs.Summaries
import ClassCohesion.Proofs.TableLayout
import ClassCohesion.Proofs.Traversal
import ClassCohesion.Proofs.TreeLifetimes
import ClassCohesion.Proofs.TreeWalk
import ClassCohesion.Proofs.UndeclaredFields
import ClassCohesion.Report.Basic
import ClassCohesion.Report.Order
import ClassCohesion.Report.Paint
import ClassCohesion.Report.Summary
import ClassCohesion.Report.Table
import ClassCohesion.Scan
import ClassCohesion.Settings.Config
import ClassCohesion.Settings.Resolve
import ClassCohesion.Syntax.Dump
import ClassCohesion.Syntax.Node
import ClassCohesion.Syntax.Walk
import ClassCohesion.Text.Case
import ClassCohesion.Text.Split
import ClassCohesion.Text.Units
