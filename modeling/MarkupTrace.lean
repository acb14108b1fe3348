import MarkupTrace.Annotate.Compile
import MarkupTrace.Annotate.Module
import MarkupTrace.Annotate.Names
import MarkupTrace.Annotate.Options
import MarkupTrace.Annotate.Report
import MarkupTrace.Attempt
import MarkupTrace.CommandLine.Arguments
import MarkupTrace.CommandLine.Directory
import MarkupTrace.CommandLine.Help
import MarkupTrace.CommandLine.Run
import MarkupTrace.Data.Basic
import MarkupTrace.Data.Json
import MarkupTrace.Data.Reader
import MarkupTrace.Data.Yaml
import MarkupTrace.Eval.Error
import MarkupTrace.Eval.Expression
import MarkupTrace.Eval.Module
import MarkupTrace.Inspect
import MarkupTrace.Keyed
import MarkupTrace.Live.Session
import MarkupTrace.Locate
import MarkupTrace.Main
import MarkupTrace.Number.Double
import MarkupTrace.Number.Read
import MarkupTrace.Number.Scaled
import MarkupTrace.Number.Shortest
import MarkupTrace.Number.Written
import MarkupTrace.Render.Document
import MarkupTrace.Render.Fiber
import MarkupTrace.Render.Mount
import MarkupTrace.Settings.KeyPath
import MarkupTrace.Settings.Layers
import MarkupTrace.Settings.Toml.Reader
import MarkupTrace.Settings.Toml.Scalar
import MarkupTrace.Source.Error
import MarkupTrace.Source.Grammar.Expression
import MarkupTrace.Source.Grammar.Lexical
import MarkupTrace.Source.Grammar.Markup
import MarkupTrace.Source.Grammar.Module
import MarkupTrace.Source.Grammar.Outcome
import MarkupTrace.Source.Printer
import MarkupTrace.Source.Token
import MarkupTrace.Source.Tree
import MarkupTrace.Structure.Drawing
import MarkupTrace.Structure.Entry
import MarkupTrace.Structure.ExpressionMap
import MarkupTrace.Structure.Format
import MarkupTrace.Structure.Reconcile
import MarkupTrace.Structure.Walk
import MarkupTrace.Text.Blank
import MarkupTrace.Text.Digit
import MarkupTrace.Text.Escaped
import MarkupTrace.Text.Graphic
import MarkupTrace.Text.Lines
import MarkupTrace.Text.Span
import MarkupTrace.Value.Basic
import MarkupTrace.Value.Location
import MarkupTrace.Value.Store
import MarkupTrace.Value.Written
import MarkupTrace.Proofs.Mentions
import MarkupTrace.Proofs.ParsedModules
import MarkupTrace.Proofs.FreshNames
import MarkupTrace.Proofs.Origins
import MarkupTrace.Proofs.Derivations
import MarkupTrace.Proofs.StoreTyping
import MarkupTrace.Proofs.ShownText
import MarkupTrace.Proofs.Recording
import MarkupTrace.Proofs.Attribution
import MarkupTrace.Proofs.AttributedElements
import MarkupTrace.Proofs.ExactAttribution
import MarkupTrace.Proofs.AlikeStores
import MarkupTrace.Proofs.SimulatedElements
import MarkupTrace.Proofs.SimulatedLoading
import MarkupTrace.Proofs.MeaningKept
import MarkupTrace.Proofs.Planting
import MarkupTrace.Proofs.Standing
import MarkupTrace.Proofs.Placing
import MarkupTrace.Proofs.ForestEntries
import MarkupTrace.Proofs.Positions
import MarkupTrace.Proofs.Mirroring
import MarkupTrace.Proofs.MirroredStructure
import MarkupTrace.Proofs.Histories
import MarkupTrace.Proofs.Outcomes
import MarkupTrace.Proofs.Unfolding
import MarkupTrace.Proofs.ReadParts
import MarkupTrace.Proofs.LineEndings
import MarkupTrace.Proofs.ReadElements
import MarkupTrace.Proofs.EmittedLocations
import MarkupTrace.Proofs.SelectedText
import MarkupTrace.Proofs.Locations
import MarkupTrace.Proofs.MixedEndings
import MarkupTrace.Proofs.MovedTokens
import MarkupTrace.Proofs.MovedGrammar
import MarkupTrace.Proofs.MixedTexts
import MarkupTrace.Proofs.MixedAnnotation
import MarkupTrace.Proofs.MixedModules
import MarkupTrace.Proofs.MatchedChildren
import MarkupTrace.Proofs.RenderedAttribution
import MarkupTrace.Proofs.ToldChildren
import MarkupTrace.Proofs.AmbiguousStarts
import MarkupTrace.Proofs.ResemblingTrees
import MarkupTrace.Proofs.Contributors
import MarkupTrace.Proofs.Isolation
import MarkupTrace.Proofs.FailedRenders
import MarkupTrace.Proofs.Containers
import MarkupTrace.Proofs.DirectMarkup
import MarkupTrace.Proofs.Runs
import MarkupTrace.Proofs.Notifications
import MarkupTrace.Proofs.Handlers
import MarkupTrace.Proofs.Contents
import MarkupTrace.Proofs.Takeovers
import MarkupTrace.Proofs.Identities
import MarkupTrace.Proofs.Minting
import MarkupTrace.Proofs.ConsumedRecords
import MarkupTrace.Proofs.TruthyChildren
import MarkupTrace.Proofs.ReadTokens
import MarkupTrace.Proofs.ReadableModules
import MarkupTrace.Proofs.AmbiguousBrackets
import MarkupTrace.Proofs.RereadExpressions
import MarkupTrace.Proofs.RereadElements
import MarkupTrace.Proofs.RereadModules
import MarkupTrace.Proofs.PrintedModules
import MarkupTrace.Proofs.MadeRecords
import MarkupTrace.Proofs.FailedSteps
import MarkupTrace.Proofs.FailedEvaluations
import MarkupTrace.Proofs.FailedLoading
import MarkupTrace.Proofs.LastingFibers
import MarkupTrace.Proofs.FairRuns
import MarkupTrace.Proofs.LastCommits
import MarkupTrace.Proofs.JoinedLines
import MarkupTrace.Proofs.PrintedStrings
import MarkupTrace.Proofs.Collapsing
import MarkupTrace.Proofs.UnfinishedElements
import MarkupTrace.Proofs.AbandonedRecords
import MarkupTrace.Proofs.FailedAttribution
import MarkupTrace.Proofs.AnnotatedTrees
import MarkupTrace.Proofs.RepeatedAnnotation
import MarkupTrace.Proofs.NameUses
import MarkupTrace.Proofs.Visits
import MarkupTrace.Proofs.Enclosures
import MarkupTrace.Proofs.EnclosedRuns
import MarkupTrace.Proofs.EnclosedLoading
import MarkupTrace.Proofs.PrintedHelpers
import MarkupTrace.Proofs.OptionNames
import MarkupTrace.Proofs.DeclaredNames
import MarkupTrace.Proofs.HiddenNames
import MarkupTrace.Proofs.OrderedMatches
import MarkupTrace.Proofs.LoggedMaps
import MarkupTrace.Proofs.TakenNames
import MarkupTrace.Proofs.NestedNodes
import MarkupTrace.Proofs.AnnotatedNodes
import MarkupTrace.Proofs.CountedElements
import MarkupTrace.Proofs.FlaggedChildren
import MarkupTrace.Proofs.ExactReports
import MarkupTrace.Proofs.PreOrder
import MarkupTrace.Proofs.DocumentForests
import MarkupTrace.Proofs.TiledElements
import MarkupTrace.Proofs.Blames
import MarkupTrace.Proofs.RefusedTexts
import MarkupTrace.Proofs.TextLines
import MarkupTrace.Proofs.AcceptedPrefixes
import MarkupTrace.Proofs.Excerpts
import MarkupTrace.Proofs.DefaultRoots
import MarkupTrace.Proofs.Drawings
import MarkupTrace.Proofs.CountedOffsets
import MarkupTrace.Proofs.LongestTokens
import MarkupTrace.Proofs.RuleDepth
