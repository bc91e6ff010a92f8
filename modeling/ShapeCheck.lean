import ShapeCheck.Batch
import ShapeCheck.Check.Access
import ShapeCheck.Check.Body
import ShapeCheck.Check.Call
import ShapeCheck.Check.Class
import ShapeCheck.Check.Enum
import ShapeCheck.Check.Expression
import ShapeCheck.Check.Function
import ShapeCheck.Check.Guard
import ShapeCheck.Check.Interface
import ShapeCheck.Check.Meaning
import ShapeCheck.Check.Operator
import ShapeCheck.Check.Pass
import ShapeCheck.Check.Prelude
import ShapeCheck.Check.Session
import ShapeCheck.Check.Statement
import ShapeCheck.Command
import ShapeCheck.Command.Flag
import ShapeCheck.Command.Help
import ShapeCheck.Command.Line
import ShapeCheck.Diagnostic
import ShapeCheck.Document
import ShapeCheck.Environment
import ShapeCheck.Files
import ShapeCheck.Main
import ShapeCheck.Number.Binary64
import ShapeCheck.Number.Decimal
import ShapeCheck.Number.Whole
import ShapeCheck.Pattern
import ShapeCheck.Pattern.Error
import ShapeCheck.Pattern.Match
import ShapeCheck.Pattern.Read
import ShapeCheck.Pattern.Reader
import ShapeCheck.Pattern.SetRules
import ShapeCheck.Problem
import ShapeCheck.Proofs.AliasResolution
import ShapeCheck.Proofs.Annotations
import ShapeCheck.Proofs.Arity
import ShapeCheck.Proofs.Assignability
import ShapeCheck.Proofs.AssignmentNarrowing
import ShapeCheck.Proofs.Avoidance
import ShapeCheck.Proofs.BlockPositions
import ShapeCheck.Proofs.Building
import ShapeCheck.Proofs.Calling
import ShapeCheck.Proofs.ChainBounds
import ShapeCheck.Proofs.ClosedInstances
import ShapeCheck.Proofs.Coinduction
import ShapeCheck.Proofs.Comparison
import ShapeCheck.Proofs.ComparisonEnds
import ShapeCheck.Proofs.CompleteTrees
import ShapeCheck.Proofs.Conditions
import ShapeCheck.Proofs.ConstantComparison
import ShapeCheck.Proofs.ConstantEnds
import ShapeCheck.Proofs.Constituents
import ShapeCheck.Proofs.Constructors
import ShapeCheck.Proofs.DataComparison
import ShapeCheck.Proofs.Declarations
import ShapeCheck.Proofs.Descent
import ShapeCheck.Proofs.DiscriminantNarrowing
import ShapeCheck.Proofs.Elimination
import ShapeCheck.Proofs.Entries
import ShapeCheck.Proofs.EnumMembers
import ShapeCheck.Proofs.Enums
import ShapeCheck.Proofs.EqualityNarrowing
import ShapeCheck.Proofs.Evidence
import ShapeCheck.Proofs.ExactNarrowing
import ShapeCheck.Proofs.ExpandedHeads
import ShapeCheck.Proofs.FiniteShapes
import ShapeCheck.Proofs.FirstOrder
import ShapeCheck.Proofs.FirstOrderDecision
import ShapeCheck.Proofs.FlowSoundness
import ShapeCheck.Proofs.FlowTyping
import ShapeCheck.Proofs.Frames
import ShapeCheck.Proofs.GlobalScope
import ShapeCheck.Proofs.GrammarRefinement
import ShapeCheck.Proofs.Growth
import ShapeCheck.Proofs.GuardLaws
import ShapeCheck.Proofs.HashConsing
import ShapeCheck.Proofs.Images
import ShapeCheck.Proofs.InferredBindings
import ShapeCheck.Proofs.Inheritance
import ShapeCheck.Proofs.Instantiation
import ShapeCheck.Proofs.Joins
import ShapeCheck.Proofs.Keys
import ShapeCheck.Proofs.Lasting
import ShapeCheck.Proofs.LaterEntries
import ShapeCheck.Proofs.Levels
import ShapeCheck.Proofs.Meets
import ShapeCheck.Proofs.MemberNarrowing
import ShapeCheck.Proofs.Memory
import ShapeCheck.Proofs.Merging
import ShapeCheck.Proofs.Narrowing
import ShapeCheck.Proofs.Numerals
import ShapeCheck.Proofs.NumericKeys
import ShapeCheck.Proofs.OperatorChains
import ShapeCheck.Proofs.OrderedMeets
import ShapeCheck.Proofs.Overlays
import ShapeCheck.Proofs.Overloads
import ShapeCheck.Proofs.Overriding
import ShapeCheck.Proofs.Parentheses
import ShapeCheck.Proofs.Persistence
import ShapeCheck.Proofs.Phrases
import ShapeCheck.Proofs.PlainExpansion
import ShapeCheck.Proofs.PrintedExpressions
import ShapeCheck.Proofs.PrintedWords
import ShapeCheck.Proofs.PropertyAccess
import ShapeCheck.Proofs.PropertyAgreement
import ShapeCheck.Proofs.Readers
import ShapeCheck.Proofs.ReadonlyProperties
import ShapeCheck.Proofs.DataEntries
import ShapeCheck.Proofs.References
import ShapeCheck.Proofs.Resolution
import ShapeCheck.Proofs.ResolutionEnds
import ShapeCheck.Proofs.Restoration
import ShapeCheck.Proofs.Rules
import ShapeCheck.Proofs.RuntimeValues
import ShapeCheck.Proofs.ScannedWords
import ShapeCheck.Proofs.Scanning
import ShapeCheck.Proofs.ScopeHistories
import ShapeCheck.Proofs.Seclusion
import ShapeCheck.Proofs.Settling
import ShapeCheck.Proofs.SmallNumerals
import ShapeCheck.Proofs.Speculation
import ShapeCheck.Proofs.SplitMembers
import ShapeCheck.Proofs.SplitSides
import ShapeCheck.Proofs.Stability
import ShapeCheck.Proofs.StandIns
import ShapeCheck.Proofs.Structure
import ShapeCheck.Proofs.Substitutions
import ShapeCheck.Proofs.Templates
import ShapeCheck.Proofs.TextBytes
import ShapeCheck.Proofs.Tiling
import ShapeCheck.Proofs.Transitivity
import ShapeCheck.Proofs.TupleLists
import ShapeCheck.Proofs.TypeReadings
import ShapeCheck.Proofs.Unification
import ShapeCheck.Proofs.UnificationEnds
import ShapeCheck.Proofs.Untouched
import ShapeCheck.Proofs.UpwardWidening
import ShapeCheck.Proofs.Values
import ShapeCheck.Proofs.Walks
import ShapeCheck.Proofs.Widening
import ShapeCheck.Proofs.WrittenRecords
import ShapeCheck.Proofs.WrittenStrings
import ShapeCheck.Report
import ShapeCheck.Report.Format
import ShapeCheck.Settings
import ShapeCheck.Settings.Layer
import ShapeCheck.Settings.Level
import ShapeCheck.Snippet
import ShapeCheck.Snippet.Error
import ShapeCheck.Snippet.ExpressionRules
import ShapeCheck.Snippet.Reader
import ShapeCheck.Snippet.TypeRules
import ShapeCheck.Source
import ShapeCheck.Suppression
import ShapeCheck.Text.Category
import ShapeCheck.Text.Csv
import ShapeCheck.Text.Printable
import ShapeCheck.Text.Quoted
import ShapeCheck.Text.Script
import ShapeCheck.Text.SmallLetter
import ShapeCheck.Text.Width
import ShapeCheck.Token
import ShapeCheck.Token.Scan
import ShapeCheck.Tree
import ShapeCheck.Tree.Numbering
import ShapeCheck.Tree.Print
import ShapeCheck.Ty
import ShapeCheck.Ty.Alias
import ShapeCheck.Ty.Assignable
import ShapeCheck.Ty.Inference
import ShapeCheck.Ty.Intersection
import ShapeCheck.Ty.Key
import ShapeCheck.Ty.Narrowing
import ShapeCheck.Ty.Omission
import ShapeCheck.Ty.Property
import ShapeCheck.Ty.Substitution
import ShapeCheck.Ty.Table
import ShapeCheck.Ty.Union
import ShapeCheck.Ty.Widening
import ShapeCheck.Yaml.Document
import ShapeCheck.Yaml.Moment
import ShapeCheck.Yaml.Node
import ShapeCheck.Yaml.Scalars
import ShapeCheck.Yaml.Scan
import ShapeCheck.Yaml.Token
import ShapeCheck.Yaml.Value
