import Relocate.Ast
import Relocate.Command.Outcome
import Relocate.Command.Request
import Relocate.Command.Session
import Relocate.Command.Word
import Relocate.Descriptor.Kinds
import Relocate.Descriptor.Method
import Relocate.Descriptor.Scope
import Relocate.Descriptor.Sketch
import Relocate.EditDistance.Alignment
import Relocate.EditDistance.Grid
import Relocate.EditDistance.Script
import Relocate.EditDistance.Tables
import Relocate.Error
import Relocate.Files.Path
import Relocate.Files.Revision
import Relocate.Files.Volume
import Relocate.Interchange.Printer
import Relocate.Interchange.Reader
import Relocate.Main
import Relocate.Markup.Attribute
import Relocate.Markup.Entity
import Relocate.Markup.Event
import Relocate.Matching.BottomUp
import Relocate.Matching.Config
import Relocate.Matching.Matcher
import Relocate.Matching.Similarity
import Relocate.Matching.Store
import Relocate.Matching.TopDown
import Relocate.Mutation.Finding
import Relocate.Mutation.Relocation
import Relocate.Mutation.Vote
import Relocate.Number.Binary64
import Relocate.Number.Rounding
import Relocate.Number.Unsigned
import Relocate.Report.Reader
import Relocate.Report.Writer
import Relocate.Source.Extent
import Relocate.Source.Numeral
import Relocate.Source.Token
import Relocate.Source.Rule
import Relocate.Source.Production
import Relocate.Source.Automaton
import Relocate.Source.Concrete
import Relocate.Source.Derivation
import Relocate.Source.Stacks
import Relocate.Source.Reading
import Relocate.Source.Grammar.Parts
import Relocate.Source.Grammar.Expressions
import Relocate.Source.Grammar.Statements
import Relocate.Source.Grammar.Declarations
import Relocate.Source.Grammar.Types
import Relocate.Source.Grammar
import Relocate.Source.Tree
import Relocate.Text.Blank
import Relocate.Text.Encoding
import Relocate.Text.Identifier
import Relocate.Text.Lines
import Relocate.Text.Segments
import Relocate.Tree.Place
import Relocate.Tree.Reduced
import Relocate.Tree.Rose
import Relocate.Proofs.Results
import Relocate.Proofs.Best
import Relocate.Proofs.Tree.Address
import Relocate.Proofs.Tree.PostOrder
import Relocate.Proofs.Tree.Numbering
import Relocate.Proofs.Tree.Nodes
import Relocate.Proofs.Tree.Lines
import Relocate.Proofs.Tree.Shape
import Relocate.Proofs.Tree.Relabel
import Relocate.Proofs.Tree.Walks
import Relocate.Proofs.Tree.Correspondence
import Relocate.Proofs.EditDistance.Window
import Relocate.Proofs.EditDistance.Block
import Relocate.Proofs.EditDistance.Keyroots
import Relocate.Proofs.EditDistance.Mapping
import Relocate.Proofs.EditDistance.Distance
import Relocate.Proofs.EditDistance.Route
import Relocate.Proofs.EditDistance.Reading
import Relocate.Proofs.EditDistance.Diagonal
import Relocate.Proofs.EditDistance.Metric
import Relocate.Proofs.EditDistance.Rereading
import Relocate.Proofs.EditDistance.Guarded
import Relocate.Proofs.EditDistance.Siblings
import Relocate.Proofs.EditDistance.Safety
import Relocate.Proofs.Matching.Agreement
import Relocate.Proofs.Matching.Phases
import Relocate.Proofs.Matching.Side
import Relocate.Proofs.Matching.Actions
import Relocate.Proofs.Matching.Pools
import Relocate.Proofs.Matching.Comparison
import Relocate.Proofs.Matching.Unique
import Relocate.Proofs.Number.Nearest
import Relocate.Proofs.Matching.Threshold
import Relocate.Proofs.Matching.Alike
import Relocate.Proofs.Matching.Support
import Relocate.Proofs.Matching.Containers
import Relocate.Proofs.Matching.Identity
import Relocate.Proofs.EditDistance.Relabel
import Relocate.Proofs.Matching.Relabel
import Relocate.Proofs.Matching.Renaming
import Relocate.Proofs.Descriptor.Bounds
import Relocate.Proofs.Descriptor.Dimensions
import Relocate.Proofs.Descriptor.Derivable
import Relocate.Proofs.Descriptor.Erased
import Relocate.Proofs.Descriptor.Grammar
import Relocate.Proofs.Descriptor.Lexical
import Relocate.Proofs.Descriptor.Names
import Relocate.Proofs.Descriptor.Nesting
import Relocate.Proofs.Descriptor.Lines
import Relocate.Proofs.Mutation.Overloads
import Relocate.Proofs.Mutation.Parts
import Relocate.Proofs.Mutation.Reformatting
import Relocate.Proofs.Mutation.Unmodified
import Relocate.Proofs.Mutation.Vote
import Relocate.Proofs.Mutation.Reported
import Relocate.Proofs.Matching.Exhaustive
import Relocate.Proofs.Matching.Joining
import Relocate.Proofs.Matching.Settling
import Relocate.Proofs.Matching.Recording
import Relocate.Proofs.Matching.Ranking
import Relocate.Proofs.Matching.Ambiguity
import Relocate.Proofs.Matching.Completeness
import Relocate.Proofs.Matching.Rounds
import Relocate.Proofs.Matching.Pruning
import Relocate.Proofs.Matching.Copies
import Relocate.Proofs.Matching.Refinement
import Relocate.Proofs.Matching.Flags
import Relocate.Proofs.Matching.Similarity
import Relocate.Proofs.Interchange.RoundTrip
import Relocate.Proofs.Markup.Cutting
import Relocate.Proofs.Markup.Nesting
import Relocate.Proofs.Markup.Attributes
import Relocate.Proofs.Markup.Spelling
import Relocate.Proofs.Interchange.Nodes
import Relocate.Proofs.Interchange.Elements
import Relocate.Proofs.Report.Findings
import Relocate.Proofs.Report.Pieces
import Relocate.Proofs.Report.RoundTrip
import Relocate.Proofs.Report.Fronts
import Relocate.Proofs.Report.Following
import Relocate.Proofs.Report.Spelling
import Relocate.Proofs.Report.Independence
import Relocate.Proofs.Report.EmptyElements
import Relocate.Proofs.Text.Encoding
import Relocate.Proofs.Text.Segments
import Relocate.Proofs.Files.Volume
import Relocate.Proofs.Source.Reading
import Relocate.Proofs.Source.Layout
import Relocate.Proofs.Source.Lines
import Relocate.Proofs.Interchange.Lines
import Relocate.Proofs.Files.Revision
import Relocate.Proofs.Command.Mutations
