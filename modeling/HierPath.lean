import HierPath.Command.Arguments
import HierPath.Command.Failure
import HierPath.Command.Help
import HierPath.Command.Run
import HierPath.Command.Simulation
import HierPath.Command.Style
import HierPath.Command.World
import HierPath.Config
import HierPath.Datum
import HierPath.Error
import HierPath.Event
import HierPath.KeyList
import HierPath.Main
import HierPath.Outline
import HierPath.Path.Ancestors
import HierPath.Path.Basic
import HierPath.Path.Parse
import HierPath.Pattern.Basic
import HierPath.Pattern.Glob
import HierPath.Pattern.Search
import HierPath.Proofs.KeyList.Agreement
import HierPath.Proofs.KeyList.Contexts
import HierPath.Proofs.KeyList.Listing
import HierPath.Proofs.KeyList.Loading
import HierPath.Proofs.KeyList.Narrowing
import HierPath.Proofs.KeyList.Outlines
import HierPath.Proofs.KeyList.Reading
import HierPath.Proofs.KeyList.Reloading
import HierPath.Proofs.KeyList.Shifting
import HierPath.Proofs.Outline
import HierPath.Proofs.Outline.Rows
import HierPath.Proofs.Path.Climbing
import HierPath.Proofs.Path.Constructible
import HierPath.Proofs.Path.Joining
import HierPath.Proofs.Path.Lineage
import HierPath.Proofs.Path.Moves
import HierPath.Proofs.Path.Naming
import HierPath.Proofs.Path.NormalForm
import HierPath.Proofs.Path.Order
import HierPath.Proofs.Path.Pieces
import HierPath.Proofs.Path.Prefixes
import HierPath.Proofs.Path.Reading
import HierPath.Proofs.Path.RoundTrip
import HierPath.Proofs.Path.TextOrder
import HierPath.Proofs.Pattern.Blocks
import HierPath.Proofs.Pattern.Concatenation
import HierPath.Proofs.Pattern.Decoding
import HierPath.Proofs.Pattern.Depths
import HierPath.Proofs.Pattern.Failures
import HierPath.Proofs.Pattern.Memory
import HierPath.Proofs.Pattern.OwnPath
import HierPath.Proofs.Pattern.Records
import HierPath.Proofs.Pattern.Search
import HierPath.Proofs.Pattern.Starless
import HierPath.Proofs.Pattern.Visits
import HierPath.Proofs.Pattern.Wildcards
import HierPath.Proofs.Pattern.Work
import HierPath.Proofs.Text.Comparing
import HierPath.Proofs.Text.Lines
import HierPath.Proofs.Tree.Accounting
import HierPath.Proofs.Tree.Building
import HierPath.Proofs.Tree.Children
import HierPath.Proofs.Tree.Counting
import HierPath.Proofs.Tree.Editing
import HierPath.Proofs.Tree.Entries
import HierPath.Proofs.Tree.Equality
import HierPath.Proofs.Tree.Growth
import HierPath.Proofs.Tree.Likeness
import HierPath.Proofs.Tree.Locations
import HierPath.Proofs.Tree.Lookups
import HierPath.Proofs.Tree.Nodes
import HierPath.Proofs.Tree.Refinement
import HierPath.Proofs.Tree.Selection
import HierPath.Proofs.Tree.Shape
import HierPath.Proofs.Tree.Subtrees
import HierPath.Proofs.Tree.Walking
import HierPath.Proofs.Tree.Writing
import HierPath.Text.Blank
import HierPath.Toml.Document
import HierPath.Toml.Number
import HierPath.Toml.Reader
import HierPath.Toml.Text
import HierPath.Toml.Value
import HierPath.Tree.Basic
import HierPath.Tree.Children
import HierPath.Tree.Select
import HierPath.Tree.Walk
