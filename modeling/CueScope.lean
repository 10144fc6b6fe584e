import CueScope.Builtin.Basic
import CueScope.Builtin.Catalog
import CueScope.Check
import CueScope.Disk
import CueScope.Domain.Basic
import CueScope.Domain.Label
import CueScope.Domain.Mapping
import CueScope.Domain.Punycode
import CueScope.Editor.Definition
import CueScope.Editor.Diagnostic
import CueScope.Editor.Document
import CueScope.Editor.Hover
import CueScope.Editor.Store
import CueScope.Grammar.Fault
import CueScope.Grammar.Rule
import CueScope.Graph.Basic
import CueScope.Graph.Build
import CueScope.Graph.Error
import CueScope.Graph.Find
import CueScope.Graph.Lookup
import CueScope.Graph.Resolve
import CueScope.Graph.Walk
import CueScope.Host.Basic
import CueScope.Host.Ipv4
import CueScope.Host.Ipv6
import CueScope.ImportPath
import CueScope.Instance.Basic
import CueScope.Instance.Load
import CueScope.Instance.Module
import CueScope.Lowered.Cursor
import CueScope.Lowered.Graph
import CueScope.Lowered.Label
import CueScope.Path
import CueScope.Proofs.Editor.Checked
import CueScope.Proofs.Editor.Closed
import CueScope.Proofs.Editor.Current
import CueScope.Proofs.Editor.Definition
import CueScope.Proofs.Editor.History
import CueScope.Proofs.Editor.Hover
import CueScope.Proofs.Editor.Published
import CueScope.Proofs.Editor.Replay
import CueScope.Proofs.Editor.Steps
import CueScope.Proofs.Grammar.Layout
import CueScope.Proofs.Grammar.Located
import CueScope.Proofs.Grammar.Parallel
import CueScope.Proofs.Grammar.Quiet
import CueScope.Proofs.Grammar.Reads
import CueScope.Proofs.Grammar.Relocate
import CueScope.Proofs.Grammar.Steady
import CueScope.Proofs.Grammar.Takes
import CueScope.Proofs.Graph.Arena
import CueScope.Proofs.Graph.Binding
import CueScope.Proofs.Graph.Builtin
import CueScope.Proofs.Graph.Cycles
import CueScope.Proofs.Graph.Filling
import CueScope.Proofs.Graph.Find
import CueScope.Proofs.Graph.Forest
import CueScope.Proofs.Graph.Growth
import CueScope.Proofs.Graph.Imports
import CueScope.Proofs.Graph.Labels
import CueScope.Proofs.Graph.Lookup
import CueScope.Proofs.Graph.Memo
import CueScope.Proofs.Graph.Merge
import CueScope.Proofs.Graph.Places
import CueScope.Proofs.Graph.References
import CueScope.Proofs.Graph.Resolution
import CueScope.Proofs.Graph.Settled
import CueScope.Proofs.Graph.Spelling
import CueScope.Proofs.Graph.Stocked
import CueScope.Proofs.Graph.Targets
import CueScope.Proofs.Graph.Traversal
import CueScope.Proofs.Graph.Walk
import CueScope.Proofs.Instance.Agree
import CueScope.Proofs.Instance.Contents
import CueScope.Proofs.Instance.Course
import CueScope.Proofs.Instance.Depth
import CueScope.Proofs.Instance.Directory
import CueScope.Proofs.Instance.Display
import CueScope.Proofs.Instance.Edges
import CueScope.Proofs.Instance.Exact
import CueScope.Proofs.Instance.Load
import CueScope.Proofs.Instance.Module
import CueScope.Proofs.Instance.Registered
import CueScope.Proofs.Instance.Saved
import CueScope.Proofs.Instance.Selection
import CueScope.Proofs.Instance.Written
import CueScope.Proofs.Lowered.Builds
import CueScope.Proofs.Lowered.Follow
import CueScope.Proofs.Lowered.Label
import CueScope.Proofs.Lowered.Links
import CueScope.Proofs.Lowered.Nested
import CueScope.Proofs.Lowered.Rooted
import CueScope.Proofs.Lowered.Smallest
import CueScope.Proofs.Lowered.Walk
import CueScope.Proofs.Path
import CueScope.Proofs.Path.Below
import CueScope.Proofs.Place
import CueScope.Proofs.Text.Boundary
import CueScope.Proofs.Text.Bytes
import CueScope.Proofs.Text.Conversion
import CueScope.Proofs.Text.Crlf
import CueScope.Proofs.Text.Lines
import CueScope.Proofs.Text.Literal
import CueScope.Proofs.Text.Rounding
import CueScope.Proofs.Token.Breaks
import CueScope.Proofs.Token.Crlf
import CueScope.Proofs.Token.Following
import CueScope.Proofs.Token.Layout
import CueScope.Proofs.Token.Line
import CueScope.Proofs.Token.Literal
import CueScope.Proofs.Token.Located
import CueScope.Proofs.Token.Marks
import CueScope.Proofs.Token.Pace
import CueScope.Proofs.Token.Parts
import CueScope.Proofs.Token.Relocate
import CueScope.Proofs.Token.Spelling
import CueScope.Proofs.Token.Stops
import CueScope.Proofs.Token.Text
import CueScope.Proofs.Token.Tiling
import CueScope.Proofs.Tree.Alike
import CueScope.Proofs.Tree.Arranged
import CueScope.Proofs.Tree.Balanced
import CueScope.Proofs.Tree.Covered
import CueScope.Proofs.Tree.Crlf
import CueScope.Proofs.Tree.Derivation
import CueScope.Proofs.Tree.Enclosed
import CueScope.Proofs.Tree.Errors
import CueScope.Proofs.Tree.Groups
import CueScope.Proofs.Tree.Header
import CueScope.Proofs.Tree.InPlace
import CueScope.Proofs.Tree.Leaves
import CueScope.Proofs.Tree.Levels
import CueScope.Proofs.Tree.Located
import CueScope.Proofs.Tree.Names
import CueScope.Proofs.Tree.Positions
import CueScope.Proofs.Tree.Recovery
import CueScope.Proofs.Tree.Relocate
import CueScope.Proofs.Tree.RoundTrip
import CueScope.Proofs.Tree.Spans
import CueScope.Proofs.Tree.Steady
import CueScope.Proofs.Tree.Writing
import CueScope.Proofs.Tree.Zone
import CueScope.Proofs.Uri.File
import CueScope.Session
import CueScope.Settings.Basic
import CueScope.Settings.Key
import CueScope.Source
import CueScope.Text.Blank
import CueScope.Text.Bytes
import CueScope.Text.Digits
import CueScope.Text.Literal
import CueScope.Text.Percent
import CueScope.Text.Position
import CueScope.Text.Rope
import CueScope.Text.Span
import CueScope.Text.Split
import CueScope.Text.Utf8
import CueScope.Token.Basic
import CueScope.Token.Lexer
import CueScope.Toml
import CueScope.Tree.Basic
import CueScope.Tree.Expression
import CueScope.Tree.File
import CueScope.Unicode.Combining
import CueScope.Unicode.Composite
import CueScope.Unicode.Direction
import CueScope.Unicode.Joining
import CueScope.Unicode.Mark
import CueScope.Unicode.Normal
import CueScope.Unicode.Runs
import CueScope.Uri.Basic
import CueScope.Uri.File
import CueScope.Uri.Parser
import CueScope.Uri.Segments
import CueScope.Workspace
