import ScopedStyles.Loading.Session
import ScopedStyles.Main
import ScopedStyles.Proofs.Text.Occurrence
import ScopedStyles.Proofs.Text.Pieces
import ScopedStyles.Proofs.Text.Trim
import ScopedStyles.Proofs.Text.Words
import ScopedStyles.Proofs.Text.Scans
import ScopedStyles.Proofs.Text.Patterns
import ScopedStyles.Proofs.Host.Words
import ScopedStyles.Proofs.Host.Named
import ScopedStyles.Proofs.Host.Arguments
import ScopedStyles.Proofs.Host.Blocks
import ScopedStyles.Proofs.Host.Closed
import ScopedStyles.Proofs.Selector.Pieces
import ScopedStyles.Proofs.Selector.Anchored
import ScopedStyles.Proofs.Selector.Spacing
import ScopedStyles.Proofs.Selector.Traces
import ScopedStyles.Proofs.Selector.Marks
import ScopedStyles.Proofs.Selector.Strict
import ScopedStyles.Proofs.Selector.Lines
import ScopedStyles.Proofs.Selector.Deep
import ScopedStyles.Proofs.Selector.Keyword
import ScopedStyles.Proofs.Selector.Respaced
import ScopedStyles.Proofs.Sheet.Basic
import ScopedStyles.Proofs.Sheet.Reading
import ScopedStyles.Proofs.Sheet.Walk
import ScopedStyles.Proofs.Sheet.Scope
import ScopedStyles.Proofs.Sheet.Styles
import ScopedStyles.Proofs.Sheet.Plain
import ScopedStyles.Proofs.Sheet.Declarations
import ScopedStyles.Proofs.Sheet.Attributes
import ScopedStyles.Proofs.Sheet.HostRules
import ScopedStyles.Proofs.Sheet.Traces
import ScopedStyles.Proofs.Sheet.Prefixed
import ScopedStyles.Proofs.Sheet.Twice
import ScopedStyles.Proofs.Sheet.Keywords
import ScopedStyles.Proofs.Sheet.Deep
import ScopedStyles.Proofs.Comment.Trailing
import ScopedStyles.Proofs.Directive.Reading
import ScopedStyles.Proofs.Directive.Items
import ScopedStyles.Proofs.Sheet.Blocks
import ScopedStyles.Proofs.Sheet.Untouched
import ScopedStyles.Proofs.Sheet.Answers
import ScopedStyles.Proofs.Sheet.Ends
import ScopedStyles.Proofs.Sheet.Refilled
import ScopedStyles.Proofs.Sheet.SourceMap
import ScopedStyles.Proofs.Comment.Kept
import ScopedStyles.Proofs.Comment.SourceMap
import ScopedStyles.Proofs.Comment.Single
import ScopedStyles.Proofs.Sheet.ImportFree
import ScopedStyles.Proofs.Sheet.Imports
import ScopedStyles.Proofs.Comment.Spans
import ScopedStyles.Proofs.Component.Template
import ScopedStyles.Proofs.Component.Selector
import ScopedStyles.Proofs.Component.Instantiate
import ScopedStyles.Proofs.Loading.Loads
import ScopedStyles.Proofs.Loading.Complete
import ScopedStyles.Proofs.Loading.Transparent
import ScopedStyles.Proofs.Loading.Cycles
import ScopedStyles.Proofs.Loading.History
import ScopedStyles.Proofs.Loading.Forms
import ScopedStyles.Proofs.Loading.Lockstep
import ScopedStyles.Proofs.Loading.Search
import ScopedStyles.Proofs.Loading.Sources
import ScopedStyles.Proofs.Loading.Ends
import ScopedStyles.Proofs.Loading.Resolved
import ScopedStyles.Proofs.Disk.Places
import ScopedStyles.Proofs.Disk.Paths
import ScopedStyles.Proofs.Disk.Names
import ScopedStyles.Proofs.Disk.Folders
import ScopedStyles.Proofs.Url.Folding
import ScopedStyles.Proofs.Url.Plain
import ScopedStyles.Proofs.Url.Nested
import ScopedStyles.Proofs.Url.Canonical
import ScopedStyles.Proofs.Disk.Walks
import ScopedStyles.Proofs.Disk.Visits
import ScopedStyles.Proofs.Url.Within
import ScopedStyles.Proofs.Batch.Writing
import ScopedStyles.Proofs.Batch.Outputs
import ScopedStyles.Proofs.Batch.Order
import ScopedStyles.Proofs.Batch.Inputs
