import CatalogLint.ArgList.Comparison
import CatalogLint.ArgList.Narrow
import CatalogLint.ArgList.Text
import CatalogLint.Main
import CatalogLint.Catalog.Stream
import CatalogLint.Proofs.ArgList.NormalForm
import CatalogLint.Proofs.ArgList.Canonical
import CatalogLint.Proofs.ArgList.Acceptance
import CatalogLint.Proofs.ArgList.Surgery
import CatalogLint.Proofs.ArgList.Ending
import CatalogLint.Proofs.ArgList.Intersection
import CatalogLint.Proofs.ArgList.Settled
import CatalogLint.Proofs.ArgList.Narrow
import CatalogLint.Proofs.ArgList.Open
import CatalogLint.Proofs.Format.Grammar
import CatalogLint.Proofs.Format.Level
import CatalogLint.Proofs.Format.Head
import CatalogLint.Proofs.Format.Scan
import CatalogLint.Proofs.Format.Denotation
import CatalogLint.Proofs.ArgList.Separation
import CatalogLint.Proofs.ArgList.Comparison
import CatalogLint.Proofs.Format.Reading
import CatalogLint.Proofs.Format.ListForm
import CatalogLint.Proofs.ArgList.Writing
import CatalogLint.Proofs.Format.Reordering
import CatalogLint.Proofs.ArgList.Determined
import CatalogLint.Proofs.ArgList.NarrowIntersection
import CatalogLint.Proofs.ArgList.Meet
import CatalogLint.Proofs.ArgList.LowerBound
import CatalogLint.Stored.Arithmetic
import CatalogLint.Stored.Basic
import CatalogLint.Stored.Segment
import CatalogLint.Stored.Surgery
import CatalogLint.Stored.Lookup
import CatalogLint.Stored.Normal
import CatalogLint.Stored.Intersection
import CatalogLint.Stored.Comparison
import CatalogLint.Stored.Narrow
import CatalogLint.Stored.Operation
import CatalogLint.Proofs.Stored.Embedding
import CatalogLint.Proofs.Stored.Segment
import CatalogLint.Proofs.Stored.Surgery
import CatalogLint.Proofs.Stored.Normal
import CatalogLint.Proofs.Stored.Intersection
import CatalogLint.Proofs.Stored.Larger
import CatalogLint.Proofs.Stored.Comparison
import CatalogLint.Proofs.Stored.Narrow
import CatalogLint.Proofs.Stored.Operation
import CatalogLint.Proofs.Stored.Representation
import CatalogLint.Proofs.Stored.Required
import CatalogLint.Stored.Reading
import CatalogLint.Proofs.Stored.Bounds
import CatalogLint.Proofs.Stored.Scan
import CatalogLint.Proofs.Stored.Level
import CatalogLint.Proofs.Stored.Reading
import CatalogLint.Proofs.Text.Offset
import CatalogLint.Proofs.Format.Layout
import CatalogLint.Proofs.Format.Counting
import CatalogLint.Proofs.Format.Marking
import CatalogLint.Proofs.Format.Spans
import CatalogLint.Proofs.Format.Refusal
import CatalogLint.Proofs.Text.Piece
import CatalogLint.Proofs.Catalog.Runs
import CatalogLint.Proofs.Catalog.Keyword
import CatalogLint.Proofs.Catalog.Stream
import CatalogLint.Proofs.Lint.Highlight
import CatalogLint.Proofs.Lint.Painting
import CatalogLint.Proofs.Lint.Colour
import CatalogLint.Proofs.Lint.Painter
import CatalogLint.Proofs.Lint.Checker
import CatalogLint.Proofs.Lint.Independence
import CatalogLint.Proofs.Catalog.Flags
import CatalogLint.Proofs.Lint.Unchecked
import CatalogLint.Proofs.Lint.Label
import CatalogLint.Proofs.Format.Body
import CatalogLint.Proofs.ArgList.Discrepancy
import CatalogLint.Proofs.Catalog.Message
import CatalogLint.Proofs.Text.Utf8
import CatalogLint.Proofs.Text.Split
import CatalogLint.Proofs.Catalog.Escape
import CatalogLint.Proofs.Catalog.Fragment
