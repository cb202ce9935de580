import TreeQuery.Main
import TreeQuery.Proofs.Query.ExprSound
import TreeQuery.Proofs.Query.ExprComplete
import TreeQuery.Proofs.Query.Layout
import TreeQuery.Proofs.Query.Acceptance
import TreeQuery.Proofs.Query.Scanning
import TreeQuery.Proofs.Query.FragmentText
import TreeQuery.Proofs.Query.SqlText
import TreeQuery.Proofs.Query.SqlClauses
import TreeQuery.Proofs.Query.Splicing
import TreeQuery.Proofs.Query.Confinement
import TreeQuery.Proofs.Query.Printing
import TreeQuery.Proofs.Query.Spans
import TreeQuery.Proofs.Query.Spacing
import TreeQuery.Proofs.Query.RecasedStatement
import TreeQuery.Proofs.Query.FirstMistake
import TreeQuery.Proofs.Query.Composition
import TreeQuery.Proofs.Catalog.Lineage
import TreeQuery.Proofs.Catalog.PositionLimit
import TreeQuery.Proofs.Catalog.Visiting
import TreeQuery.Proofs.Path.Canonical
import TreeQuery.Proofs.Catalog.Walks
import TreeQuery.Proofs.Catalog.Subtrees
import TreeQuery.Proofs.Tree.Paths
import TreeQuery.Proofs.Tree.Rebuilding
import TreeQuery.Proofs.Catalog.Positions
import TreeQuery.Proofs.FileSystem.Walking
import TreeQuery.Proofs.FileSystem.Ignoring
import TreeQuery.Proofs.FileSystem.Listing
import TreeQuery.Proofs.Catalog.Histories
import TreeQuery.Proofs.Catalog.Growth
import TreeQuery.Proofs.Catalog.Announcing
import TreeQuery.Proofs.Catalog.Addresses
import TreeQuery.Proofs.Database.Loading
import TreeQuery.Proofs.Session.Directories
import TreeQuery.Proofs.Catalog.Renaming
import TreeQuery.Proofs.Text.Utf8
import TreeQuery.Proofs.Output.JsonReader
import TreeQuery.Proofs.Output.JsonLine
import TreeQuery.Proofs.Output.TableLines
import TreeQuery.Proofs.CommandLine.Arguments
import TreeQuery.Proofs.CommandLine.Channels
import TreeQuery.Proofs.Path.Normalizing
import TreeQuery.Proofs.Session.AbsolutePaths
import TreeQuery.Proofs.Query.Targets
import TreeQuery.Proofs.Query.QuotedNames
import TreeQuery.Proofs.Time.Order
import TreeQuery.Proofs.Query.DescentAnswer
