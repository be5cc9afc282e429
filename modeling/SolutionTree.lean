import SolutionTree.Catalog
import SolutionTree.Command.Arguments
import SolutionTree.Command.Run
import SolutionTree.Dependencies
import SolutionTree.Dependencies.BuildOrder
import SolutionTree.Diagnostic
import SolutionTree.Dictionary
import SolutionTree.Extensions
import SolutionTree.Fault
import SolutionTree.FileSystem
import SolutionTree.FileSystem.Write
import SolutionTree.FileTree
import SolutionTree.FileTree.Position
import SolutionTree.Fingerprint
import SolutionTree.Identifier
import SolutionTree.Identifier.Text
import SolutionTree.Journal
import SolutionTree.Json
import SolutionTree.Listing
import SolutionTree.Main
import SolutionTree.Manifest
import SolutionTree.OsPath
import SolutionTree.Path
import SolutionTree.Path.Directory
import SolutionTree.Path.Lexical
import SolutionTree.Path.Relative
import SolutionTree.Pattern
import SolutionTree.Pattern.Matching
import SolutionTree.Project
import SolutionTree.ProjectFile
import SolutionTree.Report
import SolutionTree.Report.Document
import SolutionTree.Scan
import SolutionTree.Settings
import SolutionTree.Sha256
import SolutionTree.Solution
import SolutionTree.Target
import SolutionTree.Text.Blank
import SolutionTree.Text.Control
import SolutionTree.Text.Hex
import SolutionTree.Text.Lines
import SolutionTree.Text.Pieces
import SolutionTree.Text.Utf8
import SolutionTree.Toml.Document
import SolutionTree.Toml.Scalar
import SolutionTree.Toml.Value
import SolutionTree.Proofs.Association
import SolutionTree.Proofs.Dependencies
import SolutionTree.Proofs.BuildOrder.Search
import SolutionTree.Proofs.BuildOrder.Order
import SolutionTree.Proofs.References.Directory
import SolutionTree.Proofs.Catalog
import SolutionTree.Proofs.References
import SolutionTree.Proofs.Path.Child
import SolutionTree.Proofs.Path.Directory
import SolutionTree.Proofs.FileSystem.Follow
import SolutionTree.Proofs.FileTree.WellFormed
import SolutionTree.Proofs.Listing
import SolutionTree.Proofs.Scan.Walk
import SolutionTree.Proofs.Scan.Rule
import SolutionTree.Proofs.Scan.Survey
import SolutionTree.Proofs.Scan.Targets
import SolutionTree.Proofs.Identifier.Counting
import SolutionTree.Proofs.Text.Words
import SolutionTree.Proofs.Text.Lines
import SolutionTree.Proofs.Manifest.Lines
import SolutionTree.Proofs.Manifest.Values
import SolutionTree.Proofs.Manifest.FirstLines
import SolutionTree.Proofs.Text.Utf8
import SolutionTree.Proofs.OsPath
import SolutionTree.Proofs.Path.Relative
import SolutionTree.Proofs.Path.Slashed
import SolutionTree.Proofs.Path.Spelling
import SolutionTree.Proofs.FileSystem.Normalize
import SolutionTree.Proofs.ProjectFile.Places
import SolutionTree.Proofs.FileSystem.Below
import SolutionTree.Proofs.Path.Front
import SolutionTree.Proofs.Relocation.Moved
import SolutionTree.Proofs.Relocation.Placement
import SolutionTree.Proofs.Relocation.Scan
import SolutionTree.Proofs.Relocation.Report
import SolutionTree.Proofs.Text.Bytes
import SolutionTree.Proofs.Sorting
import SolutionTree.Proofs.Scan.Identifiers
import SolutionTree.Proofs.Solution.Members
import SolutionTree.Proofs.Report
import SolutionTree.Proofs.Solution.Emission
import SolutionTree.Proofs.Fingerprint
import SolutionTree.Proofs.Solution.Stream
import SolutionTree.Proofs.FileSystem.Under
import SolutionTree.Proofs.Scan.Reading
import SolutionTree.Proofs.FileTree.Pruned
import SolutionTree.Proofs.Scan.Exclusion
import SolutionTree.Proofs.FileTree.Reordered
import SolutionTree.Proofs.FileSystem.Reordered
import SolutionTree.Proofs.Scan.ListingOrder
import SolutionTree.Proofs.Catalog.Insertion
import SolutionTree.Proofs.Report.Owners
import SolutionTree.Proofs.Scan.Faults
import SolutionTree.Proofs.Catalog.Alike
import SolutionTree.Proofs.Scan.Edited
import SolutionTree.Proofs.Report.Locality
import SolutionTree.Proofs.Text.Blank
import SolutionTree.Proofs.Text.Hex
import SolutionTree.Proofs.Identifier.Reading
import SolutionTree.Proofs.Identifier.Texts
import SolutionTree.Proofs.Path.Distinct
import SolutionTree.Proofs.ProjectFile.IntermediateDirs
import SolutionTree.Proofs.Path.Backslash
import SolutionTree.Proofs.Manifest.IncludeDirs
import SolutionTree.Proofs.ProjectFile.Runner
import SolutionTree.Proofs.Report.MainTarget
import SolutionTree.Proofs.Solution.Unresolved
import SolutionTree.Proofs.Manifest.Respaced
import SolutionTree.Proofs.Report.IdleManifest
import SolutionTree.Proofs.Command.Table
import SolutionTree.Proofs.Path.Parent
import SolutionTree.Proofs.Scan.OwnerDirectory
