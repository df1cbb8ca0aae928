import ManifestUpkeep.Main
import ManifestUpkeep.Toml.Item.Lemmas
import ManifestUpkeep.Proofs.Toml.Data
import ManifestUpkeep.Proofs.Toml.Distinct
import ManifestUpkeep.Proofs.Toml.Text.Gap
import ManifestUpkeep.Proofs.Toml.Text.Quoted
import ManifestUpkeep.Proofs.Toml.Text.Escapes
import ManifestUpkeep.Proofs.Toml.Text.Spelling
import ManifestUpkeep.Proofs.Toml.Text.Values
import ManifestUpkeep.Proofs.Toml.Text.Statements
import ManifestUpkeep.Proofs.Toml.Assembly.Tree
import ManifestUpkeep.Proofs.Toml.Assembly.Simulation
import ManifestUpkeep.Proofs.Toml.Assembly.Fields
import ManifestUpkeep.Proofs.Toml.Assembly.Positions
import ManifestUpkeep.Proofs.Toml.Assembly.Sections
import ManifestUpkeep.Proofs.Toml.Assembly.Rebuild
import ManifestUpkeep.Proofs.Hoist.Offers
import ManifestUpkeep.Proofs.Hoist.Members
import ManifestUpkeep.Proofs.Hoist.Inheritance
import ManifestUpkeep.Proofs.Hoist.Shared
import ManifestUpkeep.Proofs.Hoist.Written
import ManifestUpkeep.Proofs.FileTree.Steps
import ManifestUpkeep.Proofs.FileTree.LinkFree
import ManifestUpkeep.Proofs.FileTree.Writes
import ManifestUpkeep.Proofs.Workspace.Saving
import ManifestUpkeep.Proofs.Workspace.Discovery
import ManifestUpkeep.Proofs.Workspace.Runs
import ManifestUpkeep.Proofs.Backup.FirstFree
import ManifestUpkeep.Proofs.Backup.Restore
import ManifestUpkeep.Proofs.Backup.Snapshots
import ManifestUpkeep.Proofs.Toml.Assembly.Shaped
import ManifestUpkeep.Proofs.Workspace.Undo
import ManifestUpkeep.Proofs.Workspace.SearchBase
import ManifestUpkeep.Proofs.Workspace.Search
import ManifestUpkeep.Proofs.Toml.Edit
import ManifestUpkeep.Proofs.Toml.Layout.Parsed
import ManifestUpkeep.Proofs.Toml.Layout.Reread
import ManifestUpkeep.Proofs.Order.Meaning
import ManifestUpkeep.Proofs.Order.Legible
import ManifestUpkeep.Proofs.Workspace.Operations
import ManifestUpkeep.Proofs.Workspace.DryRun
import ManifestUpkeep.Proofs.Workspace.Footprint
import ManifestUpkeep.Proofs.Toml.Changes
import ManifestUpkeep.Proofs.Hoist.Meaning
import ManifestUpkeep.Proofs.Order.Sharing
import ManifestUpkeep.Proofs.Workspace.Spelling
import ManifestUpkeep.Proofs.Hoist.InPlace
import ManifestUpkeep.Proofs.Workspace.Faults
import ManifestUpkeep.Proofs.Hoist.Mismatches
import ManifestUpkeep.Proofs.Toml.Layout.Leaves
import ManifestUpkeep.Proofs.Hoist.Legible
import ManifestUpkeep.Proofs.Hoist.Account
import ManifestUpkeep.Proofs.Workspace.WrittenSet
import ManifestUpkeep.Proofs.Backup.Exact
import ManifestUpkeep.Proofs.Order.Canonical
import ManifestUpkeep.Proofs.Toml.Layout.Additions
import ManifestUpkeep.Proofs.Toml.Layout.Sequence
import ManifestUpkeep.Proofs.Toml.Layout.Braces
import ManifestUpkeep.Proofs.Order.Rereading
import ManifestUpkeep.Proofs.Toml.Layout.Ways
import ManifestUpkeep.Proofs.Toml.Layout.Anchors
import ManifestUpkeep.Proofs.Toml.Layout.Placed
import ManifestUpkeep.Proofs.Toml.Layout.Unsplit
import ManifestUpkeep.Proofs.Toml.Layout.Rearranged
import ManifestUpkeep.Proofs.Order.Idempotence
import ManifestUpkeep.Proofs.Workspace.Rediscovery
import ManifestUpkeep.Proofs.Workspace.Resorting
import ManifestUpkeep.Proofs.FileTree.Renaming
import ManifestUpkeep.Proofs.FileTree.Links
import ManifestUpkeep.Proofs.Backup.Failures
import ManifestUpkeep.Proofs.Backup.Candidates
import ManifestUpkeep.Proofs.Backup.Chronology
import ManifestUpkeep.Proofs.Workspace.Listing
import ManifestUpkeep.Proofs.FileTree.SamePaths
import ManifestUpkeep.Proofs.FileTree.Detours
import ManifestUpkeep.Proofs.Backup.Originals
import ManifestUpkeep.Proofs.Publish
import ManifestUpkeep.Proofs.Hoist.Rewriting
import ManifestUpkeep.Proofs.Hoist.Locality
import ManifestUpkeep.Proofs.Random
import ManifestUpkeep.Proofs.Downloads.Chronicles
import ManifestUpkeep.Proofs.Downloads.Statements
import ManifestUpkeep.Proofs.SyntaxPage
import ManifestUpkeep.Proofs.Fragments
import ManifestUpkeep.Proofs.Hoist.Collection
import ManifestUpkeep.Proofs.FileTree.Directories
import ManifestUpkeep.Proofs.SyntaxPage.Pages
import ManifestUpkeep.Proofs.Hoist.SharedText
import ManifestUpkeep.Proofs.Hoist.Again
import ManifestUpkeep.Proofs.Workspace.Rewritten
import ManifestUpkeep.Proofs.Workspace.Rehoisting
import ManifestUpkeep.Proofs.Workspace.SharedOnDisk
import ManifestUpkeep.Proofs.Toml.Text.Comments
import ManifestUpkeep.Proofs.Toml.Layout.Comments
import ManifestUpkeep.Proofs.Toml.Layout.CommentsWritten
import ManifestUpkeep.Proofs.Order.Comments
