import RouteComments.Cli.Arguments
import RouteComments.Cli.Run
import RouteComments.Config
import RouteComments.Editor.Capability
import RouteComments.Editor.Feature
import RouteComments.Editor.Message
import RouteComments.Editor.Method
import RouteComments.Editor.Params
import RouteComments.Editor.Protocol
import RouteComments.Editor.Session.Basic
import RouteComments.Editor.Session.Receive
import RouteComments.Editor.Settings
import RouteComments.Editor.Snapshot
import RouteComments.Editor.Store
import RouteComments.Editor.TextEdit
import RouteComments.Editor.Uri.Address
import RouteComments.Editor.Uri.Authority
import RouteComments.Editor.Uri.Basic
import RouteComments.Editor.Uri.Domain
import RouteComments.Editor.Uri.Percent
import RouteComments.Editor.Uri.Punycode
import RouteComments.Editor.Wire
import RouteComments.FileTree.Basic
import RouteComments.FileTree.Search
import RouteComments.Java.Annotations
import RouteComments.Java.TypeDeclaration
import RouteComments.Json.Shape
import RouteComments.Json.Value
import RouteComments.Keyed
import RouteComments.LocalServer
import RouteComments.Main
import RouteComments.Mapping.Paths
import RouteComments.Mapping.Scan
import RouteComments.Mapping.Scanner
import RouteComments.Parameter.Binding
import RouteComments.Parameter.Signature
import RouteComments.Parameter.TypeTag
import RouteComments.Path
import RouteComments.Path.Map
import RouteComments.Plan.Block
import RouteComments.Plan.Comment
import RouteComments.Plan.Operation
import RouteComments.Proofs.ApplicationOrder
import RouteComments.Proofs.BaseUrlPrecedence
import RouteComments.Proofs.ClosedTexts
import RouteComments.Proofs.CodeActions
import RouteComments.Proofs.CollectedEdits
import RouteComments.Proofs.CommentedProse
import RouteComments.Proofs.CurrentComments
import RouteComments.Proofs.DeclaredParameters
import RouteComments.Proofs.DeletionSafety
import RouteComments.Proofs.DirectoryWalks
import RouteComments.Proofs.DiscoveredFiles
import RouteComments.Proofs.DryRuns
import RouteComments.Proofs.EditorEdits
import RouteComments.Proofs.FileUris
import RouteComments.Proofs.FileWrites
import RouteComments.Proofs.GeneratedComments
import RouteComments.Proofs.GlyphBytes
import RouteComments.Proofs.Idempotence
import RouteComments.Proofs.IndependentDocuments
import RouteComments.Proofs.InsertionPlaces
import RouteComments.Proofs.Interleavings
import RouteComments.Proofs.LineEdits
import RouteComments.Proofs.ListElements
import RouteComments.Proofs.LocatedOffsets
import RouteComments.Proofs.OpenDocuments
import RouteComments.Proofs.PathLists
import RouteComments.Proofs.PathLiterals
import RouteComments.Proofs.PathParents
import RouteComments.Proofs.PlanOperations
import RouteComments.Proofs.PlannedBlocks
import RouteComments.Proofs.PortLines
import RouteComments.Proofs.Readers
import RouteComments.Proofs.Regeneration
import RouteComments.Proofs.ScannedMappings
import RouteComments.Proofs.Searches
import RouteComments.Proofs.SeparateMappings
import RouteComments.Proofs.SettledLines
import RouteComments.Proofs.SimultaneousEdits
import RouteComments.Proofs.SlashForm
import RouteComments.Proofs.SourceDiscovery
import RouteComments.Proofs.SourceLines
import RouteComments.Proofs.Texts
import RouteComments.Proofs.TypeDeclarations
import RouteComments.Proofs.TypedPlaceholders
import RouteComments.Proofs.UpwardSearch
import RouteComments.Proofs.VersionedEdits
import RouteComments.Proofs.WovenLines
import RouteComments.Proofs.WrittenFiles
import RouteComments.Proofs.WrittenParameters
import RouteComments.Report.Format
import RouteComments.Report.Style
import RouteComments.Report.Summary
import RouteComments.Source.Document
import RouteComments.Source.Line
import RouteComments.Text.Basic
import RouteComments.Text.Blank
import RouteComments.Text.Digit
import RouteComments.Text.Utf8
import RouteComments.Text.Word
import RouteComments.Toml.Document
import RouteComments.Toml.Quoted
import RouteComments.Toml.Scalar
import RouteComments.Toml.Table
import RouteComments.Url.Compose
import RouteComments.Workspace.Disk
import RouteComments.Workspace.Failure
import RouteComments.Workspace.Host
import RouteComments.Workspace.Memory
import RouteComments.Workspace.Schedule
