import BuildIdCache.Build
import BuildIdCache.BuildId
import BuildIdCache.CommandLine.Arguments
import BuildIdCache.CommandLine.Commands
import BuildIdCache.CommandLine.Run
import BuildIdCache.Config.Basic
import BuildIdCache.Config.Json
import BuildIdCache.Config.Load
import BuildIdCache.Config.Yaml
import BuildIdCache.Device.Adb
import BuildIdCache.Device.Bridge
import BuildIdCache.Device.Simulated
import BuildIdCache.Elf.Bytes
import BuildIdCache.Elf.Dynamic
import BuildIdCache.Elf.Header
import BuildIdCache.Elf.Image
import BuildIdCache.Elf.Inspector
import BuildIdCache.Elf.Magic
import BuildIdCache.Elf.Notes
import BuildIdCache.Error
import BuildIdCache.FileSystem.Basic
import BuildIdCache.FileSystem.Change
import BuildIdCache.FileSystem.Resolve
import BuildIdCache.FileSystem.Walk
import BuildIdCache.Index.Basic
import BuildIdCache.Index.Store
import BuildIdCache.Inspector
import BuildIdCache.Json.Decode
import BuildIdCache.Json.Records
import BuildIdCache.Json.Token
import BuildIdCache.Json.Value
import BuildIdCache.Json.Write
import BuildIdCache.Layout
import BuildIdCache.Main
import BuildIdCache.Path
import BuildIdCache.Proofs.Again
import BuildIdCache.Proofs.Build
import BuildIdCache.Proofs.BuildId
import BuildIdCache.Proofs.BuildId.Canonical
import BuildIdCache.Proofs.Cache
import BuildIdCache.Proofs.Closed
import BuildIdCache.Proofs.Contained
import BuildIdCache.Proofs.Discovery
import BuildIdCache.Proofs.Early
import BuildIdCache.Proofs.Elf.Notes
import BuildIdCache.Proofs.FileSystem.Aim
import BuildIdCache.Proofs.FileSystem.Apart
import BuildIdCache.Proofs.FileSystem.Behind
import BuildIdCache.Proofs.FileSystem.Below
import BuildIdCache.Proofs.FileSystem.Change
import BuildIdCache.Proofs.FileSystem.Child
import BuildIdCache.Proofs.FileSystem.Found
import BuildIdCache.Proofs.FileSystem.Later
import BuildIdCache.Proofs.FileSystem.Listing
import BuildIdCache.Proofs.FileSystem.Made
import BuildIdCache.Proofs.FileSystem.Makeable
import BuildIdCache.Proofs.FileSystem.Own
import BuildIdCache.Proofs.FileSystem.Passes
import BuildIdCache.Proofs.FileSystem.Renew
import BuildIdCache.Proofs.FileSystem.Reread
import BuildIdCache.Proofs.FileSystem.Spare
import BuildIdCache.Proofs.FileSystem.Steady
import BuildIdCache.Proofs.FileSystem.Tree
import BuildIdCache.Proofs.FileSystem.Vacant
import BuildIdCache.Proofs.FileSystem.Walk
import BuildIdCache.Proofs.Index.Exact
import BuildIdCache.Proofs.Index.Gather
import BuildIdCache.Proofs.Index.Listed
import BuildIdCache.Proofs.Index.Load
import BuildIdCache.Proofs.Index.Parse
import BuildIdCache.Proofs.Index.Store
import BuildIdCache.Proofs.Index.Stored
import BuildIdCache.Proofs.Inspector
import BuildIdCache.Proofs.Json.Fields
import BuildIdCache.Proofs.Json.Records
import BuildIdCache.Proofs.Json.Text
import BuildIdCache.Proofs.Json.Tokens
import BuildIdCache.Proofs.Layout
import BuildIdCache.Proofs.Linked
import BuildIdCache.Proofs.Lookup
import BuildIdCache.Proofs.Mapped
import BuildIdCache.Proofs.Observed
import BuildIdCache.Proofs.Parent
import BuildIdCache.Proofs.Path
import BuildIdCache.Proofs.Publish
import BuildIdCache.Proofs.Readelf.Rows
import BuildIdCache.Proofs.Rendered
import BuildIdCache.Proofs.Report
import BuildIdCache.Proofs.Required
import BuildIdCache.Proofs.Sections
import BuildIdCache.Proofs.SortedMap
import BuildIdCache.Proofs.Source.Accounts
import BuildIdCache.Proofs.Source.Again
import BuildIdCache.Proofs.Source.Asked
import BuildIdCache.Proofs.Source.Best
import BuildIdCache.Proofs.Source.Calls
import BuildIdCache.Proofs.Source.Device
import BuildIdCache.Proofs.Source.Elevation
import BuildIdCache.Proofs.Source.Events
import BuildIdCache.Proofs.Source.Exact
import BuildIdCache.Proofs.Source.Failed
import BuildIdCache.Proofs.Source.Fresh
import BuildIdCache.Proofs.Source.Inside
import BuildIdCache.Proofs.Source.Itself
import BuildIdCache.Proofs.Source.Matching
import BuildIdCache.Proofs.Source.SearchDirs
import BuildIdCache.Proofs.Source.Staged
import BuildIdCache.Proofs.Source.Stock
import BuildIdCache.Proofs.Source.Symbols
import BuildIdCache.Proofs.Source.Turns
import BuildIdCache.Proofs.Spared
import BuildIdCache.Proofs.Stripping
import BuildIdCache.Proofs.Text.Blank
import BuildIdCache.Proofs.Text.LaidOut
import BuildIdCache.Proofs.Text.Lines
import BuildIdCache.Proofs.Text.Lossy
import BuildIdCache.Proofs.Text.Order
import BuildIdCache.Proofs.Text.Utf8
import BuildIdCache.Proofs.Text.Word
import BuildIdCache.Proofs.Told
import BuildIdCache.Proofs.Trace
import BuildIdCache.Proofs.Trace.Apart
import BuildIdCache.Proofs.Trace.Blocks
import BuildIdCache.Proofs.Trace.Cursor
import BuildIdCache.Proofs.Trace.Dump
import BuildIdCache.Proofs.Trace.Kinds
import BuildIdCache.Proofs.World
import BuildIdCache.Readelf.Inspector
import BuildIdCache.Readelf.Output
import BuildIdCache.Required
import BuildIdCache.SortedMap
import BuildIdCache.Source.Device
import BuildIdCache.Source.Report
import BuildIdCache.Source.SearchDirs
import BuildIdCache.Stripping
import BuildIdCache.Text.Blank
import BuildIdCache.Text.Lines
import BuildIdCache.Text.Utf8
import BuildIdCache.Tool.Basic
import BuildIdCache.Tool.Scripted
import BuildIdCache.Trace.Discovery
import BuildIdCache.Trace.Reader
import BuildIdCache.Trace.Report
import BuildIdCache.Trace.Sample
import BuildIdCache.World
import BuildIdCache.Yaml.Cursor
import BuildIdCache.Yaml.Node
import BuildIdCache.Yaml.Scalar
import BuildIdCache.Yaml.Token
