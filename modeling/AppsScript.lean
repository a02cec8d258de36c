import AppsScript.Alias.Convention
import AppsScript.Alias.ProjectFile
import AppsScript.Alias.Resolve
import AppsScript.Alias.Target
import AppsScript.Build.Bundle
import AppsScript.Build.Failure
import AppsScript.Build.HostShape
import AppsScript.Build.Manifest
import AppsScript.Build.Prepare
import AppsScript.Build.Run
import AppsScript.CommandLine.Arguments
import AppsScript.CommandLine.Footprint
import AppsScript.CommandLine.LogFilter
import AppsScript.CommandLine.Report
import AppsScript.CommandLine.Run
import AppsScript.CommandLine.ValuePattern
import AppsScript.Config.Basic
import AppsScript.Config.External
import AppsScript.Config.LanguageLevel
import AppsScript.Decimal.Shortest
import AppsScript.Discovery.Empty
import AppsScript.Discovery.Entries
import AppsScript.Discovery.EntryName
import AppsScript.FileSystem.Basic
import AppsScript.FileSystem.Disk
import AppsScript.FileSystem.Key
import AppsScript.FileSystem.Memory
import AppsScript.Glob
import AppsScript.Json.Commented
import AppsScript.Json.Number
import AppsScript.Json.Token
import AppsScript.Json.Value
import AppsScript.Log
import AppsScript.Main
import AppsScript.Options.Decode
import AppsScript.Options.Settings
import AppsScript.OrderedMap
import AppsScript.Path.Basic
import AppsScript.Plugin.Basic
import AppsScript.Plugin.Host
import AppsScript.Plugin.Pipeline
import AppsScript.Plugin.Signature
import AppsScript.Scan
import AppsScript.Script.Arrow
import AppsScript.Script.Chunk
import AppsScript.Script.Logger
import AppsScript.Script.ModuleSyntax
import AppsScript.Script.Trigger
import AppsScript.Source.Comment
import AppsScript.Source.Expression
import AppsScript.Source.Lexicon
import AppsScript.Source.Nesting
import AppsScript.Text.Basic
import AppsScript.Text.Blank
import AppsScript.Text.Letter
import AppsScript.Text.Quoted
import AppsScript.Proofs.Editing
import AppsScript.Proofs.ModuleForms
import AppsScript.Proofs.BlankLines
import AppsScript.Proofs.ModuleLines
import AppsScript.Proofs.ModuleRemoval
import AppsScript.Proofs.ExportHeads
import AppsScript.Proofs.LoggerCalls
import AppsScript.Proofs.TriggerMarks
import AppsScript.Proofs.Guarantees
import AppsScript.Proofs.EntryNames
import AppsScript.Proofs.SourceEntries
import AppsScript.Proofs.Paths
import AppsScript.Proofs.Texts
import AppsScript.Proofs.Reading
import AppsScript.Proofs.ArrowBindings
import AppsScript.Proofs.DeclaredArrows
import AppsScript.Proofs.LineEdits
import AppsScript.Proofs.DeclaredLines
import AppsScript.Proofs.CutValues
import AppsScript.Proofs.AliasPrecedence
import AppsScript.Proofs.NestedBindings
import AppsScript.Proofs.SettledModules
import AppsScript.Proofs.RepeatedMarks
import AppsScript.Proofs.Continuations
import AppsScript.Proofs.SameLines
import AppsScript.Proofs.BindingReadings
import AppsScript.Proofs.OnePass
import AppsScript.Proofs.MarkedBindings
import AppsScript.Proofs.AdaptedModules
import AppsScript.Proofs.PipelineRuns
import AppsScript.Proofs.PreparedConfig
import AppsScript.Proofs.JsonTexts
import AppsScript.Proofs.CommentedJson
import AppsScript.Proofs.BindingValues
import AppsScript.Proofs.ContinuedValues
import AppsScript.Proofs.PreferredReadings
import AppsScript.Proofs.LineEndings
import AppsScript.Proofs.SpelledStatements
import AppsScript.Proofs.RemovalRounds
import AppsScript.Proofs.MarkedParts
import AppsScript.Proofs.WhiteSpace
import AppsScript.Proofs.CarriageReturns
import AppsScript.Proofs.BlankRuns
import AppsScript.Proofs.RepeatedRemoval
import AppsScript.Proofs.RedirectedCalls
import AppsScript.Proofs.StrippedComments
import AppsScript.Proofs.Keys
import AppsScript.Proofs.WalkedFiles
import AppsScript.Proofs.SearchedDirectories
import AppsScript.Proofs.NormalForms
import AppsScript.Proofs.AliasTargets
import AppsScript.Proofs.OrderedMaps
import AppsScript.Proofs.WildcardAliases
import AppsScript.Proofs.CopiedManifest
import AppsScript.Proofs.BuildRuns
import AppsScript.Proofs.DiskFiles
import AppsScript.Proofs.BuiltChunks
import AppsScript.Proofs.OptionValues
import AppsScript.Proofs.OptionTexts
import AppsScript.Proofs.SkippedComments
import AppsScript.Proofs.StrippedPrefixes
import AppsScript.Proofs.ByteLoops
import AppsScript.Proofs.BlockOffsets
