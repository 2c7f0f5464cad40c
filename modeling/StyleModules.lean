import StyleModules.Build.Basic
import StyleModules.Build.Error
import StyleModules.Build.Files
import StyleModules.CommandLine
import StyleModules.Disk.Basic
import StyleModules.Interface
import StyleModules.Json.Basic
import StyleModules.Json.Parser
import StyleModules.Main
import StyleModules.Module.Cache
import StyleModules.Module.Error
import StyleModules.Module.Event
import StyleModules.Module.Link
import StyleModules.Module.Load
import StyleModules.Module.Ref
import StyleModules.Options.Basic
import StyleModules.Options.Config
import StyleModules.Pass.Animation
import StyleModules.Pass.Error
import StyleModules.Pass.FromClause
import StyleModules.Pass.ImportedNames
import StyleModules.Pass.LocalMark
import StyleModules.Pass.LocalNames
import StyleModules.Pass.NamedValues
import StyleModules.Pass.ScopedNames
import StyleModules.Path
import StyleModules.Proofs.BuildOutcome
import StyleModules.Proofs.CachedClient
import StyleModules.Proofs.ClosedText
import StyleModules.Proofs.ComposedExports
import StyleModules.Proofs.ComposedWords
import StyleModules.Proofs.CompositionList
import StyleModules.Proofs.DiskChanges
import StyleModules.Proofs.EscapedNames
import StyleModules.Proofs.ImportAliases
import StyleModules.Proofs.ImportGraph
import StyleModules.Proofs.InputWalk
import StyleModules.Proofs.InterfaceBlocks
import StyleModules.Proofs.LastBinding
import StyleModules.Proofs.LinkedExports
import StyleModules.Proofs.MemoLoading
import StyleModules.Proofs.NormalPath
import StyleModules.Proofs.PlainLoading
import StyleModules.Proofs.PreparedSheet
import StyleModules.Proofs.PrintBack
import StyleModules.Proofs.ProcessedOnce
import StyleModules.Proofs.ReadBack
import StyleModules.Proofs.ScopedLists
import StyleModules.Proofs.ScopedSelector
import StyleModules.Proofs.SelectorGrammar
import StyleModules.Proofs.Splitting
import StyleModules.Proofs.StalledBuild
import StyleModules.Proofs.StalledLoads
import StyleModules.Proofs.SurvivingCopies
import StyleModules.Proofs.SymbolFusion
import StyleModules.Proofs.TableLaws
import StyleModules.Proofs.TopBlock
import StyleModules.Proofs.ValueSubstitution
import StyleModules.QualifiedName
import StyleModules.Selector.Local
import StyleModules.Selector.Stretch
import StyleModules.Sheet.Basic
import StyleModules.Sheet.Edit
import StyleModules.Sheet.Parser
import StyleModules.Sheet.Printer
import StyleModules.Sheet.Statement
import StyleModules.Sheet.Symbols
import StyleModules.SourceMap.Base64
import StyleModules.SourceMap.Mappings
import StyleModules.SourceMap.Position
import StyleModules.Symbol
import StyleModules.Table
import StyleModules.Text.Alphanumeric
import StyleModules.Text.Basic
import StyleModules.Text.Encoding
import StyleModules.Text.Quoted
import StyleModules.Text.Utf8
import StyleModules.Proofs.LineIndex
import StyleModules.Proofs.MapDecoding
import StyleModules.Proofs.PrintedMarks
import StyleModules.Proofs.PlacedNodes
import StyleModules.Proofs.SourceMaps
import StyleModules.Proofs.CacheRuns
import StyleModules.Proofs.RestyledSheet
import StyleModules.Proofs.CommentedSelector
import StyleModules.Proofs.LeftCompositions
import StyleModules.Proofs.ExportLists
import StyleModules.Module.Linking
import StyleModules.Proofs.AtomicLinking
import StyleModules.Proofs.LosslessImports
import StyleModules.Proofs.LinkedAnimations
import StyleModules.Proofs.InsertedMarks
import StyleModules.Proofs.AnimationWords
import StyleModules.Symbol.Splice
import StyleModules.Sheet.Splice
import StyleModules.Proofs.SymbolTargets
import StyleModules.Proofs.SweptNodes
import StyleModules.Proofs.TiledSpans
import StyleModules.Proofs.ReadFurther
import StyleModules.Proofs.JoinedSheets
import StyleModules.Proofs.QualifiedWords
import StyleModules.Proofs.RelativePath
import StyleModules.Proofs.DistinctAliases
import StyleModules.Sheet.ByteReader
import StyleModules.Proofs.ByteOffsets
import StyleModules.Proofs.ByteScanning
import StyleModules.Proofs.ByteReading
