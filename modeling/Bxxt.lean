import Bxxt.Lib.ByteLayout
import Bxxt.Lib.PagedBytes
import Bxxt.Lib.PatternSearch
import Bxxt.Lib.SortedChain
import Bxxt.Lib.TextScan
import Bxxt.Lib.LengthSuffix
import Bxxt.Lib.KeyedLines
import Bxxt.Memory
import Bxxt.BootHeader
import Bxxt.DtbScan
import Bxxt.BootImage
import Bxxt.Metadata
import Bxxt.Directory
import Bxxt.BootUnpack
import Bxxt.BootPack
import Bxxt.Hashtab
import Bxxt.Ebitmap
import Bxxt.Avtab
import Bxxt.Proofs.MetadataRoundTrip
import Bxxt.Proofs.ReaderLayout
import Bxxt.Proofs.WriterLayout
import Bxxt.Proofs.ImageLayout
import Bxxt.Proofs.PackedImage
import Bxxt.Proofs.RecoveryDtbo
import Bxxt.Proofs.PackLimits
import Bxxt.Proofs.ImageBounds
import Bxxt.Proofs.SignatureCheck
import Bxxt.Proofs.SignedSections
import Bxxt.Proofs.DtbCoverage
import Bxxt.Proofs.UnpackedFiles
import Bxxt.Proofs.DtbKept
import Bxxt.Proofs.KernelTrees
import Bxxt.Proofs.Recompression
import Bxxt.Policydb
import Bxxt.PolicyImage
import Bxxt.Sepol
import Bxxt.Proofs.SymbolIndex
import Bxxt.Proofs.RoleCaches
import Bxxt.Proofs.PolicyLoad
import Bxxt.Proofs.RuleEdits
import Bxxt.Proofs.RuleFrame
import Bxxt.Proofs.StarPermissions
import Bxxt.Proofs.TypeCreation
import Bxxt.Lib.ScanFormat
import Bxxt.Lib.TracedRun
import Bxxt.Lib.MaskUnion
import Bxxt.Lib.FieldStore
import Bxxt.Lib.EventLog
import Bxxt.AccessVector
import Bxxt.HeaderMemory
import Bxxt.InitLog
import Bxxt.Newc
import Bxxt.Cpio
import Bxxt.Proofs.Statements
import Bxxt.Proofs.StatementGrammar
import Bxxt.Proofs.NamedPolicy
import Bxxt.Proofs.StatementNames
import Bxxt.Proofs.StatementRuns
import Bxxt.Proofs.AttributeMaps
import Bxxt.Proofs.CreatedMaps
import Bxxt.Proofs.AccessDecisions
import Bxxt.Proofs.DisallowedAccess
import Bxxt.Proofs.AllowedAccess
import Bxxt.Proofs.ExtractedInside
import Bxxt.Proofs.ExtractionEnds
import Bxxt.Proofs.ExtractedTree
import Bxxt.Proofs.ExtractedEntry
import Bxxt.Proofs.LinkedFiles
import Bxxt.Proofs.FailedEdit
import Bxxt.Proofs.SavedPolicy
import Bxxt.Proofs.ScanWalk
import Bxxt.Proofs.ScanProgress
import Bxxt.Proofs.ScanRecords
import Bxxt.Proofs.TableRoom
import Bxxt.Proofs.PadTrim
import Bxxt.Proofs.WideFields
import Bxxt.Proofs.HeaderStrings
import Bxxt.Proofs.OwnLines
import Bxxt.Proofs.HeaderLines
import Bxxt.Proofs.LimitOrder
import Bxxt.Proofs.NewcStream
import Bxxt.Proofs.ArchiveComplete
import Bxxt.Proofs.ArchiveOrder
import Bxxt.Proofs.TypedPatch
import Bxxt.Proofs.MapLookup
import Bxxt.Proofs.PropertyRecord
import Bxxt.Proofs.LabelSymbols
import Bxxt.Proofs.References
import Bxxt.Proofs.BlobRoundTrip
import Bxxt.Proofs.BlobFile
import Bxxt.Proofs.Sha1Stream
import Bxxt.Proofs.RamdiskRoundTrip
import Bxxt.DtParser
import Bxxt.Proofs.ParsedSource
import Bxxt.Lib.ParseRuns
import Bxxt.Proofs.ParserRuns
