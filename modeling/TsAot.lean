import TsAot.Hir.Basic
import TsAot.Hir.IntegerLowering
import TsAot.Hir.ConstantFolding
import TsAot.Hir.DeadCode
import TsAot.Hir.DeadCodeWellFormed
import TsAot.Lib.Binary64
import TsAot.Lib.Binary32
import TsAot.Lib.Binary64Arithmetic
import TsAot.Lib.NearestDouble
import TsAot.Lib.Scanner
import TsAot.Lib.SeparatedDigits
import TsAot.Parser.Token
import TsAot.Parser.NumericLiteral
import TsAot.Parser.Lexer
import TsAot.Parser.Progress
import TsAot.Parser.Gaps
import TsAot.Parser.TokenStream
import TsAot.Parser.NumericScanner
import TsAot.Runtime.Strings.TextEncoding
import TsAot.Runtime.NativeArray.Model
import TsAot.Runtime.NativeArray.Layout
import TsAot.Runtime.NativeArray.Scrub
import TsAot.Runtime.NativeArray.Arena
import TsAot.Runtime.NativeArray.Runs
import TsAot.Runtime.NativeArray.Safety
import TsAot.Lib.Regex
import TsAot.Runtime.RegExp.Exec
import TsAot.Runtime.RegExp.Source
import TsAot.Runtime.Strings.CleanText
import TsAot.Url.Parts
import TsAot.Url.Reference
import TsAot.Url.Resolve
import TsAot.Url.SearchParams
import TsAot.Url.Url
import TsAot.Url.Resolution
import TsAot.Url.ParamsMultimap
import TsAot.Url.FileUrl
import TsAot.Url.Cut
import TsAot.Url.LegacyParse
import TsAot.Url.LegacyRoundTrip
import TsAot.Lib.OrderedMap
import TsAot.Lib.OrderedMultimap
import TsAot.Lib.StableSort
import TsAot.Lib.SortedBy
import TsAot.Lib.DepthFirst
import TsAot.Lib.CycleSearch
import TsAot.Hir.Inlining
import TsAot.Hir.InliningRounds
import TsAot.Hir.DeadCodePhis
import TsAot.Hir.DeadCodeBehaviour
import TsAot.Lib.LinearProbing
import TsAot.Runtime.FlatObject.Runs
import TsAot.Runtime.HashTable.Runs
import TsAot.Hir.InlineBoxing
import TsAot.Hir.NumericLowering
import TsAot.Hir.IntegerRanges
import TsAot.Hir.IntegerRangeBounds
import TsAot.Hir.IntegerRangeAnalysis
import TsAot.Hir.IntegerRangeRuns
import TsAot.Hir.IntegerRangeTransfer
import TsAot.Runtime.GC.NurseryRuns
import TsAot.Runtime.GC.FullSafety
import TsAot.Runtime.GC.Accounting
import TsAot.Runtime.GC.Lookup
import TsAot.Runtime.GC.WeakRegistry
import TsAot.Runtime.GC.MinorSafety
import TsAot.Runtime.GC.MinorGraph
import TsAot.Runtime.GC.Finalization
import TsAot.Runtime.StackMap.Bounds
import TsAot.Runtime.ExplicitMap.FastPaths
import TsAot.Runtime.HashTable.ForEach
import TsAot.Runtime.HashTable.Probes
import TsAot.Runtime.ExplicitMap.Coherence
import TsAot.Runtime.ExplicitMap.ForEach
import TsAot.Runtime.EventLoop.Timers
import TsAot.Runtime.EventLoop.Rooting
import TsAot.Runtime.EventLoop.Microtasks
import TsAot.Lib.Utf8
import TsAot.Lib.Utf16
import TsAot.Lib.Bytes
import TsAot.Lib.HexDigits
import TsAot.Lib.Gregorian
import TsAot.Lib.Int64
import TsAot.Lib.Decimal
import TsAot.Runtime.Date.Iso
import TsAot.Runtime.Date.CivilRange
import TsAot.Runtime.Date.MakeDate
import TsAot.Runtime.Temporal.DateDifference
import TsAot.Runtime.Temporal.DateAddition
import TsAot.Runtime.Temporal.DurationText
import TsAot.Runtime.Temporal.DurationGrammar
import TsAot.Runtime.Temporal.Overflow
import TsAot.Runtime.Temporal.DurationRange
import TsAot.Runtime.Temporal.DurationTotal
import TsAot.Runtime.Temporal.DurationAddition
import TsAot.Runtime.Temporal.DateTimeDifference
import TsAot.Runtime.Temporal.DaySplit
import TsAot.Runtime.Temporal.Instant
import TsAot.Runtime.Temporal.Rounding
import TsAot.Runtime.Temporal.DateRounding
import TsAot.Runtime.Temporal.DateObjects
import TsAot.Runtime.Temporal.ValidDates
import TsAot.Lib.HoleArray
import TsAot.Lib.LinearSearch
import TsAot.Runtime.TsArray.Model
import TsAot.Runtime.TsArray.Storage
import TsAot.Runtime.TsArray.Kinds
import TsAot.Runtime.TsArray.Search
import TsAot.Runtime.TsArray.Sort
import TsAot.Runtime.Strings.TsString
import TsAot.Runtime.Strings.StringDecoder
import TsAot.Runtime.Strings.ConsString
import TsAot.Runtime.Promise.ResolveOnce
import TsAot.Runtime.Promise.Reactions
import TsAot.Runtime.Buffer.Text
import TsAot.Runtime.Buffer.Base64Noise
import TsAot.Runtime.Buffer.Ranges
import TsAot.Runtime.Buffer.DataView
import TsAot.Runtime.Buffer.TypedArray
import TsAot.Runtime.Buffer.FromArray
import TsAot.Runtime.BigInt.MpInt
import TsAot.Runtime.BigInt.Arithmetic
import TsAot.Runtime.BigInt.Shifts
import TsAot.Runtime.BigInt.Parse
import TsAot.Runtime.GC.FinalizationRegistry
import TsAot.Runtime.Events.EventEmitter
import TsAot.Runtime.Events.ListenerOrder
import TsAot.Hir.DeadCodeFixpoint
