import Egg.Dispatch.Visibility
import Egg.Evaluation.NotUnderstood
import Egg.Evaluation.NonLocalReturn
import Egg.Process.Switch
import Egg.Evaluation.HomeReturn
import Egg.Evaluation.Callback
import Egg.Treecode.Width
import Egg.Unicode.RoundTrip
import Egg.Arithmetic.Exactness
import Egg.Memory.SegmentFile
import Egg.Memory.Allocation
import Egg.Process.Unwinding
import Egg.Collection.Refinement
import Egg.Linearizer.Linearizer
import Egg.Linearizer.StackDepth
import Egg.Classes.Agreement
import Egg.Memory.SegmentRoundTrip
import Egg.Arithmetic.NumberEquality
import Egg.Data.Bitwise
import Egg.Arithmetic.BitShift
import Egg.Arithmetic.Division
import Egg.Collector.LargeSpaces
import Egg.Memory.IndexedAccess
import Egg.Collector.WeakContainers
import Egg.Collector.Forwarders
import Egg.Collector.Evacuation
import Egg.Dispatch.CacheRuns
import Egg.Data.Fuel
import Egg.Tracing.G1GC
import Egg.Evaluation.StackRoom
import Egg.Evaluation.StackBounds
import Egg.Tracing.Marking
import Egg.Tracing.Invariant
import Egg.Tracing.Scanning
import Egg.Tracing.Closure
import Egg.Tracing.Ephemerons
import Egg.Tracing.Fixpoint
import Egg.Tracing.Allocation
import Egg.Tracing.Relocation
import Egg.Tracing.DictionaryNew
import Egg.Collection.OrderedRuns
import Egg.Collection.Splice
import Egg.Collection.SortedRuns
import Egg.Collection.Interval
import Egg.Arithmetic.QuotientExactness
import Egg.Arithmetic.SquareRootCycles
import Egg.Optimizing.DominanceFrontiers
import Egg.Optimizing.NaturalLoops
import Egg.Optimizing.LivenessAnalysis
import Egg.Optimizing.ConventionalSSA
import Egg.Parser.ByteArrayLiteral
import Egg.Compiler.MethodFormat
import Egg.Bootstrap.ReaderTermination
import Egg.Bootstrap.MethodInstallation
import Egg.Bootstrap.InstalledMethods
import Egg.Bootstrap.ConvertedMethods
import Egg.Optimizing.ParallelCopies
import Egg.Marshalling.FieldRoundTrip
import Egg.Rational.Number
import Egg.Rational.TrueFraction
import Egg.Numerals.RadixPrinting
import Egg.Numerals.NumberParser
import Egg.Numerals.RadixRoundTrip
import Egg.Rational.ScaledDecimal
import Egg.Rational.ScaledArithmetic
import Egg.Rational.ScaledPrinting
import Egg.Rational.ScaledExactness
import Egg.Symbols.SymbolProvider
import Egg.Data.Occurrences
import Egg.Strings.SubstringSearch
import Egg.Strings.SubstringExactness
import Egg.Streams.ReadStream
import Egg.Streams.UpToAll
import Egg.Streams.DelimiterExactness
import Egg.Data.LittleEndian
import Egg.Streams.WriteStream
import Egg.Streams.HeldCodes
import Egg.Streams.WritingRuns
import Egg.Streams.MarshallingExactness
import Egg.Collection.HybridSorted
import Egg.Data.Outcomes
import Egg.Data.StructuredEffects
import Egg.Linearizer.TreeMeaning
import Egg.Linearizer.OperationMeaning
import Egg.Linearizer.Translation
import Egg.Linearizer.TranslatedMessages
import Egg.Linearizer.KeptOperands
import Egg.Linearizer.MeaningPreserved
import Egg.Strings.StringPattern
import Egg.Strings.PatternMeaning
import Egg.Strings.PatternExactness
import Egg.Collection.LinkedCollection
import Egg.Collection.LinkedRuns
