import Dfajit.Lib.Words
import Dfajit.Lib.Traced
import Dfajit.Lib.LastWrite
import Dfajit.Lib.RunLength
import Dfajit.Lib.ResetRun
import Dfajit.Lib.ShortRun
import Dfajit.Lib.Suffix
import Dfajit.Lib.TextTree
import Dfajit.Lib.Numbering
import Dfajit.Lib.Moore
import Dfajit.Lib.Search
import Dfajit.Lib.X64
import Dfajit.Lib.Views
import Dfajit.Lib.Mapping
import Dfajit.Table
import Dfajit.TableWrites
import Dfajit.Ranges
import Dfajit.Codec
import Dfajit.HostileData
import Dfajit.Codegen
import Dfajit.TableScan
import Dfajit.EmittedCode
import Dfajit.JitRun
import Dfajit.Dfa
import Dfajit.Engines
import Dfajit.JitSafety
import Dfajit.BufferLaw
import Dfajit.Offsets
import Dfajit.Patterns
import Dfajit.Trie
import Dfajit.FailureLinks
import Dfajit.OutputLinks
import Dfajit.OutputChains
import Dfajit.DenseTable
import Dfajit.PatternScan
import Dfajit.Agreement
import Dfajit.PatternLimit
import Dfajit.AhoCorasick
import Dfajit.LinkSafety
import Dfajit.Literals
import Dfajit.RepeatedPatterns
import Dfajit.PatternOrder
import Dfajit.Regex
import Dfajit.RegexTable
import Dfajit.RegexAccepts
import Dfajit.RegexMatches
import Dfajit.RegexLiterals
import Dfajit.RegexStates
import Dfajit.Minimize
import Dfajit.Partition
import Dfajit.Splitting
import Dfajit.Quotient
import Dfajit.BuiltTables
import Dfajit.Minimization
import Dfajit.Alike
import Dfajit.AcceptFlags
import Dfajit.Outcomes
import Dfajit.Minimality
import Dfajit.BuildSteps
import Dfajit.Process
import Dfajit.ProcessRuns
import Dfajit.Occurrences
import Dfajit.Chunks
import Dfajit.MatchOrder
import Dfajit.MinimizeAgain
import Dfajit.Builders
import Dfajit.Inspection
import Dfajit.CallingConvention
import Dfajit.Refusals
import Dfajit.Decoded
import Dfajit.RegexScan
import Dfajit.ScanEquivalence
