import BanglaSource.Text
import BanglaSource.Text.Blank
import BanglaSource.Script
import BanglaSource.Script.Canonical
import BanglaSource.Span
import BanglaSource.SourceFile
import BanglaSource.Token
import BanglaSource.Token.Literal
import BanglaSource.Token.Lexer
import BanglaSource.Keyword.Category
import BanglaSource.Keyword
import BanglaSource.Identifier.Vocabulary
import BanglaSource.Identifier.Reserved
import BanglaSource.Identifier.Grapheme
import BanglaSource.Identifier.Cluster
import BanglaSource.Identifier
import BanglaSource.Target
import BanglaSource.Diagnostic
import BanglaSource.Diagnostic.Report
import BanglaSource.Validation
import BanglaSource.LineStats
import BanglaSource.Assoc
import BanglaSource.Json
import BanglaSource.Decimal
import BanglaSource.Json.Printer
import BanglaSource.Json.Numeral
import BanglaSource.Json.Tree
import BanglaSource.Json.Record
import BanglaSource.Sha256
import BanglaSource.ContentKey
import BanglaSource.Options
import BanglaSource.Cache.Entry
import BanglaSource.Cache.Memory
import BanglaSource.Cache.Directory
import BanglaSource.Format.Entry
import BanglaSource.Cache.Disk
import BanglaSource.Cache.Event
import BanglaSource.Cache
import BanglaSource.Backend
import BanglaSource.Failure
import BanglaSource.Pipeline
import BanglaSource.Session
import BanglaSource.Format.Position
import BanglaSource.Format.Diagnostic
import BanglaSource.Format.Statistics
import BanglaSource.Format.Options
import BanglaSource.Proofs.Characters
import BanglaSource.Proofs.Cuts
import BanglaSource.Proofs.CacheEntries
import BanglaSource.Proofs.CacheTiers
import BanglaSource.Proofs.JsonEquality
import BanglaSource.Proofs.JsonUnambiguity
import BanglaSource.Proofs.Identifiers
import BanglaSource.Proofs.Literals
import BanglaSource.Proofs.Relexing
import BanglaSource.Proofs.Spelling
import BanglaSource.Proofs.Respelling
import BanglaSource.Proofs.TargetSpelling
import BanglaSource.Proofs.TargetLiterals
import BanglaSource.Proofs.Transparency
import BanglaSource.Proofs.ContentKeys
import BanglaSource.Proofs.CacheCoherence
import BanglaSource.Proofs.CacheRefinement
import BanglaSource.Proofs.PatternGrammar
import BanglaSource.Proofs.ValuePosition
import BanglaSource.Proofs.LexicalGrammar
import BanglaSource.Proofs.LineIndex
import BanglaSource.Proofs.TargetLines
import BanglaSource.Proofs.JsonDecoding
import BanglaSource.Proofs.FormatRoundTrip
import BanglaSource.Proofs.SessionRuns
import BanglaSource.Proofs.Memoization
import BanglaSource.Proofs.TargetAlphabet
import BanglaSource.Proofs.TargetIdempotence
import BanglaSource.Proofs.ClusterUnits
import BanglaSource.Proofs.FragmentFilling
import BanglaSource.Proofs.PaddedWords
import BanglaSource.Proofs.BracketWords
import BanglaSource.Proofs.BracketFindings
import BanglaSource.Proofs.TokenSpans
import BanglaSource.Proofs.LineCounts
import BanglaSource.Proofs.FindingPlaces
import BanglaSource.Proofs.MemoryEviction
import BanglaSource.Proofs.DiskWrites
import BanglaSource.Proofs.Invalidation
import BanglaSource.Proofs.LineBytes
import BanglaSource.Proofs.Failures
import BanglaSource.Proofs.Bypass
import BanglaSource.Proofs.LineLookup
import BanglaSource.Proofs.ClusterIntervals
