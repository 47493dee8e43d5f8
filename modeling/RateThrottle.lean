import RateThrottle.Library.Mealy
import RateThrottle.Library.Recency
import RateThrottle.Library.LruStore
import RateThrottle.Library.Monitor
import RateThrottle.Library.KeyedRun
import RateThrottle.Support.Bytes
import RateThrottle.CachePro.LRUCache
import RateThrottle.RateLimiter.Basic
import RateThrottle.RateLimiter.Refinement
import RateThrottle.RateLimiter.Shadow
import RateThrottle.RateLimiter.Denial
import RateThrottle.RateLimiter.Burst
import RateThrottle.RateLimiter.LimitMonotone
import RateThrottle.RateLimiter.Resident
import RateThrottle.RateLimiter.DeniedCalls
import RateThrottle.RateLimiter.Concurrency
import RateThrottle.RateLimiter.OutOfOrder
import RateThrottle.RateLimiter.TimeArithmetic
import RateThrottle.RateLimiter.Capacity
import RateThrottle.TestRunner.Macros
import RateThrottle.TestRunner.Main
import RateThrottle.Library.ExtendedRat
import RateThrottle.Regression.Comparison
import RateThrottle.Regression.Results
import RateThrottle.Library.Json
import RateThrottle.Regression.Counterparts
import RateThrottle.Library.JsonLex
import RateThrottle.Benchmarks.Export
import RateThrottle.Regression.Snapshot
import RateThrottle.Regression.Google
import RateThrottle.RateLimiter.StoreHistory
import RateThrottle.Library.Champion
import RateThrottle.Library.IStream
import RateThrottle.Regression.Baselines
import RateThrottle.Library.Adjacent
import RateThrottle.Regression.Methods
import RateThrottle.Library.Pattern
import RateThrottle.Scripts.Python
import RateThrottle.Scripts.UpdatePackageFiles
import RateThrottle.Scripts.FailedBump
import RateThrottle.Library.CMake
import RateThrottle.Scripts.ProjectVersion
import RateThrottle.Scripts.PortfilePins
import RateThrottle.Scripts.CompleteBump
import RateThrottle.TestRunner.Summary
import RateThrottle.Regression.LetterGroups
import RateThrottle.Regression.MarkdownReport
import RateThrottle.Library.Utf8
import RateThrottle.Regression.Cells
import RateThrottle.TestRunner.Registry
import RateThrottle.TestRunner.Selection
import RateThrottle.RateLimiter.Throughput
import RateThrottle.RateLimiter.Isolation
import RateThrottle.RateLimiter.Linearizability
import RateThrottle.Fuzz.Harness
import RateThrottle.Benchmarks.Tables
import RateThrottle.Benchmarks.Main
import RateThrottle.Library.JsonText
import RateThrottle.Regression.Export
import RateThrottle.Regression.Tables
import RateThrottle.Regression.Main
import RateThrottle.Regression.Pipeline
import RateThrottle.Library.Rewriting
import RateThrottle.Scripts.Rerun
import RateThrottle.Examples.Main
import RateThrottle.Examples.Runs
import RateThrottle.Regression.Shorthands
import RateThrottle.Regression.GoogleMain
import RateThrottle.Library.Resumption
import RateThrottle.Scripts.Resume
