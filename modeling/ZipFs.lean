import ZipFs.Lib.Search
import ZipFs.Lib.Probe
import ZipFs.Index.Basic
import ZipFs.Index.Path
import ZipFs.Index.Intern
import ZipFs.Index.Build
import ZipFs.Index.InternProof
import ZipFs.Index.Tree
import ZipFs.Index.BuildProof
import ZipFs.Index.AddProof
import ZipFs.Index.Steps
import ZipFs.Lib.Group
import ZipFs.Lib.Queue
import ZipFs.Index.GroupProof
import ZipFs.Index.FinishProof
import ZipFs.Index.Lookup
import ZipFs.Index.Invariant
import ZipFs.Index.Memo
import ZipFs.Index.Closure
import ZipFs.Index.Stats
import ZipFs.Index.Records
import ZipFs.Index.Clash
import ZipFs.Index.Names
import ZipFs.Index.Time
import ZipFs.Index.Implied
import ZipFs.Index.Order
import ZipFs.Index.Rank
import ZipFs.Index.Fits
import ZipFs.Index.Limits
import ZipFs.Index.Interned
import ZipFs.Lib.Prog
import ZipFs.Lib.Threads
import ZipFs.Lib.Logic
import ZipFs.Lib.Trace
import ZipFs.Lib.Order
import ZipFs.Lib.Extend
import ZipFs.Lib.Discipline
import ZipFs.Lib.Ledger
import ZipFs.Mount.Codec
import ZipFs.Mount.World
import ZipFs.Mount.Guard
import ZipFs.Mount.Decode
import ZipFs.Mount.Fs
import ZipFs.Mount.Sound
import ZipFs.Mount.Tracker
import ZipFs.Mount.Parts
import ZipFs.Mount.Calls
import ZipFs.Mount.Invariant
import ZipFs.Mount.GuardProof
import ZipFs.Mount.DecodeProof
import ZipFs.Mount.Pieces
import ZipFs.Mount.FsProof
import ZipFs.Mount.Sample
import ZipFs.Mount.Runs
import ZipFs.Mount.Progress
import ZipFs.Mount.Truncation
import ZipFs.Mount.Stale
import ZipFs.Mount.Handles
import ZipFs.Mount.Reset
import ZipFs.Mount.Refusal
import ZipFs.Mount.Verdict
import ZipFs.Mount.Budget
import ZipFs.Mount.BudgetProof
import ZipFs.Mount.BudgetRuns
import ZipFs.Cli.Options
import ZipFs.Cli.Syslog
import ZipFs.Cli.Daemon
import ZipFs.Cli.DaemonProof
import ZipFs.Cli.Handshake
import ZipFs.Cli.Datagrams
import ZipFs.Cli.Dropped
import ZipFs.Cli.Reported
import ZipFs.Lib.Paging
import ZipFs.Mount.Readdir
import ZipFs.Mount.Answers
import ZipFs.Mount.Source
import ZipFs.Mount.Ends
import ZipFs.Mount.Waits
import ZipFs.Mount.Kept
import ZipFs.Mount.Readlink
import ZipFs.Mount.Extract
