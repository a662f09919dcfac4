import OperatingSystems.Transition.Reachable
import OperatingSystems.Thread.Program
import OperatingSystems.Thread.Exclusion
import OperatingSystems.Thread.Atomic
import OperatingSystems.Thread.Refinement
import OperatingSystems.Thread.Timed
import OperatingSystems.Thread.Received
import OperatingSystems.Thread.Erasure
import OperatingSystems.Thread.Ranked
import OperatingSystems.Mailbox.Protocol
import OperatingSystems.Output.Text
import OperatingSystems.Team.Program
import OperatingSystems.Team.Invariant
import OperatingSystems.Team.Preservation
import OperatingSystems.Team.Results
import OperatingSystems.Team.Ending
import OperatingSystems.Shell.Machine
import OperatingSystems.Shell.Table
import OperatingSystems.Shell.Reaping
import OperatingSystems.Shell.Foreground
import OperatingSystems.Shell.Stealing
import OperatingSystems.Shell.Iteration
import OperatingSystems.Shell.Children
import OperatingSystems.Shell.Accounts
import OperatingSystems.Shell.Report
import OperatingSystems.Shell.Lines
import OperatingSystems.Shell.Numbers
import OperatingSystems.Shell.Argv
import OperatingSystems.Shell.Padding
import OperatingSystems.Shell.Scan
import OperatingSystems.Run.Shape
import OperatingSystems.Run.Words
import OperatingSystems.Run.Pieces
import OperatingSystems.Run.Ends
import OperatingSystems.TextScan.Scan
import OperatingSystems.TextScan.Strings
import OperatingSystems.TextScan.Buffered
import OperatingSystems.TextScan.Cuts
import OperatingSystems.TextScan.Worker
import OperatingSystems.TextScan.Chunks
import OperatingSystems.TextScan.Ranges
import OperatingSystems.TextScan.Merge
import OperatingSystems.TextScan.Counting
import OperatingSystems.TextScan.Deviation
import OperatingSystems.TextScan.Lengths
import OperatingSystems.TextScan.FileSize
import OperatingSystems.TextScan.Schedule
import OperatingSystems.TextScan.Main
import OperatingSystems.Addem.Total
import OperatingSystems.Checked.Sum
import OperatingSystems.Addem.Overflow
import OperatingSystems.Addem.Main
import OperatingSystems.Interval.Tiling
import OperatingSystems.Workers.Ranges
import OperatingSystems.Life.Board
import OperatingSystems.Life.Reader
import OperatingSystems.Life.Writes
import OperatingSystems.Life.Format
import OperatingSystems.Life.Neighbors
import OperatingSystems.Life.Reads
import OperatingSystems.Life.Threads
import OperatingSystems.Life.View
import OperatingSystems.Life.Counters
import OperatingSystems.Life.Effects
import OperatingSystems.Life.Invariant
import OperatingSystems.Life.Preservation
import OperatingSystems.Life.History
import OperatingSystems.Life.CommandLine
import OperatingSystems.Life.Grids
import OperatingSystems.Life.GridSteps
import OperatingSystems.Life.Stopping
import OperatingSystems.Life.Printing
import OperatingSystems.Life.Refinement
import OperatingSystems.Life.EarlyStop
import OperatingSystems.Life.Conway
import OperatingSystems.Life.Rounds
import OperatingSystems.Life.Termination
import OperatingSystems.Life.Blocked
import OperatingSystems.Life.Deadlock
import OperatingSystems.Life.Terminal
import OperatingSystems.Life.Transcript
import OperatingSystems.Life.Schedule
import OperatingSystems.Life.Leftover
import OperatingSystems.Life.Saved
import OperatingSystems.Life.Resume
import OperatingSystems.Life.Main
import OperatingSystems.Patch.Store
import OperatingSystems.Patch.Block
import OperatingSystems.Interceptor.Kernel
import OperatingSystems.Interceptor.Loading
import OperatingSystems.Interceptor.Search
import OperatingSystems.Interceptor.Plain
import OperatingSystems.Interceptor.Faults
import OperatingSystems.Interceptor.Preproject
import OperatingSystems.Interceptor.Order
import OperatingSystems.Interceptor.Misplaced
import OperatingSystems.Extreme.Running
import OperatingSystems.ProcessInfo.Syscall
import OperatingSystems.ProcessInfo.Children
import OperatingSystems.ProcessInfo.Times
import OperatingSystems.ProcessInfo.Family
import OperatingSystems.ProcessInfo.Callers
