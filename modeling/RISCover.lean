import RISCover.Collection.Index
import RISCover.Connection.Framing
import RISCover.Diff.Classes
import RISCover.Diff.Complete
import RISCover.Generator.Offline
import RISCover.Input.Independent
import RISCover.Input.JustSeqNum
import RISCover.Input.SparseValues
import RISCover.Repro.Reload
import RISCover.Repro.RoundTrip
import RISCover.Result.Buffer
import RISCover.Server.Barrier
import RISCover.Server.LostClient
import RISCover.Server.MultiClient
import RISCover.Server.Progress
import RISCover.Server.Tickets
import RISCover.Undoc.Monitor
import RISCover.Lib.MarkedRuns
import RISCover.Runner.Memory
import RISCover.Runner.MemScan
import RISCover.Runner.AutoMap
import RISCover.Result.PrintDiff
import RISCover.Result.ReportsDiff
import RISCover.Generator.Templates
import RISCover.Collection.Immediate
import RISCover.Collection.RandomInit
import RISCover.Lib.XorShift
import RISCover.Generator.PySharedRng
import RISCover.Lib.Turns
import RISCover.Undoc.FuzzScan
import RISCover.Repro.Template
import RISCover.Lib.Stdio
import RISCover.Undoc.Archive
import RISCover.Lib.Blocks
import RISCover.Lib.PyText
import RISCover.Cpuinfo.Lines
import RISCover.Cpuinfo.Client
import RISCover.Cpuinfo.Server
import RISCover.Cpuinfo.Agree
import RISCover.Generator.SetField
import RISCover.Lib.Scatter
import RISCover.Collection.Scatter
import RISCover.Collection.RandomRange
import RISCover.Collection.Remove
import RISCover.Result.HexDiff
import RISCover.Collection.LowBits
import RISCover.Collection.DisassembleBytes
import RISCover.Diff.Reported
import RISCover.Collection.OpcodeTable
import RISCover.Cpuinfo.Pinning
import RISCover.Server.Exchange
import RISCover.Server.Hello
import RISCover.Server.CoreMidr
import RISCover.Runner.Maps
import RISCover.Collection.TagFile
