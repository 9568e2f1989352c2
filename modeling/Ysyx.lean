import Ysyx.Lib.Bytes
import Ysyx.Lib.Outcome
import Ysyx.Lib.Rv32
import Ysyx.Lib.Rv32Fields
import Ysyx.Lib.Sync
import Ysyx.Lib.Chain
import Ysyx.Lib.Forest
import Ysyx.Nemu.Memory
import Ysyx.Nemu.Pattern
import Ysyx.Nemu.Machine
import Ysyx.Nemu.Inst
import Ysyx.Nemu.Decode
import Ysyx.Nemu.InstCorrect
import Ysyx.Npc.Core
import Ysyx.Npc.Phase
import Ysyx.Npc.Protocol
import Ysyx.Npc.Csr
import Ysyx.Npc.Bus
import Ysyx.Npc.WriteBack
import Ysyx.Npc.Refine
import Ysyx.Am.VmeNative
import Ysyx.Am.VmeNativeList
import Ysyx.Am.VmeNativeRuns
import Ysyx.Am.VmeX86
import Ysyx.Am.VmeX86Tree
import Ysyx.Am.VmeX86Walk
import Ysyx.Am.VmeX86Runs
import Ysyx.Lib.OpPrecedence
import Ysyx.Lib.Regex
import Ysyx.Nemu.Expr
import Ysyx.Nemu.ExprSplit
import Ysyx.Nemu.ExprCorrect
import Ysyx.Lib.Rv32M
import Ysyx.Nemu.MulDiv
import Ysyx.Nemu.Watchpoint
import Ysyx.Nemu.WatchpointPool
import Ysyx.Nemu.Difftest
import Ysyx.Nemu.CpuExec
import Ysyx.Nemu.Iteration
import Ysyx.Nemu.WatchStep
import Ysyx.Nemu.Sticky
import Ysyx.Nemu.DifftestCorrect
import Ysyx.Nemu.WatchStop
import Ysyx.Nemu.MemBounds
import Ysyx.Nemu.Mmio
import Ysyx.Nemu.MmioRoute
import Ysyx.Nemu.Lexer
import Ysyx.Nemu.Literal
import Ysyx.Nemu.Tokenizer
import Ysyx.Nemu.TestExpr
import Ysyx.Nemu.Robust
import Ysyx.Lib.Words
import Ysyx.Lib.Align
import Ysyx.Lib.Region
import Ysyx.Lib.Ring
import Ysyx.Nemu.GuestCode
import Ysyx.Am.Cte
import Ysyx.Am.CteTrap
import Ysyx.Am.CteSwitch
import Ysyx.Am.CteRuns
import Ysyx.Klib.Copy
import Ysyx.Klib.Compare
import Ysyx.Klib.Stdio
import Ysyx.Klib.Malloc
import Ysyx.Nemu.Iringbuf
import Ysyx.Nemu.Stepping
import Ysyx.Nemu.MemLaw
import Ysyx.Nemu.MapRegistry
import Ysyx.Nemu.MapIsolation
import Ysyx.Lib.Ternary
import Ysyx.Nemu.PatternMatch
import Ysyx.Klib.StdioScan
import Ysyx.Nemu.Device
import Ysyx.Nemu.Timer
import Ysyx.Lib.RingQueue
import Ysyx.Nemu.Keyboard
import Ysyx.Lib.File
import Ysyx.Nemu.Sdcard
import Ysyx.Am.NativeAudio
import Ysyx.Lib.Loop
import Ysyx.Am.Gpu
import Ysyx.Lib.ZeroEnded
import Ysyx.Nemu.Ftrace
import Ysyx.Lib.Rv64
import Ysyx.Lib.Division
import Ysyx.Lib.Halves
import Ysyx.Nemu.Inst64
import Ysyx.Nemu.Decode64
import Ysyx.Nemu.Memory64
import Ysyx.Nemu.Agree64
import Ysyx.Nemu.InstCorrect64
import Ysyx.Lib.Leads
import Ysyx.Lib.Rv32Code
import Ysyx.Lib.ShiftArith
import Ysyx.Nemu.GuestFlow
import Ysyx.Am.Libgcc
import Ysyx.Am.LibgccCalls
import Ysyx.Lib.ZeroCount
import Ysyx.Klib.Int64
import Ysyx.Klib.Int64Counts
import Ysyx.Klib.Int64Divide
import Ysyx.Klib.Int64Signed
import Ysyx.Am.LibgccDouble
import Ysyx.Lib.Rsp
import Ysyx.Nemu.GdbProtocol
import Ysyx.Nemu.GdbPackets
import Ysyx.Nemu.GdbHost
import Ysyx.Lib.RspStub
import Ysyx.Nemu.GdbSession
import Ysyx.Lib.Lockstep
import Ysyx.Nemu.DifftestRef
import Ysyx.Nemu.GuestPair
import Ysyx.Nemu.DifftestSelf
import Ysyx.Lib.Fuel
import Ysyx.Kconfig.Expr
import Ysyx.Kconfig.Value
import Ysyx.Kconfig.Transform
import Ysyx.Kconfig.Equal
import Ysyx.Kconfig.Join
import Ysyx.Kconfig.Dups
import Ysyx.Kconfig.Menu
import Ysyx.Kconfig.Table
import Ysyx.Kconfig.Confdata
