import OsKernel.Acpi.Rhct
import OsKernel.Adt.AddrInsert
import OsKernel.Adt.BitmapHas
import OsKernel.Adt.RangeSets
import OsKernel.Boot.Init
import OsKernel.Boot.MarkCrucial
import OsKernel.Boot.Split
import OsKernel.Cpu.Spinlock
import OsKernel.Dev.Bar
import OsKernel.Lib.Bits
import OsKernel.Lib.CString
import OsKernel.Lib.CstrToNum
import OsKernel.Lib.IsoWeek
import OsKernel.Lib.PrintfConcat
import OsKernel.Lib.Stdlib
import OsKernel.Lib.Strftime
import OsKernel.Lib.Timespec
import OsKernel.Mm.AllocRuns
import OsKernel.Mm.AllocState
import OsKernel.Mm.CountRuns
import OsKernel.Mm.DelayedFree
import OsKernel.Mm.FlushRange
import OsKernel.Mm.LargeFree
import OsKernel.Mm.KmallocRuns
import OsKernel.Mm.Mmio
import OsKernel.Mm.WalkerBack
