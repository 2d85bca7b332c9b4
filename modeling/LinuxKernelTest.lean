import LinuxKernelTest.XArrayDangling
import LinuxKernelTest.XArrayNextFast
import LinuxKernelTest.XArrayPrevFast
import LinuxKernelTest.MemblockResize
import LinuxKernelTest.Math64
import LinuxKernelTest.RbtreeAugmented
import LinuxKernelTest.LoadAvg
import LinuxKernelTest.Cpupri
import LinuxKernelTest.DlLimit
import LinuxKernelTest.CfsBandwidth
import LinuxKernelTest.RtRuntime
import LinuxKernelTest.Kstrtox
import LinuxKernelTest.LogicPio
import LinuxKernelTest.Plist
import LinuxKernelTest.ListSort
import LinuxKernelTest.KlistRuns
import LinuxKernelTest.CrcShift
import LinuxKernelTest.HeapSort
import LinuxKernelTest.WaitQueueRuns
import LinuxKernelTest.DlRuntime
import LinuxKernelTest.FairGroups
import LinuxKernelTest.DlQueue
import LinuxKernelTest.Vsprintf
import LinuxKernelTest.TimeConversion
import LinuxKernelTest.CompareExchange
import LinuxKernelTest.Refcount
