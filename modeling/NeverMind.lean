import NeverMind.Verification.Vmm.Consistency
import NeverMind.Verification.Proc.Fairness
import NeverMind.Verification.Net.TcpIsolation
import NeverMind.Verification.Net.TcpStream
import NeverMind.Verification.Proc.Running
import NeverMind.Verification.Proc.RoundRobin
import NeverMind.Verification.Net.PortTables
import NeverMind.Verification.Net.EphemeralPorts
import NeverMind.Verification.Net.ArpCache
import NeverMind.Verification.Net.Frames
import NeverMind.Verification.Fs.Flags
import NeverMind.Verification.Boot.Dereferences
import NeverMind.Verification.Pmm.TopOfMemory
import NeverMind.Verification.Pmm.BitmapPlacement
import NeverMind.Verification.Vmm.CleanFailure
import NeverMind.Verification.Vmm.Teardown
import NeverMind.Verification.Kheap.Alignment
import NeverMind.Verification.Fs.FailedOpens
import NeverMind.Verification.Net.Lengths
import NeverMind.Verification.Net.UdpOrder
import NeverMind.Verification.Irq.Refusals
import NeverMind.Verification.Klog
import NeverMind.Verification.Net.Rollback
import NeverMind.Verification.Shell.Scripts
import NeverMind.Verification.Shell.Leaks
import NeverMind.Verification.Shell.Limits
import NeverMind.Verification.Shell.Redirection
import NeverMind.Verification.Console.Report
import NeverMind.Verification.Console.Screen
import NeverMind.Verification.Fs.Overruns
import NeverMind.Verification.Irq.Unregistering
import NeverMind.Verification.Net.Interleaving
import NeverMind.Verification.Net.Statistics
import NeverMind.Verification.Pmm.HostDouble
import NeverMind.Verification.Proc.Descriptors
import NeverMind.Verification.Proc.Dispatch
import NeverMind.Verification.Proc.FirstContext
import NeverMind.Verification.Proc.Reaping
