import Pfsim.Machine.Stutter
import Pfsim.Fcfs
import Pfsim.IntervalTree.Search
import Pfsim.Memory.Freelist
import Pfsim.Paging.Fifo
import Pfsim.Paging.Lru
import Pfsim.Main.Irrelevance
import Pfsim.Main.Program
import Pfsim.Main.Sizes
import Pfsim.Simulator.Amortized
import Pfsim.Simulator.Boundaries
import Pfsim.Simulator.ColdMisses
import Pfsim.Simulator.Competitive
import Pfsim.Simulator.ClockRing
import Pfsim.Simulator.Disk
import Pfsim.Simulator.FastForward
import Pfsim.Simulator.Asserts
import Pfsim.Simulator.Faults
import Pfsim.Simulator.Frames
import Pfsim.Simulator.Inclusion
import Pfsim.Simulator.Preemption
import Pfsim.Simulator.Latency
import Pfsim.Simulator.Lifetime
import Pfsim.Simulator.Recency
import Pfsim.Simulator.Renaming
import Pfsim.Simulator.Residence
import Pfsim.Simulator.Scheduler
import Pfsim.Simulator.Sweep
import Pfsim.Simulator.Termination
import Pfsim.Simulator.Unfilled
import Pfsim.TraceParser.Acceptance
import Pfsim.Simulator.Accounting
import Pfsim.Simulator.Usage
