import SystemsProjects.Cow.Concurrent
import SystemsProjects.Cow.Copies
import SystemsProjects.Cow.Fault
import SystemsProjects.Cow.FirstTable
import SystemsProjects.Cow.Refinement
import SystemsProjects.Ext2.DirWalk
import SystemsProjects.Ext2.Length
import SystemsProjects.Fortune.Main
import SystemsProjects.Psort.Bytes
import SystemsProjects.Rpc.Bounds
import SystemsProjects.Rpc.Budget
import SystemsProjects.Rpc.Connections
import SystemsProjects.Rpc.Recovery
import SystemsProjects.Smash.Descriptors
import SystemsProjects.Smash.Loop
import SystemsProjects.Smash.Pipeline
import SystemsProjects.Stride.Family
import SystemsProjects.Stride.PassGap
import SystemsProjects.Stride.Starvation
import SystemsProjects.Xv6.Blocks
import SystemsProjects.Xv6.Files
import SystemsProjects.Xv6.GetProcState
import SystemsProjects.Xv6.Descriptors
import SystemsProjects.Xv6.Pipe
