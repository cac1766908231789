import WamrTest.Framework.Memory
import WamrTest.Framework.Words
import WamrTest.Framework.BitField
import WamrTest.Framework.MachineInt
import WamrTest.Framework.Circular
import WamrTest.Framework.Arena
import WamrTest.Framework.LinkedList
import WamrTest.Framework.SearchTree
import WamrTest.Framework.Run
import WamrTest.Framework.Fallible
import WamrTest.Framework.Fields
import WamrTest.Framework.Horner
import WamrTest.Framework.SqDist
import WamrTest.Framework.Utf8
import WamrTest.Framework.Encoding
import WamrTest.Framework.Wire
import WamrTest.Framework.Proto3
import WamrTest.Ems.Hmu
import WamrTest.Ems.Heap
import WamrTest.Ems.Nodes
import WamrTest.Ems.Kfc
import WamrTest.Ems.BestFit
import WamrTest.Ems.Chunks
import WamrTest.Ems.Integrity
import WamrTest.Ems.Alloc
import WamrTest.Ems.Free
import WamrTest.Ems.Client
import WamrTest.Ems.Dump
import WamrTest.Ems.Session
import WamrTest.Ems.DoubleFree
import WamrTest.Linear.Memory
import WamrTest.Linear.Placement
import WamrTest.Linear.Instantiate
import WamrTest.Linear.Growth
import WamrTest.Linear.AppHeap
import WamrTest.Linear.Globals
import WamrTest.Ring.Host
import WamrTest.Ring.Fifo
import WamrTest.Ring.Overrun
import WamrTest.Ring.Guest
import WamrTest.Ring.Bounds
import WamrTest.Ring.LifeCycle
import WamrTest.Ring.Reinit
import WamrTest.Linear.Start
import WamrTest.Udf.Messages
import WamrTest.Udf.Kernels
import WamrTest.Udf.InPlace
import WamrTest.Udf.Reference
import WamrTest.Udf.Entry
import WamrTest.Udf.Survive
import WamrTest.Udf.OwnType
import WamrTest.Udf.Route
import WamrTest.Udf.Sizes
import WamrTest.Udf.Leak
import WamrTest.Udf.UserId
import WamrTest.Udf.Hash
import WamrTest.Udf.Split
import WamrTest.Udf.ResultArray
import WamrTest.Udf.SplitSize
import WamrTest.Udf.Reversal
import WamrTest.Udf.Fibonacci
import WamrTest.Udf.Distance
import WamrTest.Bench.Elapsed
import WamrTest.Framework.Leb128
import WamrTest.Loader.Leb
import WamrTest.Loader.Sections
import WamrTest.Loader.MemorySection
import WamrTest.Interp.Leb
import WamrTest.Interp.Opcode
import WamrTest.Interp.FindBlock
import WamrTest.Interp.Operands
import WamrTest.Interp.Control
import WamrTest.Interp.Structured
import WamrTest.Interp.Simulation
import WamrTest.Interp.BrTable
