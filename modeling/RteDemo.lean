import RteDemo.Malloc.Find
import RteDemo.Malloc.Serve
import RteDemo.Malloc.Socket
import RteDemo.Malloc.Init
import RteDemo.Malloc.RteMalloc
import RteDemo.Malloc.Run
import RteDemo.Malloc.StartPt
import RteDemo.Lib.LockProg
import RteDemo.Lib.Reach
import RteDemo.Lib.Queue
import RteDemo.Lib.Loop
import RteDemo.Lock.Order
import RteDemo.Lock.RwLock
import RteDemo.Lock.Recursive
import RteDemo.Lock.Tm
import RteDemo.Mempool.ListLock
import RteDemo.Ring.ListLife
import RteDemo.Ring.Ring
import RteDemo.Ring.Fifo
import RteDemo.Ring.Copy
import RteDemo.Ring.Mpmc
import RteDemo.Ring.Room
import RteDemo.Mempool.Cache
import RteDemo.Eal.Memseg
import RteDemo.Eal.NumPages
import RteDemo.Eal.HugepageSort
import RteDemo.Eal.Tailqs
import RteDemo.Eal.Memzone
import RteDemo.Eal.MemzoneViews
import RteDemo.Eal.MemzoneMax
import RteDemo.Eal.MemzoneTake
import RteDemo.Eal.Names
import RteDemo.Eal.Strsplit
import RteDemo.Eal.HugepageLocks
import RteDemo.Eal.Init
import RteDemo.Eal.Memcpy
import RteDemo.Eal.Lcore
import RteDemo.Eal.Timecounter
import RteDemo.Eal.TscFreq
import RteDemo.Ring.Create
import RteDemo.Malloc.Buckets
import RteDemo.Malloc.Layout
import RteDemo.Malloc.Wrap
import RteDemo.Malloc.Complete
import RteDemo.Malloc.Confluence
import RteDemo.Malloc.DoubleFree
import RteDemo.Malloc.HeapsOK
import RteDemo.Malloc.Isolation
import RteDemo.Malloc.Realloc
import RteDemo.Malloc.Move
import RteDemo.Mempool.CacheBounds
import RteDemo.Mempool.ObjSize
import RteDemo.Mempool.Spread
import RteDemo.Mempool.Populate
import RteDemo.Mempool.XmemSize
import RteDemo.Mempool.Conserve
import RteDemo.Mempool.Counts
import RteDemo.Mempool.ZoneNames
import RteDemo.Eal.MemzoneRun
import RteDemo.Malloc.Zeroed
import RteDemo.Malloc.Calls
import RteDemo.Eal.Launch
import RteDemo.Mempool.PopulateDefault
import RteDemo.Eal.KeptPages
import RteDemo.Ring.Life
import RteDemo.Eal.Remap
import RteDemo.Eal.Blocks
import RteDemo.Eal.Handover
