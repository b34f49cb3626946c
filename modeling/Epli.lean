import Epli.Lib.Pmem
import Epli.Lib.Multimap
import Epli.Lib.LinkedList
import Epli.Lib.Machine
import Epli.Lib.Partition
import Epli.Lib.BitScan
import Epli.Lib.Threads
import Epli.Lib.SlotArray
import Epli.Lib.Hindsight
import Epli.Lib.ExpSearch
import Epli.Lib.Gapped
import Epli.Lib.WordBits
import Epli.Nvm
import Epli.Blocks
import Epli.Entry
import Epli.Contents
import Epli.Tree
import Epli.Shape
import Epli.Stored
import Epli.Sound
import Epli.Map
import Epli.BulkLoad
import Epli.Client
import Epli.Reinsert
import Epli.Ordered
import Epli.Crash
import Epli.Recover
import Epli.Restart
import Epli.SplitCrash
import Epli.Durable
import Epli.RoundTrip
import Epli.Lifetime
import Epli.RecoverBuffer
import Epli.Bitmap
import Epli.Mirror
import Epli.BitmapSim
import Epli.BitmapRefine
import Epli.BitmapRecover
import Epli.BitmapSplit
import Epli.Fgpt
import Epli.Clht
import Epli.ClhtPairs
import Epli.ClhtResize
import Epli.ClhtShape
import Epli.ClhtLocks
import Epli.ClhtSlots
import Epli.ClhtRely
import Epli.ClhtPlaces
import Epli.ClhtLinear
import Epli.ClhtRefine
import Epli.ClhtShared
import Epli.ClhtProgress
import Epli.AlexNode
import Epli.AlexSearch
import Epli.AlexRefine
import Epli.AlexLeaves
import Epli.AlexTree
import Epli.SWTable
import Epli.Evict
import Epli.SizeControl
import Epli.History
import Epli.RecentKeys
import Epli.LeastRecent
import Epli.Cache
import Epli.Query
import Epli.RangeScan
import Epli.Scan
