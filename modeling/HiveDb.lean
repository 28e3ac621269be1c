import HiveDb.BPlusTree.Map
import HiveDb.BPlusTree.Shape
import HiveDb.BPlusTree.PoolTree
import HiveDb.BufferPool.Pins
import HiveDb.BufferPool.Tracking
import HiveDb.BPlusTree.Refinement
import HiveDb.BPlusTree.LeafChain
import HiveDb.BPlusTree.Attached
import HiveDb.BPlusTree.Atomicity
import HiveDb.BPlusTree.PinBalance
import HiveDb.BPlusTree.Searches
import HiveDb.BPlusTree.Layout
import HiveDb.BufferPool.HistoryReads
import HiveDb.Disk.FileSize
import HiveDb.Disk.DiskManagerMock
import HiveDb.Disk.RequestOrder
import HiveDb.Disk.Slotted
import HiveDb.Parser.Completeness
import HiveDb.Parser.Text
import HiveDb.Parser.StaticLambdas
import HiveDb.Parser.CutOff
import HiveDb.Parser.Spans
import HiveDb.Parser.Numbers
import HiveDb.Parser.Grouping
import HiveDb.Parser.ColumnDefinitions
import HiveDb.Parser.IntRange
import HiveDb.StorageEngine.Decoding
import HiveDb.StorageEngine.Selection
import HiveDb.StorageEngine.Creation
import HiveDb.StorageEngine.Varchars
import HiveDb.StorageEngine.Instantiation
import HiveDb.StorageEngine.Database
import HiveDb.BPlusTree.OrderedMap
import HiveDb.BPlusTree.Occupancy
import HiveDb.BufferPool.WorkingSet
import HiveDb.BufferPool.OverDisk
import HiveDb.BufferPool.OverMock
import HiveDb.BufferPool.OverScheduler
import HiveDb.Disk.Progress
