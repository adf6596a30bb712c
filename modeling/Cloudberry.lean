import Cloudberry.Lib.MachineInt
import Cloudberry.Lib.BitField
import Cloudberry.Lib.ByteMem
import Cloudberry.Lib.ExceptBind
import Cloudberry.Lib.Bits
import Cloudberry.Lib.UniqueIndex
import Cloudberry.Lib.Pieces
import Cloudberry.AppendOnly.Header
import Cloudberry.AppendOnly.Format
import Cloudberry.AppendOnly.HeaderRoundTrip
import Cloudberry.AppendOnly.StorageWrite
import Cloudberry.VarBlock.Basic
import Cloudberry.VarBlock.Layout
import Cloudberry.VarBlock.Maker
import Cloudberry.Visimap.Bitstream
import Cloudberry.Visimap.Bitmapset
import Cloudberry.Visimap.BitmapCompression
import Cloudberry.Visimap.Entry
import Cloudberry.Visimap.Store
import Cloudberry.Visimap.Delete
import Cloudberry.AppendOnly.StorageRead
import Cloudberry.AppendOnly.Block
import Cloudberry.DatumStream.Int32Compress
import Cloudberry.DatumStream.Delta
import Cloudberry.Lib.Prune
import Cloudberry.Lib.Cycles
import Cloudberry.Lib.ArrayMap
import Cloudberry.Gdd.Detector
import Cloudberry.Gdd.Rules
import Cloudberry.Gdd.Invariant
import Cloudberry.Gdd.Reduce
import Cloudberry.Gdd.BreakDeadLock
import Cloudberry.Lib.BitString
import Cloudberry.Lib.WordBits
import Cloudberry.Bitmap.Hrl
import Cloudberry.Bitmap.Iterate
import Cloudberry.Bitmap.Scan
import Cloudberry.Bitmap.Catchup
import Cloudberry.Bitmap.Build
import Cloudberry.Bitmap.BuildSpec
import Cloudberry.AppendOnly.TupleId
import Cloudberry.Visimap.Scan
import Cloudberry.AppendOnly.BlockDirectory
import Cloudberry.Bitmap.Insert
import Cloudberry.Gdd.Runs
import Cloudberry.Cdb.DistributedSnapshot
import Cloudberry.Cdb.Hash
import Cloudberry.Bitmap.SetBit
import Cloudberry.Bitmap.Union
import Cloudberry.Lib.Scan
import Cloudberry.AppendOnly.WriteBlocks
import Cloudberry.AppendOnly.ReadBlocks
import Cloudberry.AppendOnly.ContentRoundTrip
import Cloudberry.DatumStream.Varlena
import Cloudberry.DatumStream.BitMap
import Cloudberry.DatumStream.OrigWrite
import Cloudberry.DatumStream.OrigRead
import Cloudberry.DatumStream.OrigRoundTrip
import Cloudberry.DatumStream.Column
import Cloudberry.DatumStream.ColumnRoundTrip
