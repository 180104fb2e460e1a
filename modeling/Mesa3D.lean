import Mesa3D.Nir.DeadWriteVarsCorrect
import Mesa3D.Nir.LowerReturnsCorrect
import Mesa3D.Nir.RepairSsaDominance
import Mesa3D.Util.BlobReader
import Mesa3D.Glsl.TypeBlob
import Mesa3D.Brw.CompactCorrect
import Mesa3D.Nir.LargeConstantsCorrect
import Mesa3D.Util.VmaCorrect
import Mesa3D.Util.QueueHistoryCorrect
import Mesa3D.Util.SlabCorrect
import Mesa3D.Util.RegisterStuck
import Mesa3D.Util.RegisterPq
import Mesa3D.Util.HashTableOverflow
import Mesa3D.Util.HashTableU64
import Mesa3D.Util.HashSet
import Mesa3D.Util.BigMath
import Mesa3D.Util.Bitset
import Mesa3D.Util.RbTreeCorrect
import Mesa3D.Broadcom.QpuCorrect
import Mesa3D.Nir.DomFrontier
import Mesa3D.Nir.LoopAnalyze
import Mesa3D.Nir.LowerIndirectDerefs
import Mesa3D.Nir.GatherXfbInfo
import Mesa3D.Nir.LowerInt64
import Mesa3D.Nir.InstrSet
import Mesa3D.Nir.ParallelCopyCorrect
import Mesa3D.Util.RallocCorrect
import Mesa3D.Util.UVector
