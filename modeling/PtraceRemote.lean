import PtraceRemote.Bitmap
import PtraceRemote.Basic
import PtraceRemote.FdTable
import PtraceRemote.FdTableInv
import PtraceRemote.FdTableFork
import PtraceRemote.FdRemote
import PtraceRemote.FdRun
import PtraceRemote.FdConcurrent
import PtraceRemote.FdConcurrentInv
import PtraceRemote.Freeze
import PtraceRemote.FreezeInv
import PtraceRemote.FdSlots
import PtraceRemote.FdRoundTrip
import PtraceRemote.FdDupRace
import PtraceRemote.FdGrow
import PtraceRemote.FdDup
import PtraceRemote.FdLayout
import PtraceRemote.FdExec
import PtraceRemote.FdFork
import PtraceRemote.PeekSiginfo
import PtraceRemote.ListHead
import PtraceRemote.PtraceLink
import PtraceRemote.PtraceLinkInv
import PtraceRemote.Linked
import PtraceRemote.AugTree
import PtraceRemote.TreeSearch
import PtraceRemote.Vma
import PtraceRemote.Mm
import PtraceRemote.MmUnmap
import PtraceRemote.MmRep
import PtraceRemote.MmWf
import PtraceRemote.Populate
import PtraceRemote.Gup
import PtraceRemote.MmAdjust
import PtraceRemote.MmMerge
import PtraceRemote.MmPages
import PtraceRemote.MmLedger
import PtraceRemote.MmSplit
import PtraceRemote.MmDetach
import PtraceRemote.MmMunmap
import PtraceRemote.MmView
import PtraceRemote.MmMap
import PtraceRemote.MmRegion
import PtraceRemote.MmMapInv
import PtraceRemote.MmMapView
import PtraceRemote.MmCount
import PtraceRemote.MmLimits
import PtraceRemote.MmBrkInv
import PtraceRemote.MmProt
import PtraceRemote.MmProtInv
import PtraceRemote.MmProtView
import PtraceRemote.MmDataLimit
import PtraceRemote.MmMove
import PtraceRemote.MmCarve
import PtraceRemote.MmCalm
import PtraceRemote.MmCharge
import PtraceRemote.MmMoveInv
import PtraceRemote.MmResizeInv
import PtraceRemote.MmGrowth
import PtraceRemote.MmMoveView
import PtraceRemote.MmMergeView
import PtraceRemote.GapSearch
import PtraceRemote.GapArea
import PtraceRemote.MmChoice
import PtraceRemote.MmMovable
import PtraceRemote.BlockMove
import PtraceRemote.PageTable
import PtraceRemote.PageTableMove
import PtraceRemote.MmRequest
import PtraceRemote.PopulateRequest
import PtraceRemote.Verdict
import PtraceRemote.MmVerdict
import PtraceRemote.MmProtVerdict
import PtraceRemote.MmEntries
import PtraceRemote.RemoteLimits
import PtraceRemote.MmRun
import PtraceRemote.MmMapCount
import PtraceRemote.MmMapLimit
import PtraceRemote.MmRequestView
import PtraceRemote.MmSearch
import PtraceRemote.FileRefs
import PtraceRemote.MmStack
import PtraceRemote.Runs
import PtraceRemote.MmLife
import PtraceRemote.Posix
import PtraceRemote.FdPosix
import PtraceRemote.FdCallRefs
import PtraceRemote.Holders
import PtraceRemote.FdLife
import PtraceRemote.FdCallSlots
import PtraceRemote.FdLight
import PtraceRemote.FdLightInv
import PtraceRemote.LockOrder
import PtraceRemote.MmLocks
import PtraceRemote.MmLocksInv
import PtraceRemote.GupWalk
import PtraceRemote.GupPins
import PtraceRemote.GupPopulate
import PtraceRemote.GupCow
