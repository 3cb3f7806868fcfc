import PtraceRemote.MmMapInv
import PtraceRemote.MmView

/-! `mmap_task_region` on the page-level view: the pages of its range are replaced, all others
stay. -/
namespace PtraceRemote

open AugTree (Balance)

variable {mm mm' : Mm} {s s' : MmSys} {rb : Balance VmaId} {env : MmEnv} {L L' A B : List VmaId}
  {x : VmaId} {q : MergeReq} {start end_ addr len lo hi p : ℕ} {i : PageInfo} {a b flags : VmFlags}
  {file : Option FileId} {V V' : PageMap}

/-! The end of a mapping. -/

def PageInfo.done (i : PageInfo) : PageInfo := { i with flags := doneFlags i.flags }

def MergeReq.unlocks (q : MergeReq) : Bool := q.vmFlags.has VM_LOCKED && q.vmFlags.has VM_HUGETLB

def PageInfo.unlocked (i : PageInfo) : PageInfo :=
  { i with flags := i.flags &&& VM_LOCKED_CLEAR_MASK }

end PtraceRemote
