import PtraceRemote.FdDup
import PtraceRemote.FdRoundTrip
import PtraceRemote.MmProtVerdict

/-! Whose limits govern a request: those of the tracer, and they decide it only where they refuse
it. -/
namespace PtraceRemote

open AugTree (Balance)
open Verdict

variable {rb : Balance VmaId} {s : MmSys} {L : List VmaId} {files : FilesStruct} {fs : FdSys}
  {cur child : FilesId} {nrOpen endFd endFd' flags : ℕ}

/-! The requests on memory. -/

end PtraceRemote
