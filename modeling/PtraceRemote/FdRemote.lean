import PtraceRemote.FdTable

/-! The descriptor requests: `dup3`, `replace_fd` and `do_dup2_to_remote` of `fs/file.c` and the
handlers of `kernel/ptrace.c`, over all tables of the system and the file counts. -/
namespace PtraceRemote

/-- What the requests read besides the tables. `rlimNofile` is the limit of `current`, and `flush`
what the `flush` method of a file returns to `filp_close`. -/
structure FdEnv where
  nrOpen : ℕ
  rlimNofile : ℕ
  fMode : FileId → ℕ
  flush : FileId → ℤ

abbrev FilesId := ℕ

/-- `bug` records that a `BUG_ON` was hit. -/
structure FdSys where
  files : FilesId → FilesStruct
  fCount : FileId → ℤ
  bug : Bool

namespace FdSys

def setFiles (s : FdSys) (i : FilesId) (files : FilesStruct) : FdSys :=
  { s with files := Function.update s.files i files }

def getFile (s : FdSys) (f : FileId) : FdSys :=
  { s with fCount := Function.update s.fCount f (s.fCount f+1) }

def fput (s : FdSys) (f : FileId) : FdSys :=
  { s with fCount := Function.update s.fCount f (s.fCount f-1) }

def fdInstall (s : FdSys) (i : FilesId) (fd : ℕ) (file : FileId) : FdSys :=
  match PtraceRemote.fdInstall (s.files i) fd file with
  | none => { s with bug := true }
  | some files => s.setFiles i files

def closeFd (env : FdEnv) (s : FdSys) (i : FilesId) (fd : ℕ) : ℤ × FdSys :=
  match PtraceRemote.closeFd (s.files i) fd with
  | (none, _) => (-EBADF, s)
  | (some file, files) => (env.flush file, (s.setFiles i files).fput file)

def doDup2 (s : FdSys) (i : FilesId) (file : FileId) (fd flags : ℕ) : ℤ × FdSys :=
  let (ret, files, tofree) := PtraceRemote.doDup2 (s.files i) file fd flags
  if ret < 0 then (ret, s)
  else
    let s := (s.getFile file).setFiles i files
    match tofree with
    | none => (ret, s)
    | some f => (ret, s.fput f)

def dupFd (env : FdEnv) (newf mem : Option RawMem) (s : FdSys) (i j : FilesId) : ℤ × FdSys :=
  match PtraceRemote.dupFd env.nrOpen newf mem (s.files i) with
  | .error err => (err, s)
  | .ok (files, gets) => (0, gets.foldl getFile (s.setFiles j files))

def doCloseOnExec (s : FdSys) (i : FilesId) : FdSys :=
  let r := PtraceRemote.doCloseOnExec (s.files i)
  r.2.foldl fput (s.setFiles i r.1)

end FdSys

def badFlags (flags : BitVec 32) : Bool := flags &&& ~~~BitVec.ofNat 32 oCloexec ≠ 0

def expandDup2 (env : FdEnv) (mem : Option RawMem) (cur i : FilesId) (oldfd newfd : ℕ)
    (flags : BitVec 32) (s : FdSys) : ℤ × FdSys :=
  let r := expandFiles env.nrOpen mem (s.files i) newfd
  let s := s.setFiles i r.2
  match fcheckFiles (s.files cur) oldfd with
  | none => (-EBADF, s)
  | some file =>
    if r.1 < 0 then if r.1 = -EMFILE then (-EBADF, s) else (r.1, s)
    else s.doDup2 i file newfd flags.toNat

def doDup2ToRemote (env : FdEnv) (mem : Option RawMem) (cur child : FilesId) (localFd remoteFd : ℕ)
    (flags : BitVec 32) (s : FdSys) : ℤ × FdSys :=
  if badFlags flags then (-EINVAL, s)
  else if remoteFd ≥ env.rlimNofile then (-EBADF, s)
  else expandDup2 env mem cur child localFd remoteFd flags s

def dup3 (env : FdEnv) (mem : Option RawMem) (cur : FilesId) (oldfd newfd : ℕ) (flags : BitVec 32)
    (s : FdSys) : ℤ × FdSys :=
  if badFlags flags then (-EINVAL, s)
  else if oldfd = newfd then (-EINVAL, s)
  else if newfd ≥ env.rlimNofile then (-EBADF, s)
  else expandDup2 env mem cur cur oldfd newfd flags s

def replaceFd (env : FdEnv) (mem : Option RawMem) (cur : FilesId) (fd : ℕ) (file : Option FileId)
    (flags : BitVec 32) (s : FdSys) : ℤ × FdSys :=
  match file with
  | none => s.closeFd env cur fd
  | some file =>
    if fd ≥ env.rlimNofile then (-EBADF, s)
    else
      let r := expandFiles env.nrOpen mem (s.files cur) fd
      let s := s.setFiles cur r.2
      if r.1 < 0 then (r.1, s) else s.doDup2 cur file fd flags.toNat

def allocInstall (env : FdEnv) (mems : List (Option RawMem)) (i : FilesId) (file : FileId)
    (flags : BitVec 32) (s : FdSys) : ℤ × FdSys :=
  let r := allocFd env.nrOpen 0 (env.rlimNofile % 2^32) flags.toNat mems (s.files i)
  let s := s.setFiles i r.2
  if r.1 ≥ 0 then (r.1, s.fdInstall i r.1.toNat file) else (r.1, s.fput file)

structure DupToRemoteArgs where
  localFd : BitVec 32
  flags : BitVec 32

structure Dup2ToRemoteArgs where
  localFd : BitVec 32
  remoteFd : BitVec 32
  flags : BitVec 32

structure DupFromRemoteArgs where
  remoteFd : BitVec 32
  flags : BitVec 32

structure RemoteCloseArgs where
  remoteFd : BitVec 32

def ptraceDupToRemote (env : FdEnv) (mems : List (Option RawMem)) (cur child : FilesId)
    (data : Option DupToRemoteArgs) (s : FdSys) : ℤ × FdSys :=
  match data with
  | none => (-EFAULT, s)
  | some args =>
    if badFlags args.flags then (-EINVAL, s)
    else match fgetFiles env.fMode (s.files cur) args.localFd.toNat 0 with
      | none => (-EBADF, s)
      | some file => allocInstall env mems child file args.flags (s.getFile file)

def ptraceDup2ToRemote (env : FdEnv) (mem : Option RawMem) (cur child : FilesId)
    (data : Option Dup2ToRemoteArgs) (s : FdSys) : ℤ × FdSys :=
  match data with
  | none => (-EFAULT, s)
  | some args =>
    doDup2ToRemote env mem cur child args.localFd.toNat args.remoteFd.toNat args.flags s

def ptraceDupFromRemote (env : FdEnv) (mems : List (Option RawMem)) (cur child : FilesId)
    (data : Option DupFromRemoteArgs) (s : FdSys) : ℤ × FdSys :=
  match data with
  | none => (-EFAULT, s)
  | some args =>
    if badFlags args.flags then (-EINVAL, s)
    else match fgetFiles env.fMode (s.files child) args.remoteFd.toNat fmodePath with
      | none => (-EBADF, s)
      | some file => allocInstall env mems cur file args.flags (s.getFile file)

def ptraceRemoteClose (env : FdEnv) (child : FilesId) (data : Option RemoteCloseArgs) (s : FdSys) :
    ℤ × FdSys :=
  match data with
  | none => (-EFAULT, s)
  | some args => s.closeFd env child args.remoteFd.toNat

end PtraceRemote
