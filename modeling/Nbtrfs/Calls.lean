import Nbtrfs.Fuse

/-!
# Calls

Reference: `fuse.c`.

The callbacks that read or stamp attributes, list a directory or do nothing, and `FuseCall`, one
constructor for each callback that `nbtrfs_init_ops` registers, less `destroy`. A failing `assert`
aborts the process, which is a crash here.
-/

namespace Nbtrfs

open BlockProg

/-! ## Attributes -/

/-- `nbtrfs_access` -/
def nbtrfsAccess (disk : DiskInterface) (path : CString) : BlockProg ℤ := do
  let pair ← itemSearch disk path
  if pair.inodeNumber ≠ 0 ∨ pair.btreeBlock ≠ 0 then pure 0 else pure enoent

/-- `struct stat`, as far as `nbtrfs_getattr` fills it in. -/
structure Stat where
  mode : UInt32
  size : UInt64
  uid : UInt32
  gid : UInt32
  nlink : UInt64
  ctime : UInt64
  mtime : UInt64
  atime : UInt64
  ino : UInt64
deriving DecidableEq

/-- What `nbtrfs_getattr` makes of the inode it finds under a number. -/
def Stat.ofInode (node : Inode) (inodeNumber : UInt64) : Stat where
  mode := node.mode
  size := node.size
  uid := node.ownerId
  gid := node.groupId
  nlink := node.referenceCount
  ctime := node.creationTime
  mtime := node.modificationTime
  atime := node.accessTime
  ino := inodeNumber

/-- `nbtrfs_getattr`: the return value, and `*st` if it was filled in. -/
def nbtrfsGetattr (disk : DiskInterface) (path : CString) : BlockProg (ℤ × Option Stat) := do
  let pair ← itemSearch disk path
  if pair.inodeNumber ≠ 0 ∨ pair.btreeBlock ≠ 0 then do
    let node ← inodeCopy pair.inodeNumber
    pure (0, some (Stat.ofInode node pair.inodeNumber))
  else pure (enoent, none)

/-- `struct timespec` -/
structure Timespec where
  sec : UInt64
  nsec : UInt64
deriving DecidableEq

/-- `ts.tv_sec * 1000000000ULL + ts.tv_nsec` -/
def Timespec.nanoseconds (ts : Timespec) : UInt64 := ts.sec * 1000000000 + ts.nsec

/-- `nbtrfs_utimens`; `atime` and `mtime` are `ts[0]` and `ts[1]`. -/
def nbtrfsUtimens (disk : DiskInterface) (path : CString) (atime mtime : Timespec) :
    BlockProg ℤ := do
  let pair ← itemSearch disk path
  let node ← inodeRead pair.inodeNumber
  match node with
  | none => pure (-1)
  | some node =>
      inodeWrite { node with
        accessTime := atime.nanoseconds
        modificationTime := mtime.nanoseconds }

/-! ## Listing -/

/-- `nbtrfs_getattr` with the `assert` that follows it in `nbtrfs_readdir`. -/
def assertedStat (disk : DiskInterface) (path : CString) : BlockProg Stat := do
  let (_, st) ← nbtrfsGetattr disk path
  match st with
  | some st => pure st
  | none => crash

/-- The name of an entry as a C string; `none` when there is no NUL inside the array. -/
def DirEntry.cName (entry : DirEntry) : Option CString :=
  if 0 ∈ entry.name then some (entry.name.takeWhile (· ≠ 0)) else none

/-- `absolute`: the path of an entry, cut by `snprintf` at `PATH_MAX`. -/
def entryPath (path name : CString) : CString :=
  (if 0 < countL path then path ++ slash :: name else path ++ name).take (pathMax - 1)

/-- The loop of `nbtrfs_readdir` over the entries. -/
def fillEntries (disk : DiskInterface) (path : CString) :
    List DirEntry → BlockProg (List (CString × Stat))
  | [] => pure []
  | entry :: entries =>
      match entry.cName with
      | none => crash
      | some name => do
          let st ← assertedStat disk (entryPath path name)
          let filled ← fillEntries disk path entries
          pure ((name, st) :: filled)

/-- `nbtrfs_readdir`: the return value, and the names that were passed to `filler`, in order. -/
def nbtrfsReaddir (disk : DiskInterface) (path : CString) :
    BlockProg (ℤ × List (CString × Stat)) := do
  let self ← assertedStat disk path
  let parent ← if 0 < countL path then do
      let st ← assertedStat disk (parentPath path (countL path))
      pure [([46, 46], st)]
    else pure []
  let (_, entries) ← directoryList disk path
  let filled ← fillEntries disk path entries
  pure (0, ([46], self) :: parent ++ filled)

/-! ## Callbacks without effect -/

/-- `nbtrfs_truncate` -/
def nbtrfsTruncate : BlockProg ℤ := pure 0

/-- `nbtrfs_open` -/
def nbtrfsOpen : BlockProg ℤ := pure 0

/-- `nbtrfs_ioctl` -/
def nbtrfsIoctl : BlockProg ℤ := pure (-1)

/-! ## The table of callbacks -/

/-- A call that FUSE makes, with the arguments that the callback looks at. -/
inductive FuseCall where
  | access (path : CString)
  | getattr (path : CString)
  | readdir (path : CString)
  | mknod (path : CString) (mode : UInt32)
  | create (path : CString) (mode : UInt32)
  | mkdir (path : CString) (mode : UInt32)
  | link (source target : CString)
  | unlink (path : CString)
  | rmdir (path : CString)
  | rename (source target : CString)
  | chmod (path : CString) (mode : UInt32)
  | truncate
  | openFile
  | read (path : CString) (size : UInt64) (offset : ℕ)
  | write (path : CString) (buf : Bytes) (size : UInt64) (offset : ℕ)
  | utimens (path : CString) (atime mtime : Timespec)
  | ioctl

/-- What a call hands back: its return value, and what it stored for the caller. -/
inductive FuseReply where
  | status (rv : ℤ)
  | attributes (rv : ℤ) (st : Option Stat)
  | names (rv : ℤ) (filled : List (CString × Stat))
  | bytes (rv : ℤ) (buf : List UInt8)

/-- `nbtrfs_init_ops`: the callback for each call. -/
def FuseCall.run (disk : DiskInterface) (host : Host) : FuseCall → BlockProg FuseReply
  | access path => do return .status (← nbtrfsAccess disk path)
  | getattr path => do
      let r ← nbtrfsGetattr disk path
      return .attributes r.1 r.2
  | readdir path => do
      let r ← nbtrfsReaddir disk path
      return .names r.1 r.2
  | mknod path mode => do return .status (← nbtrfsMknod disk host path mode)
  | create path mode => do return .status (← nbtrfsCreate disk host path mode)
  | mkdir path mode => do return .status (← nbtrfsMkdir disk host path mode)
  | link source target => do return .status (← nbtrfsLink disk host source target)
  | unlink path => do return .status (← nbtrfsUnlink disk path)
  | rmdir path => do return .status (← nbtrfsRmdir disk path)
  | rename source target => do return .status (← nbtrfsRename disk host source target)
  | chmod path mode => do return .status (← nbtrfsChmod disk path mode)
  | truncate => do return .status (← nbtrfsTruncate)
  | openFile => do return .status (← nbtrfsOpen)
  | read path size offset => do
      let r ← nbtrfsRead disk path size offset
      return .bytes r.1 r.2
  | write path buf size offset => do
      return .status (← nbtrfsWrite disk host path buf size offset)
  | utimens path atime mtime => do return .status (← nbtrfsUtimens disk path atime mtime)
  | ioctl => do return .status (← nbtrfsIoctl)

/-- The calls between mounting and unmounting, one after the other. -/
def session (disk : DiskInterface) : List (Host × FuseCall) → BlockProg (List FuseReply)
  | [] => pure []
  | (host, call) :: calls => do
      let reply ← call.run disk host
      let replies ← session disk calls
      pure (reply :: replies)

end Nbtrfs
