import Nbtrfs.Directory

/-!
# The file system operations

Reference: `fuse.c`.

Return values are those of the C functions; texts that go to the terminal are left out. An `off_t` is
a natural number, since no negative offset arrives.
-/

namespace Nbtrfs

open BlockProg Bytes

/-- `S_IFMT` -/
def fileTypeMask : UInt32 := 0o170000

/-- `-EISDIR` -/
abbrev eisdir : ℤ := -21

/-- `-ENOENT` -/
abbrev enoent : ℤ := -2

/-- `inode_read` with its result ignored. Without an inode the caller would go on with uninitialised
memory. -/
def inodeCopy (inodeNumber : UInt64) : BlockProg Inode := do
  let node ← inodeRead inodeNumber
  match node with
  | some node => pure node
  | none => crash

/-! ## Names -/

/-- `nbtrfs_mknod` -/
def nbtrfsMknod (disk : DiskInterface) (host : Host) (path : CString) (mode : UInt32) :
    BlockProg ℤ := do
  let rv ← inodeAllocate disk host.uid host.gid mode
  if int32 rv = -1 then pure (-1)
  else do
    let node ← inodeRead (UInt64.ofInt (int32 rv))
    match node with
    | none => pure (-1)
    | some node => do
        let node := { node with creationTime := host.now }
        let rv ← inodeWrite node
        if rv ≠ 0 then pure rv
        else
          directoryAddEntry disk host (parentPath path (countL path)) (getName path)
            node.inodeNumber (mode &&& fileTypeMask)

/-- `nbtrfs_create` -/
def nbtrfsCreate (disk : DiskInterface) (host : Host) (path : CString) (mode : UInt32) :
    BlockProg ℤ :=
  nbtrfsMknod disk host path (mode ||| fileTypeRegular)

/-- `nbtrfs_mkdir` -/
def nbtrfsMkdir (disk : DiskInterface) (host : Host) (path : CString) (mode : UInt32) :
    BlockProg ℤ :=
  nbtrfsMknod disk host path (mode ||| fileTypeDirectory)

/-- `nbtrfs_unlink` -/
def nbtrfsUnlink (disk : DiskInterface) (path : CString) : BlockProg ℤ :=
  directoryRemoveEntry disk (parentPath path (countL path)) (getName path)

/-- `nbtrfs_link` -/
def nbtrfsLink (disk : DiskInterface) (host : Host) (source target : CString) : BlockProg ℤ := do
  let pair ← itemSearch disk source
  let node ← inodeCopy pair.inodeNumber
  let rv ← directoryAddEntry disk host (parentPath target (countL target)) (getName target)
    pair.inodeNumber (node.mode &&& fileTypeMask)
  if rv = 0 then do
    let _ ← inodeWrite { node with referenceCount := node.referenceCount + 1 }
    pure rv
  else pure rv

/-- `nbtrfs_rmdir` -/
def nbtrfsRmdir (disk : DiskInterface) (path : CString) : BlockProg ℤ := nbtrfsUnlink disk path

/-- `nbtrfs_rename` -/
def nbtrfsRename (disk : DiskInterface) (host : Host) (source target : CString) : BlockProg ℤ := do
  let rv ← nbtrfsLink disk host source target
  if rv ≠ 0 then pure rv else nbtrfsUnlink disk source

/-- `nbtrfs_chmod` -/
def nbtrfsChmod (disk : DiskInterface) (path : CString) (mode : UInt32) : BlockProg ℤ := do
  let pair ← itemSearch disk path
  let node ← inodeRead pair.inodeNumber
  match node with
  | none => pure (-1)
  | some node => inodeWrite { node with mode := mode }

/-! ## Data -/

/-- `int page_index = current_offset / USABLE_BLOCK_SIZE`, as the argument `block_index`. -/
def pageIndex (offset : ℕ) : UInt64 := UInt64.ofInt (int32 (offset / usableBlockSize : ℕ))

/-- The number of bytes that one iteration copies. -/
def chunk (offset remaining : ℕ) : ℕ := min (usableBlockSize - offset % usableBlockSize) remaining

/-- The loop of `nbtrfs_read`, with what is copied so far. -/
def readPages (node : Inode) : ℕ → ℕ → ℕ → List UInt8 → BlockProg (ℤ × List UInt8)
  | 0, _, _, buf => pure (buf.length, buf)
  | n + 1, offset, remaining, buf =>
      if remaining = 0 then pure (buf.length, buf)
      else do
        let (rv, block) ← inodeGetBlock node (pageIndex offset)
        if rv ≠ 0 then pure (rv, buf)
        else
          let pnum := block.getD 0
          if pnum = 0 then pure (buf.length, buf)
          else do
            fetch node.inodeNumber pnum
            let pg ← page pnum
            let bytes := chunk offset remaining
            readPages node n (offset + bytes) (remaining - bytes)
              (buf ++ (List.range bytes).map fun i => pg (4 + offset % usableBlockSize + i))

/-- `nbtrfs_read` of an inode. -/
def readInode (node : Inode) (size : UInt64) (offset : ℕ) : BlockProg (ℤ × List UInt8) :=
  if node.size ≤ UInt64.ofNat offset then pure (0, [])
  else
    let size := if node.size < UInt64.ofNat offset + size then node.size - UInt64.ofNat offset
      else size
    if size = 0 then pure (0, [])
    else
      let remaining := (int32 size.toNat).toNat
      readPages node remaining offset remaining []

/-- `nbtrfs_read`: the return value and the bytes copied to `buf`. -/
def nbtrfsRead (disk : DiskInterface) (path : CString) (size : UInt64) (offset : ℕ) :
    BlockProg (ℤ × List UInt8) := do
  let pair ← itemSearch disk path
  if pair.inodeNumber = 0 ∧ pair.btreeBlock = 0 then pure (enoent, [])
  else if pair.btreeBlock ≠ 0 then pure (eisdir, [])
  else do
    let node ← inodeRead pair.inodeNumber
    match node with
    | none => pure (-1, [])
    | some node => readInode node size offset

/-- A new data page: the type, and zeros behind it. -/
def clearDataPage (pg : Bytes) : Bytes :=
  copyIn (setBlockType BlockType.data pg) 4 usableBlockSize fun _ => 0

/-- The block that an iteration of `nbtrfs_write` stores to, and the inode it goes on with; `none`
when there is no free page. Neither the result of `inode_get_block` nor that of `inode_set_block` is
looked at. -/
def writablePage (disk : DiskInterface) (node : Inode) (index : UInt64) :
    BlockProg (Option (Inode × UInt64)) := do
  let (_, block) ← inodeGetBlock node index
  let pnum := block.getD 0
  if pnum ≠ 0 then pure (some (node, pnum))
  else do
    let pnum ← allocPage disk
    if pnum = 0 then pure none
    else do
      fetch node.inodeNumber pnum
      modify pnum clearDataPage
      let (_, node) ← inodeSetBlock disk node index pnum
      let _ ← inodeWrite node
      pure (some (node, pnum))

/-- The loop of `nbtrfs_write`: the inode it ends with and the number of bytes written. The inode is
`none` when the loop was left for `exit`. -/
def writePages (disk : DiskInterface) (buf : Bytes) :
    ℕ → Inode → ℕ → ℕ → ℕ → BlockProg (Option Inode × ℕ)
  | 0, node, _, _, written => pure (some node, written)
  | n + 1, node, offset, remaining, written =>
      if remaining = 0 then pure (some node, written)
      else do
        match ← writablePage disk node (pageIndex offset) with
        | none => pure (none, written)
        | some (node, pnum) => do
            fetch node.inodeNumber pnum
            let bytes := chunk offset remaining
            modify pnum fun pg =>
              copyIn pg (4 + offset % usableBlockSize) bytes fun i => buf (written + i)
            writeBack node.inodeNumber pnum
            writePages disk buf n node (offset + bytes) (remaining - bytes) (written + bytes)

/-- `nbtrfs_write` to an inode. -/
def writeInode (disk : DiskInterface) (node : Inode) (buf : Bytes) (size : UInt64) (offset : ℕ) :
    BlockProg ℤ := do
  let remaining := (int32 size.toNat).toNat
  let (left, written) ← writePages disk buf remaining node offset remaining 0
  match left with
  | none => pure written
  | some node =>
      if node.size < UInt64.ofNat (offset + written) then do
        let _ ← inodeWrite { node with size := UInt64.ofNat (offset + written) }
        pure written
      else pure written

/-- `nbtrfs_write` after the lookup. Without an inode the number returned is uninitialised. -/
def writeItem (disk : DiskInterface) (pair : InodeBtreePair) (buf : Bytes) (size : UInt64)
    (offset : ℕ) : BlockProg ℤ := do
  let node ← inodeCopy pair.inodeNumber
  writeInode disk node buf size offset

/-- `nbtrfs_write` -/
def nbtrfsWrite (disk : DiskInterface) (host : Host) (path : CString) (buf : Bytes) (size : UInt64)
    (offset : ℕ) : BlockProg ℤ := do
  let pair ← itemSearch disk path
  if pair.inodeNumber = 0 ∧ pair.btreeBlock = 0 then do
    let _ ← nbtrfsMknod disk host path (fileTypeRegular ||| 0o644)
    let pair ← itemSearch disk path
    writeItem disk pair buf size offset
  else if pair.btreeBlock ≠ 0 then pure eisdir
  else writeItem disk pair buf size offset

end Nbtrfs
