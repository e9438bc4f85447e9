import Nbtrfs.Path
import Nbtrfs.Btr.Insert
import Nbtrfs.Btr.Delete

/-!
# Directories

Reference: `directory.h`, `directory.c`.

A directory keeps its entries twice: in a B-tree from the hash of a name to the object, which
`item_search` follows, and in the data blocks of its inode as an array of `DirEntry`. The first block
starts with the `DirectoryBlock` header. Pointers into pages (`db`, `entry`) are block numbers here,
together with an offset where one is needed.
-/

namespace Nbtrfs

open BlockProg Bytes

/-- `NAME_MAX` -/
abbrev nameMax : ℕ := 255

/-- `sizeof(struct DirEntry)` -/
abbrev sizeofDirEntry : ℕ := 272

/-- The number of entries that both functions look at in a block. -/
abbrev entriesPerBlock : ℕ := usableBlockSize / sizeofDirEntry

/-- `( UINT16_MAX * sizeof(struct DirEntry) ) / USABLE_BLOCK_SIZE` -/
abbrev directoryBlocks : ℕ := 65535 * sizeofDirEntry / usableBlockSize

/-- What the process brings: its user and group, the clock, and what the stack frame of
`directory_add_entry` holds where `new_file` will lie. -/
structure Host where
  uid : UInt32
  gid : UInt32
  now : UInt64
  stack : Bytes

/-- `entry_count` of the header in a page. -/
def entryCount (pg : Bytes) : UInt16 := load16 pg 4

/-- `db->entry_count = v` -/
def setEntryCount (v : UInt16) (pg : Bytes) : Bytes := store16 pg 4 v

/-- The offset of `entry[j]`; in a block with the header the array starts two bytes later. -/
def entryAt (header : Bool) (j : ℕ) : ℕ := 4 + (if header then 2 else 0) + sizeofDirEntry * j

/-- `entry->active` -/
def entryActive (pg : Bytes) (e : ℕ) : Bool := pg (e + 271) ≠ 0

/-- `!strcmp(entry->name, name)` -/
def entryNamed (pg : Bytes) (e : ℕ) (name : CString) : Bool :=
  (List.range (name.length + 1)).all fun i => pg (e + 16 + i) = name.getD i 0

/-- `new_file` after its fields are set. The VFS passes no name longer than `NAME_MAX`. -/
def newFile (host : Host) (name : CString) (targetInode : UInt64) : Bytes :=
  let new := store64 host.stack 0 targetInode
  let new := copyIn new 16 (name.length + 1) fun i => name.getD i 0
  store8 new 271 1

/-- An inode of zeros. -/
def zeroInode : Inode where
  inodeNumber := 0
  mode := 0
  size := 0
  blockCount := 0
  directBlocks := Vector.replicate 12 0
  indirectBlock := 0
  doubleIndirectBlock := 0
  creationTime := 0
  modificationTime := 0
  accessTime := 0
  referenceCount := 0
  ownerId := 0
  groupId := 0

/-! ## Adding an entry -/

/-- The block for entry block `i` and the block that `db` points to, with a new page where there is
none yet; `none` when there is no free page. -/
def entryBlock (disk : DiskInterface) (pair : InodeBtreePair) (node : Inode) (i : ℕ)
    (block db : UInt64) : BlockProg (Option (Inode × UInt64 × UInt64)) :=
  if block = 0 then do
    let block ← allocPage disk
    if block = 0 then pure none
    else do
      let (_, node) ← inodeSetBlock disk node (UInt64.ofNat i) block
      fetch pair.inodeNumber block
      modify block (setBlockType BlockType.data)
      let _ ← inodeWrite node
      pure (some (node, block, block))
  else do
    fetch pair.inodeNumber block
    pure (some (node, block, if i = 0 then block else db))

/-- The loop over the entries from `j` on: the first slot that is inactive, or follows `entry_count`
active ones. -/
def freeSlot (pg : Bytes) (header : Bool) (limit : UInt16) : ℕ → ℕ → UInt16 → Option ℕ × UInt16
  | 0, _, count => (none, count)
  | n + 1, j, count =>
      if entryActive pg (entryAt header j) = false ∨ count = limit then (some j, count)
      else freeSlot pg header limit n (j + 1) (count + 1)

/-- The root node of a new directory. -/
def newDirectoryRoot (disk : DiskInterface) (targetInode : UInt64) : BlockProg UInt64 := do
  let page ← btreeNodeCreate disk false
  if page = 0 then crash
  else do
    editNode page fun node => { node with value := targetInode, type := fileTypeDirectory }
    let _ ← btreeNodeWrite (← nodeAt page)
    pure page

/-- The object enters the B-tree of the directory; the result is what `new_file` is then. -/
def enterTree (disk : DiskInterface) (pair : InodeBtreePair) (name : CString)
    (targetInode : UInt64) (type : UInt32) (new : Bytes) : BlockProg Bytes :=
  if type = fileTypeDirectory then do
    let page ← newDirectoryRoot disk targetInode
    let _ ← btreeInsert disk pair.btreeBlock (pathHash name) page type
    pure (store64 new 8 page)
  else do
    let _ ← btreeInsert disk pair.btreeBlock (pathHash name) targetInode type
    pure new

/-- The number of entries is stored in the first block. -/
def writeEntryCount (pair : InodeBtreePair) (node : Inode) (block : UInt64)
    (numberOfEntries : UInt16) : BlockProg UInt64 := do
  let (_, first) ← inodeGetBlock node 0
  let block := first.getD block
  fetch pair.inodeNumber block
  modify block (setEntryCount numberOfEntries)
  writeBack 0 block
  pure block

/-- The loop of `directory_add_entry` over the entry blocks from `i` on. -/
def addEntryFrom (disk : DiskInterface) (host : Host) (pair : InodeBtreePair) (name : CString)
    (targetInode : UInt64) (type : UInt32) :
    ℕ → ℕ → Inode → UInt64 → UInt64 → UInt16 → UInt16 → BlockProg ℤ
  | 0, _, _, _, _, _, _ => pure (-1)
  | n + 1, i, node, block, db, count, numberOfEntries => do
      let (_, mapped) ← inodeGetBlock node (UInt64.ofNat i)
      match ← entryBlock disk pair node i (mapped.getD block) db with
      | none => pure (-1)
      | some (node, block, db) =>
          let pg ← page block
          if blockType pg ≠ BlockType.data.code then pure (-1)
          else do
            let numberOfEntries := if i = 0 then entryCount pg else numberOfEntries
            let limit ← page db
            match freeSlot pg (i = 0) (entryCount limit) entriesPerBlock 0 count with
            | (none, count) =>
                addEntryFrom disk host pair name targetInode type n (i + 1) node block db count
                  numberOfEntries
            | (some j, _) =>
                let new ← enterTree disk pair name targetInode type (newFile host name targetInode)
                modify block fun pg => copyIn pg (entryAt (i = 0) j) sizeofDirEntry new
                writeBack 0 block
                let _ ← writeEntryCount pair node block (numberOfEntries + 1)
                pure 0

/-- `directory_add_entry` -/
def directoryAddEntry (disk : DiskInterface) (host : Host) (path name : CString)
    (targetInode : UInt64) (type : UInt32) : BlockProg ℤ := do
  let pair ← itemSearch disk path
  if pair.inodeNumber ≠ 0 ∨ path = [slash] then do
    let node ← inodeRead pair.inodeNumber
    addEntryFrom disk host pair name targetInode type directoryBlocks 0 (node.getD zeroInode) 0 0 0 0
  else pure (-1)

/-! ## Removing an entry -/

/-- The loop over the entries from `j` on: the first one with the name, active or not. -/
def namedSlot (pg : Bytes) (header : Bool) (name : CString) : ℕ → ℕ → Option ℕ
  | 0, _ => none
  | n + 1, j =>
      if entryNamed pg (entryAt header j) name then some j else namedSlot pg header name n (j + 1)

/-- What is done with the entry that has the name; `file` is `file_node`. -/
def removeEntry (disk : DiskInterface) (pair : InodeBtreePair) (dirNode file : Inode)
    (name : CString) (block db : UInt64) (e : ℕ) (numberOfEntries : UInt16) :
    BlockProg (UInt64 × Inode) := do
  modify block fun pg => store8 pg (e + 271) 0
  modify db fun pg => setEntryCount (entryCount pg - 1) pg
  let pg ← page block
  let inodeNumber := load64 pg e
  let read ← inodeRead inodeNumber
  let file := read.getD file
  if file.referenceCount = 1 then do
    let _ ← inodeFree inodeNumber
    let _ ← btreeDelete disk pair.btreeBlock (pathHash name)
    writeBack 0 block
  else writeBack 0 block
  let block ← writeEntryCount pair dirNode block numberOfEntries
  pure (block, file)

/-- The loop of `directory_remove_entry` over the entry blocks from `i` on. It goes on with the next
block after an entry was removed. -/
def removeEntryFrom (disk : DiskInterface) (pair : InodeBtreePair) (dirNode : Inode)
    (name : CString) :
    ℕ → ℕ → Inode → UInt64 → UInt64 → UInt16 → UInt16 → ℤ → BlockProg ℤ
  | 0, _, _, _, _, _, _, rv => pure rv
  | n + 1, i, file, block, db, count, numberOfEntries, rv => do
      let (_, mapped) ← inodeGetBlock dirNode (UInt64.ofNat i)
      let block := mapped.getD block
      if block = 0 then pure rv
      else do
        fetch pair.inodeNumber block
        let pg ← page block
        if blockType pg ≠ BlockType.data.code then pure rv
        else do
          let header : Bool := count = 0
          let db := if header then block else db
          let numberOfEntries := if header then entryCount pg else numberOfEntries
          let limit ← page db
          if entryCount limit = count then pure rv
          else
            match namedSlot pg header name entriesPerBlock 0 with
            | none =>
                removeEntryFrom disk pair dirNode name n (i + 1) file block db
                  (count + UInt16.ofNat entriesPerBlock) numberOfEntries rv
            | some j => do
                let (block, file) ← removeEntry disk pair dirNode file name block db
                  (entryAt header j) numberOfEntries
                removeEntryFrom disk pair dirNode name n (i + 1) file block block
                  (count + UInt16.ofNat j) numberOfEntries 0

/-- `directory_remove_entry` -/
def directoryRemoveEntry (disk : DiskInterface) (path name : CString) : BlockProg ℤ := do
  let pair ← itemSearch disk path
  if pair.inodeNumber ≠ 0 ∨ path = [slash] then do
    let node ← inodeRead pair.inodeNumber
    removeEntryFrom disk pair (node.getD zeroInode) name directoryBlocks 0 zeroInode 0 0 0 0 (-1)
  else pure (-1)

/-! ## Listing the entries -/

/-- `DirEntry`, with the whole array of its name. -/
structure DirEntry where
  inodeNumber : UInt64
  btreeBlock : UInt64
  name : List UInt8
  active : Bool
deriving DecidableEq

/-- The entry at offset `e` of a page. -/
def DirEntry.ofPage (pg : Bytes) (e : ℕ) : DirEntry where
  inodeNumber := load64 pg e
  btreeBlock := load64 pg (e + 8)
  name := (List.range nameMax).map fun i => pg (e + 16 + i)
  active := entryActive pg e

/-- The loop over the entries from `j` on: the active ones are copied behind those found before, up to
`limit` of them. -/
def listEntries (pg : Bytes) (header : Bool) (limit : ℕ) :
    ℕ → ℕ → List DirEntry → List DirEntry
  | 0, _, entries => entries
  | n + 1, j, entries =>
      if entries.length < limit then
        listEntries pg header limit n (j + 1)
          (if entryActive pg (entryAt header j) then
            entries ++ [DirEntry.ofPage pg (entryAt header j)]
          else entries)
      else entries

/-- The loop of `directory_list` over the entry blocks from `i` on; `rv` is the number of entries found
so far. -/
def directoryListFrom (pair : InodeBtreePair) (node : Inode) :
    ℕ → ℕ → UInt64 → UInt64 → List DirEntry → BlockProg (List DirEntry)
  | 0, _, _, _, entries => pure entries
  | n + 1, i, block, db, entries => do
      let (_, mapped) ← inodeGetBlock node (UInt64.ofNat i)
      let block := mapped.getD block
      if block = 0 then pure entries
      else do
        fetch pair.inodeNumber block
        let pg ← page block
        if blockType pg ≠ BlockType.data.code then pure entries
        else do
          let header : Bool := entries.length = 0
          let db := if header then block else db
          let limit ← page db
          if (entryCount limit).toNat = entries.length then pure entries
          else
            directoryListFrom pair node n (i + 1) block db
              (listEntries pg header (entryCount limit).toNat entriesPerBlock 0 entries)

/-- `directory_list`: the return value and the entries. -/
def directoryList (disk : DiskInterface) (path : CString) : BlockProg (ℤ × List DirEntry) := do
  let pair ← itemSearch disk path
  if pair.inodeNumber ≠ 0 ∨ path = [slash] then do
    let node ← inodeRead pair.inodeNumber
    let entries ← directoryListFrom pair (node.getD zeroInode) directoryBlocks 0 0 0 []
    pure (entries.length, entries)
  else pure (0, [])

end Nbtrfs
