import Nbtrfs.Alloc

/-!
# Inodes

Reference: `inode.h`, `inode.c`.

`Inode.ofPage` and `Inode.toPage` are the two directions of the `memcpy` between the structure and a
slot of an inode table block. `inode_allocate` finds the bit of an inode relative to
`sb.inode_bitmap`; `inode_free` computes its index from `ibmn - 1` instead, and the index it passes
to `bitmap_put` is negative on every volume.
-/

namespace Nbtrfs

open BlockProg Bytes

/-- `Inode`. The signed `inode_number` is kept as its 64 bits. -/
structure Inode where
  inodeNumber : UInt64
  mode : UInt32
  size : UInt64
  blockCount : UInt64
  directBlocks : Vector UInt64 12
  indirectBlock : UInt64
  doubleIndirectBlock : UInt64
  creationTime : UInt64
  modificationTime : UInt64
  accessTime : UInt64
  referenceCount : UInt64
  ownerId : UInt32
  groupId : UInt32
deriving Inhabited, DecidableEq

/-- Offset of a slot in an inode table block, behind the type header. -/
abbrev slotOffset (slot : ℕ) : ℕ := 4 + sizeofInode * slot

namespace Inode

/-- The structure stored from offset `a` on. -/
def load (pg : Bytes) (a : ℕ) : Inode where
  inodeNumber := load64 pg a
  mode := load32 pg (a + 8)
  size := load64 pg (a + 16)
  blockCount := load64 pg (a + 24)
  directBlocks := Vector.ofFn fun i : Fin 12 => load64 pg (a + 32 + 8 * i)
  indirectBlock := load64 pg (a + 128)
  doubleIndirectBlock := load64 pg (a + 136)
  creationTime := load64 pg (a + 144)
  modificationTime := load64 pg (a + 152)
  accessTime := load64 pg (a + 160)
  referenceCount := load64 pg (a + 168)
  ownerId := load32 pg (a + 176)
  groupId := load32 pg (a + 180)

/-- Store the structure from offset `a` on. -/
def store (node : Inode) (a : ℕ) (pg : Bytes) : Bytes :=
  let pg := store64 pg a node.inodeNumber
  let pg := store32 pg (a + 8) node.mode
  let pg := store64 pg (a + 16) node.size
  let pg := store64 pg (a + 24) node.blockCount
  let pg := storeArr pg (a + 32) 12 fun i => node.directBlocks.toArray.getD i 0
  let pg := store64 pg (a + 128) node.indirectBlock
  let pg := store64 pg (a + 136) node.doubleIndirectBlock
  let pg := store64 pg (a + 144) node.creationTime
  let pg := store64 pg (a + 152) node.modificationTime
  let pg := store64 pg (a + 160) node.accessTime
  let pg := store64 pg (a + 168) node.referenceCount
  let pg := store32 pg (a + 176) node.ownerId
  store32 pg (a + 180) node.groupId

/-- The inode stored in a slot of a page. -/
def ofPage (pg : Bytes) (slot : ℕ) : Inode := load pg (slotOffset slot)

/-- Store the inode in a slot of a page. -/
def toPage (node : Inode) (slot : ℕ) (pg : Bytes) : Bytes := store node (slotOffset slot) pg

theorem store_apply {node : Inode} {a o : ℕ} {pg : Bytes} (ho : o < a ∨ a + 184 ≤ o) :
    store node a pg o = pg o := by
  simp (disch := omega) only [store, store64_apply_ne, store32_apply_ne, storeArr_apply_of_not_mem]

private theorem directBlock_store (node : Inode) (a : ℕ) (pg : Bytes) {i : ℕ} (hi : i < 12) :
    load64 (store node a pg) (a + 32 + 8 * i) = node.directBlocks.toArray.getD i 0 := by
  rw [store]
  simp (disch := omega) only [load64_store64_ne, load64_store32_ne]
  rw [load64_storeArr_elem hi]

private theorem directBlocks_store (node : Inode) (a : ℕ) (pg : Bytes) :
    (Vector.ofFn fun i : Fin 12 => load64 (store node a pg) (a + 32 + 8 * i)) =
      node.directBlocks := by
  apply Vector.ext
  intro i hi
  rw [Vector.getElem_ofFn, directBlock_store node a pg hi]
  simp [hi]

theorem load_store (node : Inode) (a : ℕ) (pg : Bytes) : load (store node a pg) a = node := by
  rw [load, directBlocks_store]
  simp (disch := omega) only [store, load64_store64_same, load64_store64_ne, load64_store32_ne,
    load64_storeArr_ne, load32_store32_same, load32_store32_ne, load32_store64_ne,
    load32_storeArr_ne]

/-- An inode is read from its own bytes alone. -/
theorem load_congr {pg pg' : Bytes} {a : ℕ} (h : ∀ o < 184, pg' (a + o) = pg (a + o)) :
    load pg' a = load pg a := by
  have h64 : ∀ c, c + 8 ≤ 184 → load64 pg' (a + c) = load64 pg (a + c) := fun c hc =>
    load64_congr fun i hi => by
      rw [Nat.add_assoc]
      exact h _ (by omega)
  have h32 : ∀ c, c + 4 ≤ 184 → load32 pg' (a + c) = load32 pg (a + c) := fun c hc =>
    load32_congr fun i hi => by
      rw [Nat.add_assoc]
      exact h _ (by omega)
  have h0 : load64 pg' a = load64 pg a := h64 0 (by omega)
  have hdirect : (Vector.ofFn fun i : Fin 12 => load64 pg' (a + 32 + 8 * i)) =
      Vector.ofFn fun i : Fin 12 => load64 pg (a + 32 + 8 * i) := by
    apply Vector.ext
    intro i hi
    rw [Vector.getElem_ofFn, Vector.getElem_ofFn, Nat.add_assoc]
    exact h64 _ (by omega)
  simp (disch := omega) only [load, h0, h64, h32, hdirect]

theorem toPage_apply {node : Inode} {slot : ℕ} {pg : Bytes} {o : ℕ}
    (ho : o < slotOffset slot ∨ slotOffset slot + sizeofInode ≤ o) :
    toPage node slot pg o = pg o :=
  store_apply ho

/-- What is stored is read back. -/
@[simp] theorem ofPage_toPage (node : Inode) (slot : ℕ) (pg : Bytes) :
    ofPage (toPage node slot pg) slot = node :=
  load_store node _ pg

@[simp] theorem blockType_toPage (node : Inode) (slot : ℕ) (pg : Bytes) :
    blockType (toPage node slot pg) = blockType pg :=
  blockType_congr fun o ho => toPage_apply (Or.inl (by
    simp only [slotOffset]
    omega))

/-- An inode depends on the bytes of its slot only. -/
theorem ofPage_congr {pg pg' : Bytes} {slot : ℕ}
    (h : ∀ o < sizeofInode, pg' (slotOffset slot + o) = pg (slotOffset slot + o)) :
    ofPage pg' slot = ofPage pg slot :=
  load_congr h

end Inode

/-! ## The inode table -/

/-- `superblock_read` with its result ignored. On a block that is no superblock the caller would go
on with uninitialised memory. -/
def superblockCopy : BlockProg Superblock := do
  let sb ← superblockRead
  match sb with
  | some sb => pure sb
  | none => crash

/-- `sb.inode_bitmap + calculate_inode_bitmap_size(&sb) + inode_page` -/
def inodeTableBlock (sb : Superblock) (inodePage : UInt64) : UInt64 :=
  sb.inodeBitmap + UInt64.ofInt (calculateInodeBitmapSize sb) + inodePage

/-- `inode_read`; `none` is the return value `-1`. -/
def inodeRead (inodeNumber : UInt64) : BlockProg (Option Inode) := do
  let sb ← superblockCopy
  let blk := inodeTableBlock sb (inodeNumber / UInt64.ofNat inodesPerPage)
  fetch 0 blk
  let pg ← page blk
  if blockType pg ≠ BlockType.inode.code then pure none
  else pure (some (Inode.ofPage pg (inodeNumber.toNat % inodesPerPage)))

/-- `inode_write`. The number is signed here; a negative one addresses a slot before the page, which
is taken as a crash. -/
def inodeWrite (node : Inode) : BlockProg ℤ := do
  let sb ← superblockCopy
  let number := node.inodeNumber.toBitVec.toInt
  let blk := inodeTableBlock sb (UInt64.ofInt (number.tdiv inodesPerPage))
  fetch 0 blk
  let pg ← page blk
  if blockType pg ≠ BlockType.inode.code then pure (-1)
  else if number < 0 then crash
  else do
    modify blk (node.toPage (number.toNat % inodesPerPage))
    writeBack 0 blk
    pure 0

/-! ## Allocating and freeing inodes -/

/-- The first statement of the loop of `inode_allocate`. -/
def nextInodeBitmap (ii : UInt64) (ibmn : ℤ) : BlockProg ℤ :=
  if ii.toNat % usableBlockSize = 0 ∧ ii ≠ 0 then do
    fetch 0 (UInt64.ofInt (ibmn + 1))
    pure (ibmn + 1)
  else pure ibmn

/-- The index that `inode_allocate` passes for inode `ii`. -/
def inodeBitIndex (sb : Superblock) (ii : UInt64) (ibmn : ℤ) : ℤ :=
  int32 (ii - (UInt64.ofInt ibmn - sb.inodeBitmap) * UInt64.ofNat usableBlockSize).toNat

/-- What `inode_allocate` does once the bit of inode `ii` is set. -/
def inodeClaim (uid gid mode : UInt32) (ii : UInt64) (ibmn : ℤ) : BlockProg ℤ := do
  let node ← inodeRead ii
  match node with
  | none => pure (-1)
  | some node => do
      let rv ← inodeWrite { node with
        inodeNumber := ii
        mode := mode
        ownerId := uid
        groupId := gid
        referenceCount := 1 }
      if rv ≠ 0 then pure (-1)
      else do
        writeBack 0 (UInt64.ofInt ibmn)
        pure ii.toNat

/-- The scan of `inode_allocate` from inode `ii` on, in the bitmap block `ibmn`. It runs as long as
the block is a bitmap; the fuel bounds the number of bits it looks at. -/
def inodeScan (sb : Superblock) (uid gid mode : UInt32) : ℕ → UInt64 → ℤ → BlockProg ℤ
  | 0, _, _ => crash
  | n + 1, ii, ibmn => do
      let pg ← page (UInt64.ofInt ibmn)
      if blockType pg ≠ BlockType.bitmap.code then
        pure (-1)
      else do
        let ibmn ← nextInodeBitmap ii ibmn
        let bit ← bitmapGet (UInt64.ofInt ibmn) (inodeBitIndex sb ii ibmn)
        if bit = 0 then do
          let rv ← bitmapPut (UInt64.ofInt ibmn) (inodeBitIndex sb ii ibmn) 1
          if rv ≠ 0 then pure (-1)
          else inodeClaim uid gid mode ii ibmn
        else inodeScan sb uid gid mode n (ii + 1) ibmn

/-- `inode_allocate`; `uid` and `gid` are those of the process. No device has more than
`total_blocks` consecutive blocks, so a scan that used up the fuel would have left it. -/
def inodeAllocate (disk : DiskInterface) (uid gid mode : UInt32) : BlockProg ℤ := do
  let sb ← superblockCopy
  let ibmn := int32 sb.inodeBitmap.toNat
  fetch 0 (UInt64.ofInt ibmn)
  inodeScan sb uid gid mode (usableBlockSize * (disk.totalBlocks.toNat + 1)) 0 ibmn

/-- `inode_free`, which returns 0 on every path. -/
def inodeFree (inodeNumber : UInt64) : BlockProg ℤ := do
  let sb ← superblockCopy
  let ibmn := int32 (sb.inodeBitmap + inodeNumber / UInt64.ofNat usableBlockSize).toNat
  fetch 0 (UInt64.ofInt ibmn)
  -- the sibling code in `inode_allocate` subtracts `sb.inode_bitmap` where this has the constant 1
  let index := inodeNumber - UInt64.ofInt (int32 ((ibmn - 1) * usableBlockSize))
  let rv ← bitmapPut (UInt64.ofInt ibmn) (int32 index.toNat) 0
  if rv ≠ 0 then
    pure 0
  else do
    let inodePage := int32 (inodeNumber / UInt64.ofNat inodesPerPage).toNat
    let blk := inodeTableBlock sb (UInt64.ofInt inodePage)
    fetch 0 blk
    let pg ← page blk
    if blockType pg ≠ BlockType.inode.code then
      pure 0
    else do
      modify blk fun pg =>
        copyIn pg (slotOffset (inodeNumber.toNat % inodesPerPage)) sizeofInode fun _ => 0
      writeBack 0 blk
      writeBack 0 (UInt64.ofInt ibmn)
      pure 0

/-! ## The blocks of a file -/

/-- `inode_get_block`: the return value, and what `*physical_block` was set to if it was. -/
def inodeGetBlock (node : Inode) (blockIndex : UInt64) : BlockProg (ℤ × Option UInt64) :=
  if h : blockIndex.toNat < 12 then
    let block := node.directBlocks[blockIndex.toNat]
    pure (if block ≠ 0 then 0 else -1, some block)
  else if blockIndex.toNat ≤ usableBlockSize / 8 then
    if node.indirectBlock = 0 then pure (-1, none)
    else do
      fetch node.inodeNumber node.indirectBlock
      let pg ← page node.indirectBlock
      if blockType pg ≠ BlockType.data.code then pure (-1, none)
      else do
        let block ← peek node.indirectBlock (4 + 8 * (blockIndex.toNat - 12 : ℕ))
        pure (0, some block)
  else pure (-1, none)

/-- `inode_set_block`: the return value and the inode it leaves. An existing indirect block is not
written to. -/
def inodeSetBlock (disk : DiskInterface) (node : Inode) (blockIndex physicalBlock : UInt64) :
    BlockProg (ℤ × Inode) :=
  if h : blockIndex.toNat < 12 then
    pure (0, { node with directBlocks := node.directBlocks.set blockIndex.toNat physicalBlock })
  else if blockIndex.toNat ≤ usableBlockSize / 8 then
    if node.indirectBlock = 0 then do
      let block ← allocPage disk
      let node := { node with indirectBlock := block }
      if block = 0 then pure (-1, node)
      else do
        fetch node.inodeNumber block
        modify block (setBlockType BlockType.data)
        poke block (4 + 8 * (blockIndex.toNat - 12 : ℕ)) physicalBlock
        pure (0, node)
    else pure (-1, node)
  else pure (-1, node)

end Nbtrfs
