import Nbtrfs.Cache.DirtyList
import Nbtrfs.Lib.LinkRing

/-!
# The block cache

Reference: `cache.c`, `lru.c`, `gdl.c`, `pci.c`, `fl.c`, `disk.c::disk_read_block`,
`disk.c::disk_write_block`, `types.h`.

`none` is an access that C leaves undefined: a NULL, dangling or never assigned pointer, an index
outside the slot array, a block number whose address lies outside the mapped file, or a signed
counter that overflows. A page that a caller gets is named by its slot: the pointer that `get_block`
returns is the `page_data` of that slot.
-/

namespace Nbtrfs

/-! ## Primary cache index -/

/-- `PCI_HM`: the chain of every bucket, block numbers with slot indices. -/
abbrev PciHm := ℕ → List (UInt64 × ℤ)

/-- `pci_lookup` -/
def pciLookup (hashmap : PciHm) (blockNumber : UInt64) : ℤ :=
  match (hashmap (hashBucket blockNumber)).find? (·.1 == blockNumber) with
  | some e => e.2
  | none => -1

/-- `pci_insert` -/
def pciInsert (hashmap : PciHm) (blockNumber : UInt64) (index : ℤ) : PciHm :=
  let k := hashBucket blockNumber
  Function.update hashmap k ((blockNumber, index) :: hashmap k)

/-- `pci_delete`. The local `prev` is assigned on the way past a node only, so it has no value when
the block is the first one of its chain; a block that is not there ends in `curr->next` with `curr`
NULL. -/
def pciDelete (hashmap : PciHm) (blockNumber : UInt64) : Option PciHm :=
  let k := hashBucket blockNumber
  match hashmap k with
  | [] => none
  | e :: es =>
      if e.1 = blockNumber then none
      else if es.any (·.1 == blockNumber) then
        some (Function.update hashmap k (e :: es.eraseP (·.1 == blockNumber)))
      else none

/-! ## Cache state -/

/-- `cache_entry_t` -/
structure CacheEntry where
  dirtyBit : Bool
  pinCount : ℤ
  blockNumber : UInt64
  inodeNumber : UInt64
  pageData : Option Bytes
  lruPos : Option ℕ
  gdlPos : Option ℕ

/-- `struct cache`: `lru_size` and `gdl_size` are the counters of the two rings. -/
structure Cache where
  cacheSize : ℕ
  cache : ℤ → CacheEntry
  pci : PciHm
  lru : LinkRing ℤ
  freeList : List ℤ
  dirtyList : DlHm
  gdl : LinkRing ℤ

/-- The cache next to the mapped file. -/
structure CachedDisk where
  image : Image
  cache : Cache

/-- The largest `int` -/
def intMax : ℤ := 2147483647

namespace Cache

/-- `cache->cache[index]` -/
def entry (c : Cache) (index : ℤ) : Option CacheEntry :=
  if 0 ≤ index ∧ index < c.cacheSize then some (c.cache index) else none

/-- Assign `cache->cache[index]`. -/
def setEntry (c : Cache) (index : ℤ) (e : CacheEntry) : Cache :=
  { c with cache := Function.update c.cache index e }

/-- `lru_push`, then `cache->lru = …` as all its callers continue -/
def lruPush (c : Cache) (index : ℤ) : Option (ℕ × Cache) :=
  if c.lru.size = intMax then none
  else (c.lru.push index).map fun r => (r.1, { c with lru := { r.2 with head := some r.1 } })

/-- `lru_pop` -/
def lruPop (c : Cache) (list : RingCell) : Option (ℤ × Cache) :=
  (c.lru.pop list).map fun r => (r.1.getD (-1), { c with lru := r.2 })

/-- `gdl_push`, then `cache->gdl = …` as its caller continues -/
def gdlPush (c : Cache) (index : ℤ) : Option (ℕ × Cache) :=
  if c.gdl.size = intMax then none
  else (c.gdl.push index).map fun r => (r.1, { c with gdl := { r.2 with head := some r.1 } })

/-- `gdl_pop` -/
def gdlPop (c : Cache) (list : RingCell) : Option (ℤ × Cache) :=
  (c.gdl.pop list).map fun r => (r.1.getD (-1), { c with gdl := r.2 })

end Cache

/-- `alloc_cache` for a given `cache_size`. The fields of an entry it does not initialise are those
of `unset`. -/
def allocCache (cacheSize : ℕ) (unset : ℤ → CacheEntry) : Cache where
  cacheSize := cacheSize
  cache index := { unset index with dirtyBit := false, pageData := none, lruPos := none }
  pci _ := []
  lru := .empty
  freeList := (List.range cacheSize).reverse.map Int.ofNat
  dirtyList _ := []
  gdl := .empty

/-! ## Operations -/

section Operations

variable (disk : DiskInterface)

/-- `disk_read_block` -/
def diskReadBlock (m : Image) (blockNum : UInt64) : Option Bytes :=
  (disk.diskGetBlock blockNum).map m

/-- `disk_write_block` -/
def diskWriteBlock (m : Image) (blockNum : UInt64) (buffer : Bytes) : Option Image :=
  (disk.diskGetBlock blockNum).map fun b => Function.update m b buffer

/-- `get_block`, the eviction of the least recently used entry. The cell that `lru_pop` clears is
the `prev` field of the head. -/
def evict (s : CachedDisk) : Option CachedDisk := do
  let lru ← s.cache.lru.head
  let (cacheIndex, c) ← s.cache.lruPop (.prevOf lru)
  let e ← c.entry cacheIndex
  if e.dirtyBit then do
    let page ← e.pageData
    let _ ← diskWriteBlock disk s.image e.blockNumber page
    none -- `*block_type` is read after `free(page_data)`
  else do
    let pci ← pciDelete c.pci e.blockNumber
    some { s with cache := { c with pci := pci, freeList := cacheIndex :: c.freeList } }

/-- `get_block`, the part that fills a slot of the free list. -/
def loadBlock (inum pnum : UInt64) (s : CachedDisk) : Option (ℤ × CachedDisk) :=
  match s.cache.freeList with
  | [] => none
  | index :: freeList => do
      let e ← s.cache.entry index
      let page ← diskReadBlock disk s.image pnum
      let e' : CacheEntry :=
        { dirtyBit := false, pinCount := 0, blockNumber := pnum, inodeNumber := inum,
          pageData := some page, lruPos := e.lruPos, gdlPos := e.gdlPos }
      let (node, c) ← Cache.lruPush { s.cache with freeList := freeList } index
      let c := c.setEntry index { e' with lruPos := some node }
      some (index, { s with cache := { c with pci := pciInsert c.pci pnum index } })

/-- `get_block`, the part for a block that slot `rv` holds. -/
def touchBlock (rv : ℤ) (s : CachedDisk) : Option (ℤ × CachedDisk) :=
  if 1 < s.cache.lru.size then do
    let e ← s.cache.entry rv
    let (cacheIndex, c) ← s.cache.lruPop (.outside e.lruPos)
    let (node, c) ← c.lruPush cacheIndex
    some (rv, { s with cache := c.setEntry rv { e with lruPos := some node } })
  else some (rv, s)

/-- `get_block` -/
def getBlock (inum pnum : UInt64) (s : CachedDisk) : Option (ℤ × CachedDisk) :=
  let rv := pciLookup s.cache.pci pnum
  if rv = -1 then
    (match s.cache.freeList with
      | [] => evict disk s
      | _ :: _ => some s).bind (loadBlock disk inum pnum)
  else touchBlock rv s

/-- `if (*block_type==BLOCK_TYPE_DATA) dl_insert(…)` for a page -/
def dlInsertData (page : Bytes) (hashmap : DlHm) (inum pnum : UInt64) (leftover : Leftover) :
    Option DlHm :=
  if blockType page = BlockType.data.code then dlInsert hashmap inum pnum leftover
  else some hashmap

/-- `if (*block_type==BLOCK_TYPE_DATA) dl_remove_block(…)` for a page -/
def dlRemoveData (page : Bytes) (hashmap : DlHm) (inum pnum : UInt64) : Option DlHm :=
  if blockType page = BlockType.data.code then dlRemoveBlock hashmap inum pnum
  else some hashmap

/-- `write_block`, the part for a block that slot `index` holds. `block_type` points into the page,
so the type that decides is that of the new content. -/
def writeEntry (buf : Bytes) (inum pnum : UInt64) (leftover : Leftover) (index : ℤ)
    (s : CachedDisk) : Option CachedDisk := do
  let e ← s.cache.entry index
  let _ ← e.pageData
  let dirtyList ← dlInsertData buf s.cache.dirtyList inum pnum leftover
  let (node, c) ← Cache.gdlPush { s.cache with dirtyList := dirtyList } index
  let e' := { e with pageData := some buf, dirtyBit := true, gdlPos := some node }
  some { s with cache := c.setEntry index e' }

/-- `write_block`; `leftover` is what `malloc` left in the node that `dl_push` may allocate. -/
def writeBlock (buf : Bytes) (inum pnum : UInt64) (leftover : Leftover) (s : CachedDisk) :
    Option CachedDisk :=
  let index := pciLookup s.cache.pci pnum
  if index = -1 then do
    let (_, s) ← getBlock disk inum pnum s
    writeEntry buf inum pnum leftover (pciLookup s.cache.pci pnum) s
  else writeEntry buf inum pnum leftover index s

/-- `cache_fsync`, one block of the list. -/
def fsyncBlock (blockNumber : UInt64) (s : CachedDisk) : Option CachedDisk := do
  let index := pciLookup s.cache.pci blockNumber
  let e ← s.cache.entry index
  let page ← e.pageData
  let image ← diskWriteBlock disk s.image e.blockNumber page
  let (_, c) ← s.cache.gdlPop (.outside e.gdlPos)
  some ⟨image, c.setEntry index { e with dirtyBit := false, gdlPos := none }⟩

/-- `cache_fsync`, the loop over the list; the recursive call is on `dl_pop(list)`. -/
def fsyncLoop : DlChain → CachedDisk → Option CachedDisk
  | .null, s => some s
  | .unset, _ => none
  | .node dlIndex blockNumber next, s => do
      let s ← fsyncBlock disk blockNumber s
      if 1 < dlIndex then fsyncLoop next s else some s

/-- `cache_fsync` -/
def cacheFsync (inum : UInt64) (s : CachedDisk) : Option CachedDisk :=
  match dlLookup s.cache.dirtyList inum with
  | none => some s
  | some hmlist => do
      let s ← fsyncLoop disk hmlist.list s
      some { s with cache := { s.cache with dirtyList := dlDelete s.cache.dirtyList inum } }

/-- `cache_sync`, the write-back of the slot that was taken off the ring. -/
def syncEntry (index : ℤ) (s : CachedDisk) : Option CachedDisk := do
  let e ← s.cache.entry index
  let page ← e.pageData
  let image ← diskWriteBlock disk s.image e.blockNumber page
  let dirtyList ← dlRemoveData page s.cache.dirtyList e.inodeNumber e.blockNumber
  let c := { s.cache with dirtyList := dirtyList }
  some ⟨image, c.setEntry index { e with dirtyBit := false, gdlPos := none }⟩

/-- `cache_sync`, the loop, for at most `fuel` turns. -/
def syncLoop : ℕ → CachedDisk → Option CachedDisk
  | 0, _ => none
  | fuel + 1, s =>
      match s.cache.gdl.head with
      | none => some s
      | some gdl =>
          if 0 < s.cache.gdl.size then do
            let head ← s.cache.gdl.nodes gdl
            let (index, c) ← s.cache.gdlPop (.outside head.prev)
            if index < 0 ∨ c.cacheSize ≤ index then some { s with cache := c }
            else do
              let s ← syncEntry disk index { s with cache := c }
              syncLoop fuel s
          else some s

/-- `cache_sync`. Every turn that does not leave the loop takes one off `gdl_size`. -/
def cacheSync (s : CachedDisk) : Option CachedDisk :=
  syncLoop disk (s.cache.gdl.size.toNat + 1) s

end Operations

end Nbtrfs
