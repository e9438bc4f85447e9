import Nbtrfs.Readers
import Nbtrfs.Ownership

/-!
# File data on a consistent volume

Reference: `inode.c`, `fuse.c::nbtrfs_write`.

Reading and writing inodes, looking up and setting entries of the block map, and the loop of
`nbtrfs_write` keep to the protocol of `Ownership`. A page is bookkept for the entry it will be entered
in as soon as `alloc_page` hands it out, so a copy of an inode in hand stays valid whatever happens in
between.
-/

namespace Nbtrfs

open BlockProg Bytes

variable {disk : DiskInterface} {T : Scope} {E : Set UInt64} {own : Owners} {m m' : Image}
  {g : PageLedger} {node : Inode} {p index block : UInt64} {n i b f : ℕ} {α β : Type}

/-! ## Block numbers -/

/-- A number of the volume that reaches the device reaches the block of that number. -/
theorem Sound.eq_toNat (S : Sound disk m) (hp : p.toNat < disk.totalBlocks.toNat)
    (haddr : disk.mapping.addr p = some b) : b = p.toNat := by
  have hnear := S.near
  exact DiskInterface.eq_of_diskGetBlock haddr (by omega)

/-- A block that reaches the device is an addressable one. -/
theorem Sound.lt_addressable (S : Sound disk m) (hp : p.toNat < disk.totalBlocks.toNat)
    (haddr : disk.mapping.addr p = some b) : p.toNat < disk.addressable := by
  have hnear := S.near
  exact lt_min hp (DiskInterface.lt_of_diskGetBlock haddr (by omega))

/-- Inode pages lie in the table. -/
theorem Consistent.table_of_type (C : Consistent disk own m) (hb : b < disk.totalBlocks.toNat)
    (htype : blockType (m b) = BlockType.inode.code) :
    inodeTableStart disk.totalBlocks.toNat ≤ b ∧ b < dataStart disk.totalBlocks.toNat := by
  have hother : ∀ t : BlockType, t ≠ .inode → blockType (m b) ≠ t.code := fun t ht h =>
    ht (BlockType.code_injective (h.symm.trans htype))
  constructor
  · by_contra hlt
    by_cases hzero : b = 0
    · rw [hzero] at hother
      exact hother .super (by decide) C.sound.layout.super
    · exact hother .bitmap (by decide) (C.sound.layout.bitmap b (by omega) (by omega))
  · by_contra hge
    exact (C.pages b (by omega) hb).elim (hother .data (by decide)) (hother .btreeNode (by decide))

/-- Bitmap pages lie before the table. -/
theorem Consistent.lt_of_type (C : Consistent disk own m) (hb : b < disk.totalBlocks.toNat)
    (htype : blockType (m b) = BlockType.bitmap.code) : b < inodeTableStart disk.totalBlocks.toNat := by
  have hother : ∀ t : BlockType, t ≠ .bitmap → blockType (m b) ≠ t.code := fun t ht h =>
    ht (BlockType.code_injective (h.symm.trans htype))
  by_contra hge
  by_cases htable : b < dataStart disk.totalBlocks.toNat
  · exact hother .inode (by decide) (C.sound.layout.table b (by omega) htable)
  · exact (C.pages b (by omega) hb).elim (hother .data (by decide)) (hother .btreeNode (by decide))

/-! ## Inodes -/

/-- Whatever number `inode_read` is given, the inode that it finds is that of a slot. -/
theorem ensures_inodeRead_slot (C : Consistent disk own m) (number : UInt64) :
    Ensures disk.mapping (inodeRead number) m fun read _ => ∀ node, read = some node →
      ∃ n < inodeCapacity disk.totalBlocks.toNat, node = inodeAt disk m n := by
  have D := C.sound.layout.toDescribed
  cases haddr : disk.mapping.addr (UInt64.ofNat (slotBlock disk number.toNat)) with
  | none => exact ensures_of_none (D.run_inodeRead_unreachable haddr)
  | some b =>
      refine ensures_of_run (D.run_inodeRead haddr) fun node hread => ?_
      split at hread
      next htype =>
        obtain ⟨hlo, hhi⟩ := C.table_of_type (DiskInterface.lt_of_mapping_addr haddr) htype
        have hlt : number.toNat % inodesPerPage < inodesPerPage := Nat.mod_lt _ (by decide)
        refine ⟨inodesPerPage * (b - inodeTableStart disk.totalBlocks.toNat) +
          number.toNat % inodesPerPage, ?_, ?_⟩
        · rw [inodeCapacity]
          rw [dataStart] at hhi
          have hpage : b - inodeTableStart disk.totalBlocks.toNat + 1 ≤
            inodeTableBlocks disk.totalBlocks.toNat := by omega
          calc inodesPerPage * (b - inodeTableStart disk.totalBlocks.toNat) +
              number.toNat % inodesPerPage <
              inodesPerPage * (b - inodeTableStart disk.totalBlocks.toNat + 1) := by
                rw [Nat.mul_add, Nat.mul_one]
                omega
            _ ≤ _ := Nat.mul_le_mul_left _ hpage
        · rw [inodeAt, slotBlock, Nat.mul_add_div (by decide), Nat.div_eq_of_lt hlt, Nat.add_zero,
            Nat.add_sub_cancel' hlo, Nat.mul_add_mod, Nat.mod_eq_of_lt hlt]
          exact (Option.some.inj hread).symm
      next => cases hread

theorem upholds_inodeRead (number : UInt64) :
    Upholds disk.mapping (ownership disk T E) (inodeRead number) own m g fun read own' m' g' =>
      own' = own ∧ m' = m ∧ PageLedger.Grows Allowance.none g g' ∧
        ∀ node, read = some node → Carries disk own m node := by
  refine Upholds.read (reads_inodeRead number) fun C => ?_
  refine (ensures_inodeRead_slot C number).mono fun read _ h node hread => ?_
  obtain ⟨n, hn, rfl⟩ := h node hread
  exact (C.inodes n hn).1

theorem upholds_inodeCopy (number : UInt64) :
    Upholds disk.mapping (ownership disk T E) (inodeCopy number) own m g fun node own' m' g' =>
      own' = own ∧ m' = m ∧ PageLedger.Grows Allowance.none g g' ∧ Carries disk own m node := by
  refine (upholds_inodeRead number).bind fun read own' m' g' _ _ ⟨hown, hm, hgrow, hread⟩ => ?_
  cases read with
  | none => exact Upholds.crash
  | some node => exact Upholds.pure ⟨hown, hm, hgrow, hread node rfl⟩

/-- `inode_write` stores an inode whose pointers are accounted for. -/
theorem upholds_inodeWrite (hnode : Carries disk own m node)
    (hT : node.inodeNumber.toNat ∈ T.inodes) :
    Upholds disk.mapping (ownership disk T E) (inodeWrite node) own m g fun rv own' m' _ =>
      rv = 0 ∧ own' = own ∧ ∀ b, dataStart disk.totalBlocks.toNat ≤ b → m' b = m b := by
  have htable : tableNumbers disk ⊆ stored disk own m := fun q hq => Or.inl hq.1
  refine Upholds.of_tidy (D := Allowance.only (stored disk own m)) fun C => ?_
  refine (tidy_inodeWrite C.sound.layout node hnode.number htable).mono fun rv m' _ _ ⟨hrv, hm⟩ => ?_
  subst hm
  obtain ⟨C', hkeeps⟩ := C.putInode hnode hT
  refine ⟨own, C', hkeeps, Allowance.only_le ((ownership disk T E).grow hkeeps).2, hrv, rfl,
    fun b hb => Function.update_of_ne ?_ _ _⟩
  have hslot := slotBlock_lt hnode.number
  omega

/-! ## Pages -/

/-- A page that `alloc_page` returns is bookkept for an entry right away. It is blank. -/
theorem upholds_allocPage (n i : ℕ) :
    Upholds disk.mapping (ownership disk T E) (allocPage disk) own m g fun p own' m' _ =>
      (p ≠ 0 → own' p.toNat = some (n, .entry i) ∧ (∀ o < blockSize, m' p.toNat o = 0)) ∧
        ∀ c, own c ≠ none → m' c = m c := by
  refine Upholds.of_neat neat_allocPage (fun own m q hq => ?_) fun C => ?_
  · exact Or.inl (lt_of_lt_of_le hq ((inodeBitmapStart_le _).trans (inodeTableStart_le _)))
  · rcases allocPage_cases C.sound.layout.bitmapTo with ⟨f, hf, hclear, -, hrun⟩ | ⟨-, hrun⟩
    · have hbehind := C.behind_of_clear hclear
      have hstart : inodeBitmapStart disk.totalBlocks.toNat =
        1 + blockBitmapBlocks disk.totalBlocks.toNat := rfl
      have hbitmap := inodeBitmapStart_le disk.totalBlocks.toNat
      have htable := inodeTableStart_le disk.totalBlocks.toNat
      have htotal := total_lt disk
      have hnat : (UInt64.ofNat f).toNat = f := toNat_ofNat_block (by omega)
      have hpage : ∀ c, dataStart disk.totalBlocks.toNat ≤ c → takeBlock m f c = m c := fun c hc =>
        takeBlock_of_behind hf (by omega)
      have hown := C.own_of_clear hclear
      obtain ⟨C', hkeeps⟩ := C.takeBlock (T := T) hf
      have hdata : DataBlock disk (takeBlock m f) f :=
        ⟨hbehind, hf, by rw [blockBit_takeBlock, if_pos rfl], by
          rw [hpage f hbehind, C.type_of_clear hf hclear]⟩
      refine ensures_of_run hrun ⟨_, C'.claim (p := (n, .entry i)) hown hdata,
        hkeeps.claim hown hclear, fun _ => ?_, fun c hc => ?_⟩
      · rw [hnat, Function.update_self, hpage f hbehind]
        exact ⟨rfl, C.free f hbehind hf hclear⟩
      · obtain ⟨q, hq⟩ := Option.ne_none_iff_exists'.mp hc
        exact hpage c (C.owned hq).behind
    · exact ensures_of_run hrun ⟨own, C, Keeps.refl own m, fun h => absurd rfl h, fun _ _ => rfl⟩

/-- A block that holds data may be announced. -/
theorem mem_stored (C : Consistent disk own m) (hp : own p.toNat = some (n, .entry i))
    (haddr : disk.mapping.addr p = some b) : p ∈ stored disk own m := by
  have hb := C.sound.eq_toNat (C.owned hp).lt haddr
  exact Or.inr ⟨b, haddr, Or.inr ⟨n, i, by rw [hb, hp]⟩⟩

/-- What a change of a data page keeps. -/
theorem Consistent.editPage (C : Consistent disk own m) {h : Bytes → Bytes}
    (hp : own p.toNat = some (n, .entry i)) (hT : n ∈ T.inodes)
    (htype : ∀ pg, blockType pg = BlockType.data.code → blockType (h pg) = BlockType.data.code)
    (haddr : disk.mapping.addr p = some b) : b = p.toNat ∧
      Consistent disk own (Function.update m b (h (m b))) ∧
      Keeps disk T own m own (Function.update m b (h (m b))) := by
  have hblock := C.owned hp
  obtain rfl := C.sound.eq_toNat hblock.lt haddr
  refine ⟨rfl, C.updatePage _ hblock.behind (fun _ => hblock.taken) (fun hnode => ?_)
    (Or.inl ⟨hblock.lt, htype _ hblock.type⟩) fun q hq => ?_⟩
  · exact absurd (BlockType.code_injective (hblock.type.symm.trans hnode)) (by decide)
  · rw [hp] at hq
    exact ⟨n, hT, i, (Option.some.inj hq).symm⟩

/-- A data page in hand is changed, and announced before or later. -/
theorem upholds_modify {h : Bytes → Bytes} (hp : own p.toNat = some (n, .entry i)) (hT : n ∈ T.inodes)
    (htype : ∀ pg, blockType pg = BlockType.data.code → blockType (h pg) = BlockType.data.code)
    (hheld : p ∈ g.held) (hE : p ∈ E ∨ p ∈ g.announced) :
    Upholds disk.mapping (ownership disk T E) (modify p h) own m g fun _ own' m' _ =>
      own' = own ∧ m' = Function.update m p.toNat (h (m p.toNat)) := by
  refine Upholds.modify hheld (hE.imp_left Or.inr) fun c haddr C => ?_
  obtain ⟨rfl, C', hkeeps⟩ := Consistent.editPage C hp hT htype haddr
  exact ⟨own, C', hkeeps, rfl, rfl⟩

/-- A data page in hand is changed and announced. -/
theorem upholds_modify_writeBack {h : Bytes → Bytes} {k : Unit → BlockProg β} {j : UInt64}
    {S : β → Owners → Image → PageLedger → Prop} (hp : own p.toNat = some (n, .entry i))
    (hT : n ∈ T.inodes)
    (htype : ∀ pg, blockType pg = BlockType.data.code → blockType (h pg) = BlockType.data.code)
    (hheld : p ∈ g.held)
    (hk : ∀ m' g', Keeps disk T own m own m' → g.held ⊆ g'.held → p ∈ g'.announced →
      Upholds disk.mapping (ownership disk T E) (k ()) own m' g' S) :
    Upholds disk.mapping (ownership disk T E) (modify p h >>= fun _ => writeBack j p >>= k) own m g
      S := by
  refine Upholds.modify_writeBack_bind (E := fun own' _ => own' = own) hheld (fun c haddr C => ?_)
    fun own' m' g' hgrow hkeeps _ hann hown => ?_
  · obtain ⟨-, C', hkeeps⟩ := Consistent.editPage C hp hT htype haddr
    exact ⟨own, C', hkeeps, mem_stored C' hp haddr, rfl⟩
  · subst hown
    exact hk m' g' hkeeps hgrow.held hann

/-! ## The block map -/

/-- A blank page lists no block. -/
theorem load64_entry_of_blank {pg : Bytes} (hblank : ∀ o < blockSize, pg o = 0) (hi : i ≤ maxIndex) :
    load64 pg (entryOffset i) = 0 := by
  have hmax : maxIndex = 511 := rfl
  have hzeros : load64 pg (entryOffset i) = load64 (fun _ => 0) (entryOffset i) :=
    load64_congr fun o ho => hblank _ (by
      simp only [entryOffset, blockSize]
      omega)
  rw [hzeros]
  simp [load64, leLoad]

/-- What `inode_get_block` finds is the pointer, or nothing. -/
theorem ensures_inodeGetBlock (C : Consistent disk own m) {k : ℕ} (hnode : Owns own m k node) :
    Ensures disk.mapping (inodeGetBlock node index) m fun r _ => ∀ q, r.2 = some q → q ≠ 0 →
      index.toNat ≤ maxIndex ∧ q = blockAt m node index.toNat := by
  have hmax : maxIndex = 511 := rfl
  by_cases hdirect : index.toNat < 12
  · refine ensures_of_run (run_inodeGetBlock_direct hdirect) fun q hq _ => ⟨by omega, ?_⟩
    rw [blockAt_of_lt hdirect]
    exact (Option.some.inj hq).symm
  · by_cases hpast : maxIndex < index.toNat
    · refine ensures_of_run (run_inodeGetBlock_past hpast) fun q hq => ?_
      cases hq
    · by_cases hzero : node.indirectBlock = 0
      · refine ensures_of_run (run_inodeGetBlock_none hdirect hzero) fun q hq => ?_
        cases hq
      · have hblock := C.owned (hnode.indirect hzero)
        cases haddr : disk.mapping.addr node.indirectBlock with
        | none =>
            rw [inodeGetBlock, dif_neg hdirect, if_pos (Nat.le_of_not_lt hpast), if_neg hzero]
            refine ensures_fetch_bind (ensures_page_bind fun b hb => ?_)
            rw [haddr] at hb
            cases hb
        | some b =>
            obtain rfl := C.sound.eq_toNat hblock.lt haddr
            refine ensures_of_run (run_inodeGetBlock_indirect hdirect (Nat.le_of_not_lt hpast) hzero
              haddr hblock.type) fun q hq _ => ⟨Nat.le_of_not_lt hpast, ?_⟩
            rw [blockAt_of_ne hdirect hzero]
            exact (Option.some.inj hq).symm

/-- `direct_blocks[0]`, the first block of a directory. -/
def Inode.firstBlock (node : Inode) : UInt64 := node.directBlocks.get ⟨0, Nat.succ_pos 11⟩

theorem inodeGetBlock_zero (node : Inode) : inodeGetBlock node 0 =
    pure (if node.firstBlock ≠ 0 then 0 else -1, some node.firstBlock) :=
  dif_pos (by decide)

/-- A pointer that `inode_get_block` finds leads to a block that was taken for it. -/
theorem upholds_inodeGetBlock (hnode : Carries disk own m node) (index : UInt64) :
    Upholds disk.mapping (ownership disk T E) (inodeGetBlock node index) own m g fun r own' m' g' =>
      own' = own ∧ m' = m ∧ PageLedger.Grows Allowance.none g g' ∧
        (∀ q, r.2 = some q → q ≠ 0 →
          own q.toNat = some (node.inodeNumber.toNat, .entry index.toNat)) ∧
        (index = 0 → r.2 = some node.firstBlock) := by
  refine Upholds.read (reads_inodeGetBlock node index) fun C r m' hrun => ⟨fun q hq hne => ?_, ?_⟩
  · obtain ⟨hi, rfl⟩ := ensures_inodeGetBlock C hnode.owns r m' hrun q hq hne
    exact hnode.owns.entry index.toNat hi hne
  · rintro rfl
    rw [inodeGetBlock_zero] at hrun
    obtain ⟨rfl, rfl⟩ := Prod.mk.inj (Option.some.inj hrun)
    rfl

/-- A pointer to a block that was taken for it may be entered in the inode. -/
theorem Carries.setDirect (hnode : Carries disk own m node) (hi : i < 12)
    (hblock : own block.toNat = some (node.inodeNumber.toNat, .entry i)) :
    Carries disk own m { node with directBlocks := node.directBlocks.set i block } := by
  refine ⟨hnode.number, fun j hj hne => ?_, hnode.owns.indirect⟩
  by_cases hdirect : j < 12
  · rw [blockAt_of_lt hdirect] at hne ⊢
    by_cases hji : i = j
    · subst hji
      simpa using hblock
    · have hget : (node.directBlocks.set i block)[j] = node.directBlocks[j] :=
        Vector.getElem_set_ne _ _ hji
      rw [hget] at hne ⊢
      have howns := hnode.owns.entry j hj
      rw [blockAt_of_lt hdirect] at howns
      exact howns hne
  · have hsame : blockAt m { node with directBlocks := node.directBlocks.set i block } j =
        blockAt m node j := by
      simp only [blockAt, dif_neg hdirect]
    rw [hsame] at hne ⊢
    exact hnode.owns.entry j hj hne

/-- A new indirect block on a blank page holds the one entry it was made for. -/
theorem Carries.setIndirect (hnode : Carries disk own m node) (hi : 12 ≤ i)
    (hf : f < 1099511627776) (hown : own f = none) (hblank : ∀ o < blockSize, m f o = 0)
    (hblock : own block.toNat = some (node.inodeNumber.toNat, .entry i))
    (hpage : m' f = indirectPage (m f) i block) :
    Carries disk (Function.update own f (some (node.inodeNumber.toNat, .indirect))) m'
      { node with indirectBlock := UInt64.ofNat f } := by
  have hnat : (UInt64.ofNat f).toNat = f := toNat_ofNat_block hf
  have howner := Keeps.owner_update (p := (node.inodeNumber.toNat, .indirect)) hown
  refine ⟨hnode.number, fun j hj hne => ?_, fun _ => ?_⟩
  · by_cases hdirect : j < 12
    · rw [blockAt_of_lt hdirect] at hne ⊢
      have howns := hnode.owns.entry j hj
      rw [blockAt_of_lt hdirect] at howns
      exact howner _ _ (howns hne)
    · have hmax : maxIndex = 511 := rfl
      by_cases hnz : UInt64.ofNat f = 0
      · rw [blockAt_of_zero hdirect hnz] at hne
        exact absurd rfl hne
      rw [blockAt_of_ne hdirect hnz] at hne ⊢
      have hentry : load64 (m f) (entryOffset j) = 0 := load64_entry_of_blank hblank hj
      simp only [hnat, hpage, load64_indirectPage hi (Nat.le_of_not_lt hdirect)] at hne ⊢
      split at hne
      next hji =>
        rw [if_pos hji, hji]
        exact howner _ _ hblock
      next => exact absurd hentry hne
  · simp only [hnat, Function.update_self]

/-- The image side of a new indirect block: the next free page is taken, filled in, and bookkept. -/
theorem Consistent.addIndirect (C : Consistent disk own m) (hf : f < disk.totalBlocks.toNat)
    (hclear : blockBit m f = false) (k i : ℕ) (block : UInt64) :
    Consistent disk (Function.update own f (some (k, .indirect)))
        (Function.update (Nbtrfs.takeBlock m f) f (indirectPage (m f) i block)) ∧
      Keeps disk T own m (Function.update own f (some (k, .indirect)))
        (Function.update (Nbtrfs.takeBlock m f) f (indirectPage (m f) i block)) := by
  have hbehind := C.behind_of_clear hclear
  have hown := C.own_of_clear hclear
  have hstart : inodeBitmapStart disk.totalBlocks.toNat =
    1 + blockBitmapBlocks disk.totalBlocks.toNat := rfl
  have hbitmap := inodeBitmapStart_le disk.totalBlocks.toNat
  have htable := inodeTableStart_le disk.totalBlocks.toNat
  have htaken : blockBit (Nbtrfs.takeBlock m f) f = true := by rw [blockBit_takeBlock, if_pos rfl]
  have htype : blockType (Nbtrfs.takeBlock m f f) = BlockType.data.code := by
    rw [blockType_takeBlock, C.type_of_clear hf hclear]
  obtain ⟨C₁, hkeeps₁⟩ := C.takeBlock (T := T) hf
  obtain ⟨C₂, hkeeps₂⟩ := C₁.updatePage (T := T) (indirectPage (m f) i block) hbehind
    (fun _ => htaken)
    (fun hnode => absurd (BlockType.code_injective (htype.symm.trans hnode)) (by decide))
    (Or.inl ⟨hf, blockType_indirectPage⟩) fun p hp => by
      rw [hown] at hp
      cases hp
  have hdata : DataBlock disk (Function.update (Nbtrfs.takeBlock m f) f (indirectPage (m f) i block)) f := by
    refine ⟨hbehind, hf, ?_, by rw [Function.update_self, blockType_indirectPage]⟩
    rw [BitmapArea.bit_congr (fun c hc => Function.update_of_ne (by omega) _ _) hf, htaken]
  exact ⟨C₂.claim (p := (k, .indirect)) hown hdata, (hkeeps₁.trans hkeeps₂).claim hown hclear⟩

/-- What holds of an inode after `inode_set_block`. -/
structure AfterSet (disk : DiskInterface) (own : Owners) (m : Image) (node : Inode)
    (index block : UInt64) (own' : Owners) (m' : Image) (r : ℤ × Inode) : Prop where
  carries : Carries disk own' m' r.2
  number : r.2.inodeNumber = node.inodeNumber
  first : r.2.firstBlock = if index = 0 then block else node.firstBlock
  page : ∀ c, own c ≠ none → m' c = m c

/-- The new indirect block is the only page that `inode_set_block` touches itself. -/
private theorem tidy_inodeSetBlock {D : Allowance} (hindex : ¬index.toNat < 12)
    (hzero : node.indirectBlock = 0) (hD : bitmapNumbers disk ⊆ D.announced)
    (halloc : ∀ p m', run disk.mapping (allocPage disk) m = some (p, m') → p ≠ 0 → p ∈ D.owed) :
    Tidy disk.mapping D (inodeSetBlock disk node index block) m g fun _ _ _ => True := by
  rw [inodeSetBlock, dif_neg hindex, if_pos hzero]
  refine Tidy.ite (fun hmax => ?_) fun _ => Tidy.pure trivial
  have hresult : Ensures disk.mapping (allocPage disk) m fun p _ => p ≠ 0 → p ∈ D.owed :=
    fun p m' => halloc p m'
  refine ((neat_allocPage.tidy hD).ensures hresult).bind ?_
  rintro p _ _ _ ⟨hp, -⟩
  refine Tidy.ite (fun _ => Tidy.pure trivial) fun hne => ?_
  refine Tidy.fetch.bind ?_
  rintro _ _ _ _ ⟨-, hheld⟩
  refine (Tidy.modify hheld (Or.inl (hp hne))).bind fun _ _ _ _ hheld => ?_
  obtain ⟨hlo, hhi⟩ := entry_bounds disk hmax
  exact (Tidy.poke hheld hlo hhi (Or.inl (hp hne))).bind fun _ _ _ _ _ => Tidy.pure trivial

/-- The image after `inode_set_block` took the page `f` for the indirect block. -/
private theorem ensures_newIndirect (C : Consistent disk own m) (hnode : Carries disk own m node)
    (hblock : own block.toNat = some (node.inodeNumber.toNat, .entry index.toNat))
    (hdirect : ¬index.toNat < 12) (hmax : index.toNat ≤ maxIndex) (hzero : node.indirectBlock = 0)
    (hf : f < disk.totalBlocks.toNat) (hclear : blockBit m f = false)
    (hbelow : ∀ b < f, blockBit m b = true) :
    Ensures disk.mapping (inodeSetBlock disk node index block) m fun r m' =>
      ∃ own', Consistent disk own' m' ∧ Keeps disk T own m own' m' ∧
        own' f = some (node.inodeNumber.toNat, .indirect) ∧
        AfterSet disk own m node index block own' m' r := by
  have hbehind := C.behind_of_clear hclear
  have hstart : inodeBitmapStart disk.totalBlocks.toNat =
    1 + blockBitmapBlocks disk.totalBlocks.toNat := rfl
  have hbitmap := inodeBitmapStart_le disk.totalBlocks.toNat
  have htable := inodeTableStart_le disk.totalBlocks.toNat
  have htotal := total_lt disk
  have hnat : (UInt64.ofNat f).toNat = f := toNat_ofNat_block (by omega)
  have A : BitmapArea disk m := ⟨fun c h1 hc => C.sound.layout.bitmap c h1 (by omega),
    fun c hc => C.sound.metadata c (by omega)⟩
  cases haddr : disk.mapping.addr (UInt64.ofNat f) with
  | none =>
      -- the page is out of reach, and clearing it is a crash
      have hrun := run_allocPage (C.sound.layout.bitmapTo.mono (by
        have := le_blockBitmapBlocks disk.totalBlocks.toNat
        omega)) hf hclear hbelow
      rw [inodeSetBlock, dif_neg hdirect, if_pos hmax, if_pos hzero]
      refine ensures_bind (ensures_of_run hrun ?_)
      simp only [if_neg (ofNat_block_ne_zero (b := f) (by omega) (by omega))]
      refine ensures_fetch_bind (ensures_bind (ensures_modify fun b hb => ?_))
      rw [haddr] at hb
      cases hb
  | some b =>
      have hlt := C.sound.lt_addressable (by rwa [hnat]) haddr
      rw [hnat] at hlt
      refine ensures_of_run (run_inodeSetBlock_create A ⟨hlt, hclear, hbelow⟩ hdirect hmax hzero) ?_
      have hown := C.own_of_clear hclear
      obtain ⟨C', hkeeps⟩ := C.addIndirect (T := T) hf hclear node.inodeNumber.toNat index.toNat block
      have hindex : index ≠ 0 := fun h => hdirect (by rw [h]; decide)
      refine ⟨_, C', hkeeps, Function.update_self _ _ _, ?_, rfl, (if_neg hindex).symm,
        fun c hc => ?_⟩
      · exact hnode.setIndirect (by omega) (by omega) hown (C.free f hbehind hf hclear) hblock
          (Function.update_self _ _ _)
      · obtain ⟨q, hq⟩ := Option.ne_none_iff_exists'.mp hc
        have hcf : c ≠ f := by
          rintro rfl
          exact hc hown
        have hdata := (C.owned hq).behind
        rw [Function.update_of_ne hcf]
        exact takeBlock_of_behind hf (by omega)

/-- On a full volume `inode_set_block` refuses the entry. -/
private theorem ensures_inodeSetBlock_full (hdirect : ¬index.toNat < 12)
    (hmax : index.toNat ≤ maxIndex) (hzero : node.indirectBlock = 0)
    (hrun : run disk.mapping (allocPage disk) m = some (0, m)) :
    Ensures disk.mapping (inodeSetBlock disk node index block) m fun r m' =>
      m' = m ∧ r = (-1, node) := by
  rw [inodeSetBlock, dif_neg hdirect, if_pos hmax, if_pos hzero]
  refine ensures_bind (ensures_of_run hrun (ensures_pure ⟨rfl, ?_⟩))
  rw [← hzero]

/-- A block that was taken for an entry of the block map is entered there, or refused. -/
theorem upholds_inodeSetBlock (hnode : Carries disk own m node)
    (hblock : own block.toNat = some (node.inodeNumber.toNat, .entry index.toNat)) :
    Upholds disk.mapping (ownership disk T E) (inodeSetBlock disk node index block) own m g
      fun r own' m' _ => AfterSet disk own m node index block own' m' r := by
  have hsame : ¬index.toNat < 12 → AfterSet disk own m node index block own m (-1, node) :=
    fun hdirect => ⟨hnode, rfl, (if_neg fun h => hdirect (by rw [h]; decide)).symm, fun _ _ => rfl⟩
  have hstored : ∀ own' m', bitmapNumbers disk ⊆ ((ownership disk T E).allowance own' m').announced :=
    fun own' m' q hq => Or.inl (lt_of_lt_of_le hq
      ((inodeBitmapStart_le _).trans (inodeTableStart_le _)))
  by_cases hdirect : index.toNat < 12
  · rw [inodeSetBlock, dif_pos hdirect]
    refine Upholds.pure ⟨hnode.setDirect hdirect hblock, rfl, ?_, fun _ _ => rfl⟩
    split
    next hindex =>
      subst hindex
      exact Vector.getElem_set_self hdirect
    next hindex =>
      exact Vector.getElem_set_ne hdirect _ fun h => hindex (UInt64.toNat_inj.mp h)
  -- an indirect block that is there already gets no new entries
  by_cases hzero : node.indirectBlock = 0
  swap
  · rw [inodeSetBlock, dif_neg hdirect, if_neg hzero, ite_self]
    exact Upholds.pure (hsame hdirect)
  by_cases hmax : index.toNat ≤ maxIndex
  swap
  · rw [inodeSetBlock, dif_neg hdirect, if_neg hmax]
    exact Upholds.pure (hsame hdirect)
  refine Upholds.of_inv fun C => ?_
  rcases allocPage_cases C.sound.layout.bitmapTo with ⟨f, hf, hclear, hbelow, hrun⟩ | ⟨-, hrun⟩
  · have htotal := total_lt disk
    have hnat : (UInt64.ofNat f).toNat = f := toNat_ofNat_block (by omega)
    refine Upholds.of_tidy (D := ⟨{UInt64.ofNat f}, bitmapNumbers disk⟩) fun _ => ?_
    have htidy : Tidy disk.mapping ⟨{UInt64.ofNat f}, bitmapNumbers disk⟩
        (inodeSetBlock disk node index block) m g fun _ _ _ => True :=
      tidy_inodeSetBlock hdirect hzero subset_rfl fun p m' h _ => by
        rw [hrun] at h
        exact (Prod.mk.inj (Option.some.inj h)).1.symm
    refine (htidy.ensures (ensures_newIndirect (T := T) C hnode hblock hdirect hmax hzero hf hclear
      hbelow)).mono ?_
    rintro r m' _ _ ⟨⟨own', C', hkeeps, hown, hset⟩, -⟩
    refine ⟨own', C', hkeeps, ⟨?_, hstored own' m'⟩, hset⟩
    rintro q rfl
    exact Or.inl ⟨node.inodeNumber.toNat, by rw [hnat, hown]⟩
  · refine Upholds.of_tidy (D := ⟨∅, bitmapNumbers disk⟩) fun _ => ?_
    have htidy : Tidy disk.mapping ⟨∅, bitmapNumbers disk⟩
        (inodeSetBlock disk node index block) m g fun _ _ _ => True :=
      tidy_inodeSetBlock hdirect hzero subset_rfl fun p m' h hne => by
        rw [hrun] at h
        exact absurd (Prod.mk.inj (Option.some.inj h)).1.symm hne
    refine (htidy.ensures (ensures_inodeSetBlock_full hdirect hmax hzero hrun)).mono ?_
    rintro r m' _ _ ⟨⟨rfl, rfl⟩, -⟩
    exact ⟨own, C, Keeps.refl own _, ⟨Set.empty_subset _, hstored own _⟩, hsame hdirect⟩

/-! ## Writing data -/

/-- A page that is owed by what comes next, which announces it. -/
theorem Upholds.settlePage {q : BlockProg α} {Q : α → Owners → Image → PageLedger → Prop}
    (h : Upholds disk.mapping (ownership disk T (insert p E)) q own m g fun a own' m' g' =>
      p ∈ g'.announced ∧ Q a own' m' g') : Upholds disk.mapping (ownership disk T E) q own m g Q := by
  refine h.settle (fun _ _ => Iff.rfl) (fun _ _ _ _ hkeeps => hkeeps) fun own m => ⟨?_, subset_rfl⟩
  show indirectBlocks own ∪ insert p E ⊆ insert p (indirectBlocks own ∪ E)
  rw [Set.union_insert]

/-- What comes after `writablePage` has a block of the file, and may find its page changed but not
announced so far. -/
theorem writablePage_bind {k : Option (Inode × UInt64) → BlockProg β}
    {S : β → Owners → Image → PageLedger → Prop} (hnode : Carries disk own m node)
    (hT : node.inodeNumber.toNat ∈ T.inodes)
    (hnone : ∀ own' m' g', Upholds disk.mapping (ownership disk T E) (k none) own' m' g' S)
    (hsome : ∀ E' node' pnum own' m' g', Carries disk own' m' node' →
      node'.inodeNumber = node.inodeNumber →
      (∃ i, own' pnum.toNat = some (node.inodeNumber.toNat, .entry i)) →
      Upholds disk.mapping (ownership disk T E') (k (some (node', pnum))) own' m' g'
        fun a own'' m'' g'' => pnum ∈ g''.announced ∧ S a own'' m'' g'') :
    Upholds disk.mapping (ownership disk T E) (writablePage disk node index >>= k) own m g S := by
  refine Upholds.assoc ((upholds_inodeGetBlock hnode index).bind ?_)
  rintro ⟨rv, mapped⟩ own' m' g' - - ⟨rfl, rfl, -, hmapped, -⟩
  have hmapped' : mapped.getD 0 ≠ 0 → own' (mapped.getD 0).toNat =
      some (node.inodeNumber.toNat, .entry index.toNat) := by
    cases mapped with
    | none => exact fun h => absurd rfl h
    | some q => exact hmapped q rfl
  dsimp only
  split
  next hne =>
    exact (hsome E node _ own' m' g' hnode rfl ⟨_, hmapped' hne⟩).mono fun _ _ _ _ _ _ h => h.2
  next =>
    refine Upholds.assoc ((upholds_allocPage node.inodeNumber.toNat index.toNat).bind ?_)
    rintro pnum own₁ m₁ g₁ - hkeeps₁ ⟨hpage, -⟩
    split
    next => exact hnone own₁ m₁ g₁
    next hne =>
      obtain ⟨hown, -⟩ := hpage hne
      refine Upholds.settlePage (p := pnum) (Upholds.assoc (Upholds.fetch_bind fun g₂ _ hheld => ?_))
      refine Upholds.assoc ((upholds_modify hown hT (fun _ _ => blockType_clearDataPage) hheld
        (Or.inl (Set.mem_insert pnum E))).bind ?_)
      rintro - own₃ m₃ g₃ - hkeeps₃ ⟨rfl, -⟩
      have hnode₃ := (hnode.keep hkeeps₁).keep hkeeps₃
      refine Upholds.assoc ((upholds_inodeSetBlock hnode₃ hown).bind ?_)
      rintro ⟨rv', node'⟩ own₄ m₄ g₄ - hkeeps₄ ⟨hcarries, hnumber, -, -⟩
      refine Upholds.assoc ((upholds_inodeWrite hcarries (by rw [hnumber]; exact hT)).bind ?_)
      rintro - own₅ m₅ g₅ - hkeeps₅ -
      have hown₅ := hkeeps₅.owner _ _ (hkeeps₄.owner _ _ hown)
      exact hsome (insert pnum E) node' pnum own₅ m₅ g₅ (hcarries.keep hkeeps₅) hnumber ⟨_, hown₅⟩

/-- The loop of `nbtrfs_write` keeps the bookkeeping, page by page; when it breaks off, the inode
that it hands on still carries all of its pointers. -/
theorem upholds_writePages (buf : Bytes) (n : ℕ) (hnode : Carries disk own m node)
    (hT : node.inodeNumber.toNat ∈ T.inodes) (offset remaining written : ℕ) :
    Upholds disk.mapping (ownership disk T E) (writePages disk buf n node offset remaining written)
      own m g fun r own' m' _ => ∀ node', r.1 = some node' →
        Carries disk own' m' node' ∧ node'.inodeNumber = node.inodeNumber := by
  induction n generalizing E own m g node offset remaining written with
  | zero =>
      refine Upholds.pure fun node' h => ?_
      obtain rfl := Option.some.inj h
      exact ⟨hnode, rfl⟩
  | succ n ih =>
      rw [writePages]
      refine Upholds.ite (fun _ => Upholds.pure fun node' h => ?_) fun _ => ?_
      · obtain rfl := Option.some.inj h
        exact ⟨hnode, rfl⟩
      refine writablePage_bind hnode hT (fun own' m' g' => Upholds.pure fun node' h => ?_) ?_
      · cases h
      rintro E' node' pnum own' m' g' hcarries hnumber ⟨i, hown⟩
      refine Upholds.fetch_bind fun g₁ _ hheld => ?_
      refine upholds_modify_writeBack hown hT (fun pg hpg => ?_) hheld fun m₂ g₂ hkeeps _ hann => ?_
      · rw [blockType_congr fun o ho => copyIn_apply_ne (Or.inl (by omega)), hpg]
      · refine (ih (hcarries.keep hkeeps) (by rw [hnumber]; exact hT) _ _ _).mono ?_
        intro r own₃ m₃ g₃ hgrow _ h
        refine ⟨hgrow.announced hann, fun node'' hr => ?_⟩
        obtain ⟨hcarries', hnumber'⟩ := h node'' hr
        exact ⟨hcarries', hnumber'.trans hnumber⟩

/-- `nbtrfs_write` keeps the bookkeeping once it has read the inode. -/
theorem upholds_writeInode (hnode : Carries disk own m node)
    (hT : node.inodeNumber.toNat ∈ T.inodes) (buf : Bytes) (size : UInt64) (offset : ℕ) :
    Abides disk (ownership disk T E) (writeInode disk node buf size offset) own m g := by
  refine (upholds_writePages buf _ hnode hT _ _ _).bind ?_
  rintro ⟨left, written⟩ own₁ m₁ g₁ - - h
  cases left with
  | none => exact Upholds.pure trivial
  | some node' =>
      obtain ⟨hcarries, hnumber⟩ := h node' rfl
      refine Upholds.ite (fun _ => ?_) fun _ => Upholds.pure trivial
      have hsized : Carries disk own₁ m₁ { node' with size := UInt64.ofNat (offset + written) } :=
        hcarries.congr rfl rfl rfl
      have hT' : node'.inodeNumber.toNat ∈ T.inodes := by rwa [hnumber]
      exact (upholds_inodeWrite hsized hT').bind fun _ _ _ _ _ _ _ => Upholds.pure trivial

end Nbtrfs
