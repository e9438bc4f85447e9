import Nbtrfs.Sessions
import Nbtrfs.Views

/-!
# After unmounting

Reference: `fuse.c::nbtrfs_destroy`, `cache.c::cache_sync`, `inode.c::inode_set_block`.

What a session leaves on the device, next to what it would have left without a cache. Two kinds of
pages are not announced to the cache: pages of the inode bitmap, when the table is full, and every
indirect block that is new. `inode_set_block` stores into the page of a new indirect block and never
calls `write_block` for it, so that page is as blank on the device as it was before. The volume is
consistent all the same: pointers into blank pages are null.
-/

namespace Nbtrfs

open BlockProg Bytes

variable {disk : DiskInterface} {own own' : Owners} {m m' image : Image} {n i b : ℕ}

/-- The block was taken for indirect entries between `own` and `own'`. -/
def NewIndirect (own own' : Owners) (b : ℕ) : Prop :=
  ∃ n, own' b = some (n, .indirect) ∧ own b ≠ some (n, .indirect)

/-- The device after unmounting, where the volume was `m` when it was mounted and `m'` would be on the
device blocks themselves. -/
structure Unmounted (disk : DiskInterface) (own : Owners) (m : Image) (own' : Owners)
    (m' image : Image) : Prop where
  kept : ∀ b, ¬(inodeBitmapStart disk.totalBlocks.toNat ≤ b ∧
    b < inodeTableStart disk.totalBlocks.toNat) → ¬NewIndirect own own' b → image b = m' b
  bitmap : ∀ b, inodeBitmapStart disk.totalBlocks.toNat ≤ b →
    b < inodeTableStart disk.totalBlocks.toNat → image b = m' b ∨ image b = m b
  lost : ∀ b, NewIndirect own own' b → blockBit m b = false ∧ image b = m b

/-- `cache_sync` leaves the device so. -/
theorem Consistent.unmounted (C' : Consistent disk own' m') (hkeeps : Keeps disk Scope.all own m own' m')
    (howed : ∀ b, (∀ q ∈ (sessionAllowance disk own' m').owed, disk.mapping.addr q ≠ some b) →
      image b = m' b)
    (hannounced : ∀ b, (∀ q ∈ (sessionAllowance disk own' m').announced, q.toNat ≠ b) →
      image b = m b)
    (heither : ∀ b, image b = m' b ∨ image b = m b) : Unmounted disk own m own' m' image where
  kept b hrange hnew := by
    by_cases hindirect : ∃ n, own' b = some (n, .indirect)
    · obtain ⟨n, hn⟩ := hindirect
      have hold : own b = some (n, .indirect) := by
        by_contra hne
        exact hnew ⟨n, hn, hne⟩
      rw [hkeeps.indirect b n hold]
      exact (heither b).elim (fun h => h.trans (hkeeps.indirect b n hold)) id
    · refine howed b fun q hq haddr => ?_
      rcases hq with ⟨n, hq⟩ | ⟨hlo, hhi⟩
      · obtain rfl := C'.sound.eq_toNat (C'.owned hq).lt haddr
        exact hindirect ⟨n, hq⟩
      · have htable := inodeTableStart_le disk.totalBlocks.toNat
        have htotal := C'.sound.layout.le_total
        obtain rfl := C'.sound.eq_toNat (by omega) haddr
        exact hrange ⟨hlo, hhi⟩
  bitmap b _ _ := heither b
  lost b hnew := by
    obtain ⟨n, hn, hne⟩ := hnew
    have hblock := C'.owned hn
    refine ⟨(hkeeps.new b hblock.lt _ hn).resolve_left hne, hannounced b fun q hq heq => ?_⟩
    subst heq
    -- an indirect block is neither metadata nor a node, and holds no data
    rcases hq with hlo | ⟨c, haddr, hnode | ⟨k, j, hentry⟩⟩
    · exact absurd hblock.behind (by omega)
    · obtain rfl := C'.sound.eq_toNat hblock.lt haddr
      rw [C'.own_of_node hnode] at hn
      cases hn
    · obtain rfl := C'.sound.eq_toNat hblock.lt haddr
      rw [hentry] at hn
      cases hn

namespace Unmounted

variable (C : Consistent disk own m) (C' : Consistent disk own' m')
  (U : Unmounted disk own m own' m' image)

section Low

include C' U

/-- Metadata other than the inode bitmap is as the calls left it. -/
theorem low (hb : b < dataStart disk.totalBlocks.toNat)
    (hrange : ¬(inodeBitmapStart disk.totalBlocks.toNat ≤ b ∧
      b < inodeTableStart disk.totalBlocks.toNat)) : image b = m' b := by
  refine U.kept b hrange ?_
  rintro ⟨n, hn, -⟩
  exact absurd (C'.owned hn).behind (by omega)

theorem table (hlo : inodeTableStart disk.totalBlocks.toNat ≤ b)
    (hhi : b < dataStart disk.totalBlocks.toNat) : image b = m' b :=
  U.low C' hhi (by omega)

theorem inodeAt_eq (hn : n < inodeCapacity disk.totalBlocks.toNat) :
    inodeAt disk image n = inodeAt disk m' n := by
  rw [inodeAt, U.table C' (slotBlock_ge disk n) (slotBlock_lt hn), inodeAt]

theorem bit_eq (hb : b < disk.totalBlocks.toNat) : blockBit image b = blockBit m' b := by
  refine BitmapArea.bit_congr (fun c hc => ?_) hb
  have hstart : inodeBitmapStart disk.totalBlocks.toNat =
    1 + blockBitmapBlocks disk.totalBlocks.toNat := rfl
  have hbitmap := inodeBitmapStart_le disk.totalBlocks.toNat
  have htable := inodeTableStart_le disk.totalBlocks.toNat
  exact U.low C' (by omega) (by omega)

end Low

include C C' U

/-- Behind the metadata a page is as the calls left it, or the blank page of a new indirect block. -/
theorem data (hb : dataStart disk.totalBlocks.toNat ≤ b) : image b = m' b ∨
    NewIndirect own own' b ∧ blockType (image b) = BlockType.data.code ∧
      ∀ o < blockSize, image b o = 0 := by
  have htable := inodeTableStart_le disk.totalBlocks.toNat
  by_cases hnew : NewIndirect own own' b
  · obtain ⟨hclear, hsame⟩ := U.lost b hnew
    have hlt : b < disk.totalBlocks.toNat := by
      obtain ⟨n, hn, -⟩ := hnew
      exact (C'.owned hn).lt
    rw [hsame]
    exact Or.inr ⟨hnew, C.type_of_clear hlt hclear, C.free b hb hlt hclear⟩
  · exact Or.inl (U.kept b (by omega) hnew)

/-- No lookup can tell what is on the device from what the calls left. -/
theorem looksAlike (b : ℕ) : LooksAlike (m' b) (image b) := by
  have hbitmap := inodeBitmapStart_le disk.totalBlocks.toNat
  have hstart : inodeBitmapStart disk.totalBlocks.toNat =
    1 + blockBitmapBlocks disk.totalBlocks.toNat := rfl
  by_cases hlow : b < dataStart disk.totalBlocks.toNat
  · by_cases hrange : inodeBitmapStart disk.totalBlocks.toNat ≤ b ∧
        b < inodeTableStart disk.totalBlocks.toNat
    · have htype : ∀ {own m}, Consistent disk own m → blockType (m b) = BlockType.bitmap.code :=
        fun C => C.sound.layout.bitmap b (by omega) hrange.2
      rcases U.bitmap b hrange.1 hrange.2 with h | h
      · rw [h]
        exact LooksAlike.refl _
      · rw [h]
        exact LooksAlike.of_type (htype C') (htype C) (by decide) (by decide)
    · rw [U.low C' hlow hrange]
      exact LooksAlike.refl _
  · rcases U.data C C' (Nat.le_of_not_lt hlow) with h | ⟨⟨n, hn, -⟩, htype, -⟩
    · rw [h]
      exact LooksAlike.refl _
    · exact LooksAlike.of_type (C'.owned hn).type htype (by decide) (by decide)

/-- An indirect block lists on the device what the calls left in it, or nothing. -/
theorem blockAt_cases {node : Inode} (hnode : Owns own' m' n node) (hmax : i ≤ maxIndex) :
    blockAt image node i = blockAt m' node i ∨ blockAt image node i = 0 := by
  by_cases hi : i < 12
  · exact Or.inl (by rw [blockAt_of_lt hi, blockAt_of_lt hi])
  · by_cases hzero : node.indirectBlock = 0
    · exact Or.inr (blockAt_of_zero hi hzero)
    · rw [blockAt_of_ne hi hzero, blockAt_of_ne hi hzero]
      rcases U.data C C' (C'.owned (hnode.indirect hzero)).behind with h | ⟨-, -, hblank⟩
      · exact Or.inl (by rw [h])
      · exact Or.inr (load64_entry_of_blank hblank hmax)

/-- What is on the device is consistent. -/
theorem consistent : Consistent disk own' image := by
  have hbitmap := inodeBitmapStart_le disk.totalBlocks.toNat
  have htable := inodeTableStart_le disk.totalBlocks.toNat
  have htotal := C'.sound.layout.le_total
  have hzero : image 0 = m' 0 := U.low C' (dataStart_pos _) (by
    have hstart : inodeBitmapStart disk.totalBlocks.toNat =
      1 + blockBitmapBlocks disk.totalBlocks.toNat := rfl
    omega)
  have htype : ∀ b, blockType (image b) = blockType (m' b) := fun b => (U.looksAlike C C' b).type
  refine ⟨⟨C'.sound.layout.congr (by rw [hzero]) (by rw [hzero]) fun b _ => htype b, fun b hb => ?_,
    C'.sound.near⟩, C'.slots, fun {b} p hb => ?_, fun b hlo hhi => ?_, fun b hlo hhi hclear => ?_,
    fun n hn => ?_⟩
  · rw [U.bit_eq C' (by omega), C'.sound.metadata b hb]
  · have h := C'.owned hb
    exact ⟨h.behind, h.lt, by rw [U.bit_eq C' h.lt, h.taken], by rw [htype, h.type]⟩
  · rw [htype]
    exact C'.pages b hlo hhi
  · rw [U.bit_eq C' hhi] at hclear
    rcases U.data C C' hlo with h | ⟨-, -, hblank⟩
    · rw [h]
      exact C'.free b hlo hhi hclear
    · exact hblank
  · have hsame := U.inodeAt_eq C' hn
    obtain ⟨hcarries, howns⟩ := C'.inodes n hn
    have hkeep : ∀ k, Owns own' m' k (inodeAt disk m' n) → Owns own' image k (inodeAt disk m' n) := by
      refine fun k hk => ⟨fun i hi hne => ?_, hk.indirect⟩
      have h := (U.blockAt_cases C C' hk hi).resolve_right hne
      rw [h] at hne ⊢
      exact hk.entry i hi hne
    rw [hsame]
    exact ⟨⟨hcarries.number, hkeep _ hcarries.owns⟩, hkeep n howns⟩

/-- The data of an inode is the same on the device, unless its indirect block is new. -/
theorem sameData {I : Prop} {node : Inode} (hnode : Owns own' m' n node)
    (hold : I → node.indirectBlock ≠ 0 → blockBit m node.indirectBlock.toNat = true) :
    SameData I m' image node where
  entry i hi _ hne := by
    have howner := hnode.entry i hi hne
    refine (U.data C C' (C'.owned howner).behind).resolve_right ?_
    rintro ⟨⟨k, hk, -⟩, -⟩
    rw [howner] at hk
    cases hk
  indirect hI hne := by
    refine (U.data C C' (C'.owned (hnode.indirect hne)).behind).resolve_right ?_
    rintro ⟨hnew, -⟩
    have hclear := (U.lost _ hnew).1
    rw [hold hI hne] at hclear
    cases hclear

end Unmounted

section Session

variable {fresh : CachedDisk → Leftover} {cacheSize : ℕ} {unset : ℤ → CacheEntry}
  {calls : List (Host × FuseCall)} {replies : List FuseReply}

/-- A session on a consistent volume, run through the cache of the mounted volume. -/
theorem Consistent.exists_unmounted (C : Consistent disk own m)
    (hcalls : ∀ c ∈ calls, c.2.removes = false)
    (hroom : Roomy disk fresh cacheSize (Nbtrfs.session disk calls) m)
    (hrun : run disk.mapping (Nbtrfs.session disk calls) m = some (replies, m')) :
    ∃ own' image, mountedRun disk fresh cacheSize unset (Nbtrfs.session disk calls) m =
        some (replies, image) ∧ Consistent disk own' m' ∧ Keeps disk Scope.all own m own' m' ∧
      Unmounted disk own m own' m' image := by
  obtain ⟨own', C', hkeeps, hgrow⟩ := C.session hcalls hrun
  obtain ⟨image, hmounted, howed, hannounced, heither⟩ := mountedRun_of_grows unset hroom
    (C.disciplined_session hcalls) hrun hgrow
  exact ⟨own', image, hmounted, C', hkeeps, C'.unmounted hkeeps howed hannounced heither⟩

/-- Calls that crash on the device blocks themselves crash on the mounted volume. -/
theorem Consistent.mountedRun_of_crash (C : Consistent disk own m)
    (hcalls : ∀ c ∈ calls, c.2.removes = false)
    (hroom : Roomy disk fresh cacheSize (Nbtrfs.session disk calls) m)
    (hrun : run disk.mapping (Nbtrfs.session disk calls) m = none) :
    mountedRun disk fresh cacheSize unset (Nbtrfs.session disk calls) m = none :=
  Nbtrfs.mountedRun_of_crash unset hroom (C.disciplined_session hcalls) hrun

end Session

end Nbtrfs
