import Nbtrfs.Cache.Programs
import Nbtrfs.Superblock

/-!
# Mounting and unmounting

Reference: `cache.c::alloc_cache`, `fuse.c::main`, `fuse.c::nbtrfs_destroy`.

`mountedRun` is the life of the file system process: an empty cache, the calls, and `cache_sync` at
the end. With room for every block that the calls obtain it leaves on the device, page by page, either
what the direct run leaves or what was there when the volume was mounted (`mountedRun_of_grows`).
-/

namespace Nbtrfs

open BlockProg Bytes

/-! ## The size of the cache -/

/-- `cache_size` as `alloc_cache` chooses it for the `totalram` that `sysinfo` reports. `gb_ram` is an
`int` and `physical_memory` a signed copy. -/
def cacheSizeFor (totalram : UInt64) : UInt64 :=
  let gbRam := int32 (totalram.toNat / (1024 * 1024 * 1024) : ℕ)
  let physicalMemory := totalram.toBitVec.toInt
  if gbRam < 2 then 64 * 1024 * 1024 / 4096
  else if 2 < gbRam ∧ gbRam ≤ 16 then UInt64.ofInt (physicalMemory.tdiv (8 * 4096))
  else UInt64.ofInt (min (2 * 1024 * 1024) (physicalMemory.tdiv (8 * 4096)))

/-- Up to two exabytes of memory, every cache has room for a volume of 64 MiB, and no more slots than
an `int` can number. -/
theorem cacheSizeFor_bounds {totalram : UInt64} (h : totalram.toNat < 2 ^ 61) :
    16384 ≤ (cacheSizeFor totalram).toNat ∧ (cacheSizeFor totalram).toNat ≤ 2097152 := by
  have hgb : int32 (totalram.toNat / (1024 * 1024 * 1024) : ℕ) =
      (totalram.toNat / (1024 * 1024 * 1024) : ℕ) := int32_of_lt (by omega)
  have hphys : totalram.toBitVec.toInt = totalram.toNat := by
    rw [BitVec.toInt_eq_toNat_of_lt]
    · rfl
    · show 2 * totalram.toNat < 2 ^ 64
      omega
  have hdiv : (totalram.toNat : ℤ).tdiv (8 * 4096) = (totalram.toNat / 32768 : ℕ) :=
    (Int.ofNat_tdiv _ _).symm
  have hofNat : ∀ n : ℕ, n ≤ totalram.toNat → (UInt64.ofInt n).toNat = n := fun n hn => by
    rw [ofInt_natCast]
    exact UInt64.toNat_ofNat_of_lt' (by
      show n < 2 ^ 64
      omega)
  simp only [cacheSizeFor, hgb, hphys, hdiv]
  split
  next => decide
  next hlow =>
    split
    next hmid =>
      rw [hofNat _ (Nat.div_le_self _ _)]
      omega
    next hhigh =>
      have hmin : min (2 * 1024 * 1024 : ℤ) (totalram.toNat / 32768 : ℕ) =
          (min 2097152 (totalram.toNat / 32768) : ℕ) := by
        omega
      rw [hmin, hofNat _ ((min_le_right _ _).trans (Nat.div_le_self _ _))]
      omega

/-! ## The life of the process -/

/-- The process between `alloc_cache` and the end of `nbtrfs_destroy`, and the device it leaves.
`unset` is what `malloc` leaves in the slots. -/
def mountedRun (disk : DiskInterface) (fresh : CachedDisk → Leftover) (cacheSize : ℕ)
    (unset : ℤ → CacheEntry) {α : Type} (p : BlockProg α) (m : Image) : Option (α × Image) :=
  (cachedRun disk fresh p ⟨m, allocCache cacheSize unset⟩).bind fun r =>
    (cacheSync disk r.2).map fun s => (r.1, s.image)

/-- What a mounted run of `p` on `m` needs: the address arithmetic reaches every block that it
obtains, there is a slot for each of them, `gdl_size` has room for the pages that it announces, and
the memory that `malloc` hands out for a node of a dirty list is zero. -/
structure Roomy (disk : DiskInterface) (fresh : CachedDisk → Leftover) (cacheSize : ℕ) {α : Type}
    (p : BlockProg α) (m : Image) : Prop where
  reach : ∀ q, .obtained q ∈ events disk.mapping p m → q.toNat < disk.addressable
  slots : (PageEvent.pages (events disk.mapping p m)).card ≤ cacheSize
  slotNumbers : (cacheSize : ℤ) ≤ intMax
  count : (PageEvent.announcements (events disk.mapping p m) : ℤ) ≤ intMax
  zeroed : ∀ s, fresh s = .null

/-- However much memory there is, the cache of a volume of up to 64 MiB has a slot for every block. -/
theorem roomy_of_small {disk : DiskInterface} (hsmall : disk.totalBlocks.toNat ≤ 16384)
    {totalram : UInt64} (hram : totalram.toNat < 2 ^ 61) {α : Type} {p : BlockProg α} {m : Image}
    (hreach : ∀ q, .obtained q ∈ events disk.mapping p m → q.toNat < disk.addressable)
    (hcount : (PageEvent.announcements (events disk.mapping p m) : ℤ) ≤ intMax) :
    Roomy disk (fun _ => .null) (cacheSizeFor totalram).toNat p m := by
  obtain ⟨hlow, hhigh⟩ := cacheSizeFor_bounds hram
  refine ⟨hreach, ?_, ?_, hcount, fun _ => rfl⟩
  · -- the pages are numbered by the blocks of the volume
    have hinj : Set.InjOn UInt64.toNat (PageEvent.pages (events disk.mapping p m) : Set UInt64) :=
      fun _ _ _ _ h => UInt64.toNat_inj.mp h
    have hsub : (PageEvent.pages (events disk.mapping p m)).image UInt64.toNat ⊆
        Finset.range disk.totalBlocks.toNat := by
      intro b hb
      obtain ⟨q, hq, rfl⟩ := Finset.mem_image.mp hb
      exact Finset.mem_range.mpr ((hreach q (PageEvent.mem_pages_iff.mp hq)).trans_le
        (min_le_left _ _))
    have hcard := Finset.card_le_card hsub
    rw [Finset.card_image_of_injOn hinj, Finset.card_range] at hcard
    omega
  · rw [intMax]
    omega

section Mounted

variable {disk : DiskInterface} {fresh : CachedDisk → Leftover} {cacheSize : ℕ}
  (unset : ℤ → CacheEntry) {α : Type} {p : BlockProg α} {m m' : Image} {a : α}
  {Q : α → Image → PageLedger → Prop}

/-- With room for it, the cache serves a disciplined program from the mount on. -/
private theorem agrees_mounted (hroom : Roomy disk fresh cacheSize p m)
    (hd : Disciplined disk.mapping p m .empty Q) :
    Mirrors.Agrees disk m (PageEvent.pages (events disk.mapping p m)) cacheSize
      {q | .announced q ∈ events disk.mapping p m}
      (cachedRun disk fresh p ⟨m, allocCache cacheSize unset⟩) (run disk.mapping p m) := by
  have hserves : Mirrors.Serves disk (PageEvent.pages (events disk.mapping p m)) p m
      ⟨m, allocCache cacheSize unset⟩ [] [] :=
    ⟨fun q hq => ⟨hroom.reach q hq, PageEvent.mem_pages_iff.mpr hq⟩, fun _ hq => (List.not_mem_nil hq).elim,
      hroom.slots, by simpa using hroom.count⟩
  have hstart : Mirrors disk m ∅ ⟨m, allocCache cacheSize unset⟩ [] [] m :=
    mirrors_cacheStart hroom.slotNumbers unset m
  rw [← Set.empty_union {q | .announced q ∈ events disk.mapping p m}]
  exact hstart.cachedRun fresh hroom.zeroed hserves (fun _ hb => (Set.notMem_empty _ hb).elim) hd

/-- A disciplined program that returns when it runs on the device blocks themselves returns the same
on the mounted volume; what is then on the device is the content of the pages it announced, and what
was there before in the others. -/
theorem mountedRun_of_disciplined (hroom : Roomy disk fresh cacheSize p m)
    (hd : Disciplined disk.mapping p m .empty Q) (hrun : run disk.mapping p m = some (a, m')) :
    ∃ image, mountedRun disk fresh cacheSize unset p m = some (a, image) ∧
      (∀ q, .announced q ∈ events disk.mapping p m → image q.toNat = m' q.toNat) ∧
      ∀ b, (∀ q, .announced q ∈ events disk.mapping p m → q.toNat ≠ b) → image b = m b := by
  have hagrees := agrees_mounted unset hroom hd
  rw [hrun] at hagrees
  obtain ⟨s, L, G, hcached, hmirrors, -, -⟩ := hagrees
  obtain ⟨s', hsync, hin, hout⟩ := hmirrors.sync
  refine ⟨s'.image, ?_, hin, hout⟩
  rw [mountedRun, hcached, Option.bind_some, hsync]
  rfl

/-- Where it crashes, it crashes on the mounted volume too. -/
theorem mountedRun_of_crash (hroom : Roomy disk fresh cacheSize p m)
    (hd : Disciplined disk.mapping p m .empty Q) (hrun : run disk.mapping p m = none) :
    mountedRun disk fresh cacheSize unset p m = none := by
  have hagrees := agrees_mounted unset hroom hd
  rw [hrun] at hagrees
  have hcached : cachedRun disk fresh p ⟨m, allocCache cacheSize unset⟩ = none := hagrees
  rw [mountedRun, hcached]
  rfl

/-- What a disciplined program does not owe is on the device as the direct run leaves it, and what it
may not announce is there as it was. -/
theorem mountedRun_of_grows {D : Allowance} (hroom : Roomy disk fresh cacheSize p m)
    (hd : Disciplined disk.mapping p m .empty Q) (hrun : run disk.mapping p m = some (a, m'))
    (hgrow : PageLedger.Grows D .empty (PageLedger.empty.after (events disk.mapping p m))) :
    ∃ image, mountedRun disk fresh cacheSize unset p m = some (a, image) ∧
      (∀ b, (∀ q ∈ D.owed, disk.mapping.addr q ≠ some b) → image b = m' b) ∧
      (∀ b, (∀ q ∈ D.announced, q.toNat ≠ b) → image b = m b) ∧
      ∀ b, image b = m' b ∨ image b = m b := by
  obtain ⟨image, hmounted, hin, hout⟩ := mountedRun_of_disciplined unset hroom hd hrun
  refine ⟨image, hmounted, fun b hb => ?_, fun b hb => ?_, fun b => ?_⟩
  · by_cases hann : ∃ q, .announced q ∈ events disk.mapping p m ∧ q.toNat = b
    · obtain ⟨q, hq, rfl⟩ := hann
      exact hin q hq
    · rw [hout b fun q hq heq => hann ⟨q, hq, heq⟩]
      refine (Disciplined.image_eq hd hrun fun q hq haddr => ?_).symm
      -- a changed page is announced or owed, and neither is so at the start
      rcases hgrow.changed (Or.inr hq) with (hmem | hmem | hmem) | hmem
      · exact hmem
      · exact hmem
      · have hreach := hroom.reach q ((Disciplined.held_of_announced hd hrun hmem).resolve_left
          (Set.notMem_empty q))
        refine hann ⟨q, hmem, ?_⟩
        rw [DiskInterface.mapping_exactTo q hreach] at haddr
        exact Option.some.inj haddr
      · exact hb q hmem haddr
  · refine hout b fun q hq heq => ?_
    rcases hgrow.allowed (Or.inr hq) with hmem | hmem
    · exact hmem
    · exact hb q hmem heq
  · by_cases hann : ∃ q, .announced q ∈ events disk.mapping p m ∧ q.toNat = b
    · obtain ⟨q, hq, rfl⟩ := hann
      exact Or.inl (hin q hq)
    · exact Or.inr (hout b fun q hq heq => hann ⟨q, hq, heq⟩)

end Mounted

end Nbtrfs
