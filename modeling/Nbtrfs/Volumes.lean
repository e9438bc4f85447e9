import Nbtrfs.FirstFile
import Nbtrfs.Unmount
import Nbtrfs.VolumeLayout

/-!
# Volumes in use

Reference: `disk.c::disk_format`, `fuse.c`.

A volume in use was formatted on a zero-filled device, and has been mounted and unmounted any number of
times, with any calls in between that remove no entries. Its pointers are sound
(`LiveVolume.soundPointers`): each leads to a block of its own that is taken and holds data, whichever
of the calls failed for want of pages or inodes. The cache is transparent
(`LiveVolume.mountedRun_replies`), and what the calls did is on the device after unmounting
(`LiveVolume.remounted_attributes`, `LiveVolume.remounted_data`), up to the data behind a new indirect
block (`LiveVolume.remounted_indirect`).

The examples are about a volume of 88 blocks, on which one mount makes `/a` and the next one writes its
first byte (`exists_firstByte_88`).
-/

namespace Nbtrfs

open BlockProg Bytes

variable {disk : DiskInterface} {own own' : Owners} {m m' image : Image} {n n' i b : ℕ} {p p' : Place}
  {uid gid : UInt32}

/-! ## A fresh volume -/

/-- A zero-filled slot holds an inode without pointers. -/
theorem Inode.ofPage_of_blank {pg : Bytes} {slot : ℕ}
    (hzero : ∀ o < sizeofInode, pg (slotOffset slot + o) = 0) : Inode.ofPage pg slot = zeroInode := by
  have hsame : Inode.ofPage pg slot = Inode.ofPage (fun _ => 0) slot := Inode.ofPage_congr hzero
  have h64 : ∀ a, load64 (fun _ => 0) a = 0 := fun a => by simp [load64, leLoad]
  have h32 : ∀ a, load32 (fun _ => 0) a = 0 := fun a => by simp [load32, leLoad]
  rw [hsame, Inode.ofPage, Inode.load]
  simp only [h64, h32]
  rfl

/-- The metadata of a volume of up to 4 GiB ends within the addresses that `get_block` reaches. -/
theorem dataStart_lt_addressable (hlow : 88 ≤ disk.totalBlocks.toNat)
    (hhigh : disk.totalBlocks.toNat ≤ 1048576) :
    dataStart disk.totalBlocks.toNat < disk.addressable := by
  have hlt : dataStart disk.totalBlocks.toNat < 524288 := by
    have hblocks := blockBitmapBlocks_le disk.totalBlocks.toNat
    have hinodes := inodeBitmapBlocks_le disk.totalBlocks.toNat
    rw [dataStart, inodeTableStart, inodeBitmapStart, inodeTableBlocks]
    omega
  exact lt_min (dataStart_lt_total hlow).1 hlt

/-- The inode table that `disk_format` lays out on a zero-filled device. -/
theorem inodeAt_laidOut {pg : Bytes}
    (hfit : dataStart disk.totalBlocks.toNat < disk.totalBlocks.toNat)
    (hzero : ∀ b < disk.totalBlocks.toNat, m b = fun _ => 0)
    (hn : n < inodeCapacity disk.totalBlocks.toNat) :
    inodeAt disk (laidOut disk m pg) n = zeroInode := by
  have hge := slotBlock_ge disk n
  have hpos := inodeTableStart_pos disk.totalBlocks.toNat
  refine Inode.ofPage_of_blank fun o _ => ?_
  rw [laidOut_apply (by omega) (by simp only [slotOffset]; omega), hzero _ ((slotBlock_lt hn).trans hfit)]

/-- The root directory and the unused inodes of a fresh volume point nowhere. -/
theorem formattedInode_pointers (n : ℕ) (uid gid : UInt32) {node : Inode}
    (hnode : node = if n = 0 then claimedInode uid gid rootMode 0 zeroInode else zeroInode) :
    node.inodeNumber = 0 ∧ node.directBlocks = zeroInode.directBlocks ∧ node.indirectBlock = 0 := by
  rw [hnode]
  split
  next => exact ⟨rfl, rfl, rfl⟩
  next => exact ⟨rfl, rfl, rfl⟩

/-- A volume made on a zero-filled device is consistent, and nothing is taken for an inode yet. -/
theorem exists_run_diskFormat_consistent (hlow : 88 ≤ disk.totalBlocks.toNat)
    (hhigh : disk.totalBlocks.toNat ≤ 1048576)
    (hzero : ∀ b < disk.totalBlocks.toNat, m b = fun _ => 0) (now : UInt64) (uid gid : UInt32)
    {volumeName : List UInt8} (hname : volumeName.length ≤ 31) :
    ∃ m', run disk.mapping (diskFormat disk now uid gid volumeName) m = some (0, m') ∧
      Fresh disk uid gid m' ∧ Consistent disk (fun _ => none) m' := by
  obtain ⟨hfit, hslots⟩ := dataStart_lt_total hlow
  have hfits := dataStart_lt_addressable hlow hhigh
  have hwidth := dataStart_lt disk
  have hexact : disk.mapping.ExactTo (dataStart disk.totalBlocks.toNat + 1) :=
    DiskInterface.mapping_exactTo.mono hfits
  -- the metadata pages first, then the two allocations that `disk_format` makes on them
  obtain ⟨pg, hrun, L, hfree⟩ := run_diskFormat (m := m) disk.volume_mapping
    (hexact.mono (Nat.le_succ _)) hfit.le now uid gid hname
  have h0 : laidOut disk m pg 0 = pg := laidOut_zero pg
  obtain ⟨m', hrun', F, hbehind, hinodes⟩ := L.run_formatAllocate_frame
    (blank_of_zero hfit.le hzero).laidOut
    (hexact.ofNat (Nat.lt_succ_self _) (by omega)) hfit hslots
    uid gid (by rwa [h0])
  rw [h0] at hrun'
  have hbits := le_blockBitmapBlocks disk.totalBlocks.toNat
  have hpage : ∀ c, dataStart disk.totalBlocks.toNat < c → c < disk.totalBlocks.toNat →
      m' c = fun _ => 0 := fun c hc hlt => by rw [hbehind c hc, laidOut_of_le hc.le, hzero c hlt]
  refine ⟨m', hrun.trans hrun', { toFormatted := F, fits := hfits }, ⟨F.layout, fun b hb => ?_, hhigh⟩,
    hslots, (fun hb => by cases hb), fun b hlo hhi => ?_, fun b hlo hhi hclear o _ => ?_,
    fun n hn => ?_⟩
  · -- the metadata is taken
    rw [F.blockBit b (by omega)]
    exact decide_eq_true (by omega)
  · -- behind it stands the root node, and then what the device had
    rcases Nat.eq_or_lt_of_le hlo with rfl | hlo
    · exact Or.inr F.rootType
    · rw [hpage b hlo hhi]
      exact Or.inl (by decide)
  · rw [F.blockBit b (by omega)] at hclear
    rw [hpage b (by simpa using hclear) hhi]
  · have hcap : 0 < inodeCapacity disk.totalBlocks.toNat := Nat.mul_pos (by decide) hslots
    have hinode := hinodes n hn
    rw [inodeAt_laidOut hfit hzero hcap, inodeAt_laidOut hfit hzero hn] at hinode
    obtain ⟨hnumber, hdirect, hindirect⟩ := formattedInode_pointers n uid gid hinode
    have howns : ∀ k, Owns (fun _ => none) m' k (inodeAt disk m' n) := fun k =>
      owns_of_zero (fun i hi => by simp [hdirect, zeroInode]) hindirect
    refine ⟨⟨?_, howns _⟩, howns n⟩
    rw [hnumber]
    exact hcap

/-! ## Pointers -/

/-- Place `p` of inode `n` points to block `b`. -/
inductive PointsTo (disk : DiskInterface) (m : Image) : ℕ → Place → ℕ → Prop where
  | entry {n i : ℕ} (hn : n < inodeCapacity disk.totalBlocks.toNat) (hi : i ≤ maxIndex)
      (hne : blockAt m (inodeAt disk m n) i ≠ 0) :
      PointsTo disk m n (.entry i) (blockAt m (inodeAt disk m n) i).toNat
  | indirect {n : ℕ} (hn : n < inodeCapacity disk.totalBlocks.toNat)
      (hne : (inodeAt disk m n).indirectBlock ≠ 0) :
      PointsTo disk m n .indirect (inodeAt disk m n).indirectBlock.toNat

/-- Every pointer leads to a block that is taken and holds data, and to a block of its own. -/
structure SoundPointers (disk : DiskInterface) (m : Image) : Prop where
  block : ∀ {n p b}, PointsTo disk m n p b → DataBlock disk m b
  injective : ∀ {n p n' p' b}, PointsTo disk m n p b → PointsTo disk m n' p' b → n = n' ∧ p = p'

/-- The owner of a block is the place that points to it. -/
theorem Consistent.own_of_pointsTo (C : Consistent disk own m) (h : PointsTo disk m n p b) :
    own b = some (n, p) := by
  cases h with
  | entry hn hi hne => exact (C.inodes n hn).2.entry _ hi hne
  | indirect hn hne => exact (C.inodes n hn).2.indirect hne

/-- In a consistent volume the bookkeeping makes pointers sound. -/
theorem Consistent.pointers_sound (C : Consistent disk own m) : SoundPointers disk m where
  block h := C.owned (C.own_of_pointsTo h)
  injective h h' := by
    have hsame := (C.own_of_pointsTo h).symm.trans (C.own_of_pointsTo h')
    obtain ⟨rfl, rfl⟩ := Prod.mk.inj (Option.some.inj hsame)
    exact ⟨rfl, rfl⟩

/-! ## Bookkeeping without leaks -/

open Classical in
/-- The part of the bookkeeping that pointers witness. A block that was taken for an inode and then
dropped, because the call failed, is nobody's. -/
noncomputable def Owners.witnessed (own : Owners) (disk : DiskInterface) (m : Image) : Owners :=
  fun b => if ∃ n p, PointsTo disk m n p b then own b else none

theorem Owners.witnessed_of_pointsTo (h : PointsTo disk m n p b) :
    own.witnessed disk m b = own b := if_pos ⟨n, p, h⟩

/-- A block has an owner in this part of the bookkeeping only if a pointer leads to it. -/
theorem Consistent.pointsTo_of_witnessed (C : Consistent disk own m)
    (h : own.witnessed disk m b = some (n, p)) : PointsTo disk m n p b := by
  rw [Owners.witnessed] at h
  split at h
  next hex =>
    obtain ⟨k, q, hkq⟩ := hex
    rw [C.own_of_pointsTo hkq] at h
    obtain ⟨rfl, rfl⟩ := Prod.mk.inj (Option.some.inj h)
    exact hkq
  next => cases h

/-- This part is enough for the volume to be consistent. -/
theorem Consistent.witnessed (C : Consistent disk own m) :
    Consistent disk (own.witnessed disk m) m where
  sound := C.sound
  slots := C.slots
  owned h := C.owned (C.own_of_pointsTo (C.pointsTo_of_witnessed h))
  pages := C.pages
  free := C.free
  inodes n hn := by
    obtain ⟨hcarries, howns⟩ := C.inodes n hn
    have hkeep : ∀ k, Owns own m k (inodeAt disk m n) →
        Owns (own.witnessed disk m) m k (inodeAt disk m n) := by
      refine fun k hk => ⟨fun i hi hne => ?_, fun hne => ?_⟩
      · rw [Owners.witnessed_of_pointsTo (.entry hn hi hne)]
        exact hk.entry i hi hne
      · rw [Owners.witnessed_of_pointsTo (.indirect hn hne)]
        exact hk.indirect hne
    exact ⟨⟨hcarries.number, hkeep _ hcarries.owns⟩, hkeep n howns⟩

/-! ## Volumes in use -/

/-- A volume that was formatted and has been mounted any number of times, for calls that remove no
entries. -/
inductive LiveVolume (disk : DiskInterface) : Image → Prop where
  | formatted {m m' : Image} {now : UInt64} {uid gid : UInt32} {volumeName : List UInt8}
      (hlow : 88 ≤ disk.totalBlocks.toNat) (hhigh : disk.totalBlocks.toNat ≤ 1048576)
      (hzero : ∀ b < disk.totalBlocks.toNat, m b = fun _ => 0) (hname : volumeName.length ≤ 31)
      (hrun : run disk.mapping (diskFormat disk now uid gid volumeName) m = some (0, m')) :
      LiveVolume disk m'
  | mounted {m image : Image} {fresh : CachedDisk → Leftover} {cacheSize : ℕ}
      {unset : ℤ → CacheEntry} {calls : List (Host × FuseCall)} {replies : List FuseReply}
      (h : LiveVolume disk m) (hcalls : ∀ c ∈ calls, c.2.removes = false)
      (hroom : Roomy disk fresh cacheSize (session disk calls) m)
      (hrun : mountedRun disk fresh cacheSize unset (session disk calls) m = some (replies, image)) :
      LiveVolume disk image

/-- A volume in use is consistent, by induction over its mounts. -/
theorem LiveVolume.consistent (h : LiveVolume disk m) : ∃ own, Consistent disk own m := by
  induction h with
  | formatted hlow hhigh hzero hname hrun =>
      obtain ⟨m', hrun', -, C⟩ := exists_run_diskFormat_consistent hlow hhigh hzero _ _ _ hname
      rw [hrun] at hrun'
      obtain ⟨-, rfl⟩ := Prod.mk.inj (Option.some.inj hrun')
      exact ⟨_, C⟩
  | @mounted m image fresh cacheSize unset calls replies _ hcalls hroom hrun ih =>
      obtain ⟨own, C⟩ := ih
      cases hdirect : run disk.mapping (session disk calls) m with
      | none =>
          rw [C.mountedRun_of_crash hcalls hroom hdirect] at hrun
          cases hrun
      | some r =>
          obtain ⟨replies', m'⟩ := r
          obtain ⟨own', image', hmounted, C', -, U⟩ := C.exists_unmounted hcalls hroom hdirect
          rw [hmounted] at hrun
          obtain ⟨-, rfl⟩ := Prod.mk.inj (Option.some.inj hrun)
          exact ⟨own', U.consistent C C'⟩

/-! ## A volume with a file -/

section OneCall

variable {host : Host} {call : FuseCall} {reply : FuseReply}

/-- A session of one call. -/
theorem run_session_one : run disk.mapping (session disk [(host, call)]) m = some ([reply], m') ↔
    run disk.mapping (call.run disk host) m = some (reply, m') := by
  constructor
  · intro hrun
    obtain ⟨r, m₁, hcall, hrest⟩ := run_bind_eq_some.mp hrun
    obtain ⟨hreply, rfl⟩ := Prod.mk.inj (Option.some.inj hrest)
    obtain rfl : r = reply := List.singleton_inj.mp hreply
    exact hcall
  · intro hrun
    rw [session, run_bind_of_eq hrun]
    rfl

/-- A session of one call asks what the call asks. -/
theorem demands_session_one (h : Demands disk n (call.run disk host) m) :
    Demands disk n (session disk [(host, call)]) m :=
  h.bind_pure fun reply => [reply]

end OneCall

/-- A file without pages is the same after unmounting. -/
theorem EmptyFile.unmounted {r : ℕ} {l : Leaf} (F : EmptyFile disk m' r l)
    (U : Unmounted disk own m own' m' image) (C : Consistent disk own m)
    (C' : Consistent disk own' m') : EmptyFile disk image r l := by
  have C'' := U.consistent C C'
  have hlike : ∀ b, LooksAlike (m' b) (image b) := U.looksAlike C C'
  have hinode : inodeAt disk image 1 = inodeAt disk m' 1 := U.inodeAt_eq C' F.file.capacity
  have htotal : disk.addressable ≤ disk.totalBlocks.toNat := min_le_left _ _
  exact {
    sound := C''.sound
    fits := F.fits
    root := F.root.congr C''.sound.layout fun b _ => hlike b
    tree := F.tree.congr (C''.sound.layout.bitmapArea_of_marked C''.sound.metadata)
      ((hlike r).node F.tree.root_type) (fun x hx => (hlike x.block).node (F.tree.leaf x hx).type)
      fun b hb hset => by rw [U.bit_eq C' hb, hset]
    file := ⟨⟨C''.sound.layout, F.file.ne_zero, F.file.capacity,
      (congrArg Inode.inodeNumber hinode).trans F.file.own⟩,
      ((twin_itemSearch hlike _).run_eq F.file.lookup).2⟩
    direct := fun i hi => by
      simp only [hinode]
      exact F.direct i hi
    indirect := by rw [hinode, F.indirect]
    free := by
      have hcount : nearFree disk image = nearFree disk m' := by
        rw [nearFree, nearFree, Finset.filter_congr fun b hb => by
          rw [U.bit_eq C' ((Finset.mem_range.mp hb).trans_le htotal)]]
      rw [hcount]
      exact F.free }

/-- What making `/a` leaves of a fresh volume. -/
structure FirstFile (disk : DiskInterface) (host : Host) (m m' : Image) : Prop where
  live : LiveVolume disk m
  fresh : Fresh disk 0 0 m
  consistent : Consistent disk (fun _ => none) m
  demands : Demands disk 14 (session disk [(host, .mknod [slash, 97] 0o100644)]) m
  run : run disk.mapping (session disk [(host, .mknod [slash, 97] 0o100644)]) m = some ([.status 0], m')
  file : ∃ r l, EmptyFile disk m' r l
  block : blockBit m' (dataStart disk.totalBlocks.toNat + 1) = true

/-- A volume on which `/a` was made before it was mounted, and what writing its first byte, at offset
`o`, then leaves. -/
structure FirstByte (disk : DiskInterface) (host : Host) (buf : Bytes) (o : ℕ) (m m' : Image) :
    Prop where
  live : LiveVolume disk m
  file : ∃ r l, EmptyFile disk m r l
  demands : Demands disk 7 (session disk [(host, .write [slash, 97] buf 1 o)]) m
  run : run disk.mapping (session disk [(host, .write [slash, 97] buf 1 o)]) m = some ([.status 1], m')
  found : RegularFile disk m' [slash, 97] 1
  pointer : blockAt m' (inodeAt disk m' 1) (o / usableBlockSize) ≠ 0
  read : BlockProg.run disk.mapping (nbtrfsRead disk [slash, 97] 1 o) m' = some ((1, [buf 0]), m')

namespace FirstByte

variable {host : Host} {buf : Bytes} {o : ℕ} (B : FirstByte disk host buf o m m')
include B

/-- A byte behind the twelfth page needs an indirect block. -/
theorem indirect_ne_zero (hlo : 12 ≤ o / usableBlockSize) : (inodeAt disk m' 1).indirectBlock ≠ 0 :=
  fun hzero => B.pointer (blockAt_of_zero (by omega) hzero)

/-- `getattr` answers with the inode of `/a`. -/
theorem result_nbtrfsGetattr : result disk.mapping (nbtrfsGetattr disk [slash, 97]) m' =
    some (0, some (Stat.ofInode (inodeAt disk m' 1) 1)) := by
  have hrun : BlockProg.run disk.mapping (nbtrfsGetattr disk [slash, 97]) m' =
      some ((0, some (Stat.ofInode (inodeAt disk m' 1) 1)), m') := by
    rw [nbtrfsGetattr, run_bind_of_eq B.found.lookup, if_pos (Or.inl (by decide)),
      run_bind_of_eq (B.found.layout.run_inodeCopy_slot B.found.capacity), run_pure]
    rfl
  exact result_of_eq hrun

end FirstByte

section Room

variable (hlow : 88 ≤ disk.totalBlocks.toNat) (hhigh : disk.totalBlocks.toNat ≤ 1048576)
  (hroom : dataStart disk.totalBlocks.toNat + 5 ≤ disk.addressable)
  (hcap : 1 < inodeCapacity disk.totalBlocks.toNat)
include hlow hhigh hroom hcap

/-- A device of zeros, formatted, takes `/a`. -/
theorem exists_firstFile (host : Host) : ∃ m m', FirstFile disk host m m' := by
  obtain ⟨m, hformat, F, C⟩ := exists_run_diskFormat_consistent (m := fun _ _ => 0) hlow hhigh
    (fun _ _ => rfl) 0 0 0 (show ([] : List UInt8).length ≤ 31 by decide)
  obtain ⟨g, m', hmknod, hasks, hfile, E⟩ := F.exists_emptyFile C hroom hcap host
  have hreply : run disk.mapping (FuseCall.run disk host (.mknod [slash, 97] 0o100644)) m =
      some (.status 0, m') := by
    rw [FuseCall.run, run_bind_of_eq hmknod, run_pure]
  exact ⟨m, m', {
    live := .formatted hlow hhigh (fun _ _ => rfl) (by decide) hformat
    fresh := F
    consistent := C
    demands := demands_session_one (hasks.bind_pure FuseReply.status)
    run := run_session_one.mpr hreply
    file := ⟨_, _, hfile⟩
    block := E.taken _ (List.mem_singleton_self _) }⟩

/-- After one mount, which makes the file, the next one can write it. -/
theorem exists_firstByte {cacheSize : ℕ} (hslots : disk.addressable ≤ cacheSize)
    (hint : (cacheSize : ℤ) ≤ intMax) (unset : ℤ → CacheEntry) (host : Host) (buf : Bytes) {o : ℕ}
    (hhi : o / usableBlockSize ≤ maxIndex) : ∃ m₀ m m',
      mountedRun disk (fun _ => .null) cacheSize unset
        (session disk [(host, .mknod [slash, 97] 0o100644)]) m₀ = some ([.status 0], m) ∧
      FirstByte disk host buf o m m' := by
  obtain ⟨m₀, m₁, A⟩ := exists_firstFile hlow hhigh hroom hcap host
  obtain ⟨r, l, hfile⟩ := A.file
  have hcalls : ∀ c ∈ [(host, FuseCall.mknod [slash, 97] 0o100644)], c.2.removes = false := by
    simp [FuseCall.removes]
  have hroomy := A.demands.roomy hslots hint (by decide)
  obtain ⟨own', m, hmounted, C₁, -, U⟩ := A.consistent.exists_unmounted hcalls hroomy A.run
  have hfile := hfile.unmounted U A.consistent C₁
  obtain ⟨m', hwrite, -, hfound, hpointer, hread⟩ := hfile.exists_write host buf hhi
  have hreply : run disk.mapping (FuseCall.run disk host (.write [slash, 97] buf 1 o)) m =
      some (.status 1, m') := by
    rw [FuseCall.run, run_bind_of_eq hwrite, run_pure]
  exact ⟨m₀, m, m', hmounted, {
    live := .mounted A.live hcalls hroomy hmounted
    file := ⟨_, _, hfile⟩
    demands := demands_session_one ((hfile.demands_nbtrfsWrite host buf hhi).bind_pure FuseReply.status)
    run := run_session_one.mpr hreply
    found := hfound
    pointer := hpointer
    read := hread }⟩

end Room

/-! The example has 88 blocks, and a cache with a slot for each of them. -/

theorem exists_firstFile_88 : ∃ m m', FirstFile ⟨88, by decide⟩ ⟨0, 0, 0, fun _ => 0⟩ m m' :=
  exists_firstFile (by decide) (by decide) (by decide) (by decide) _

/-- The cache has room for a call that stays within reach. -/
theorem roomy_88 {α : Type} {q : BlockProg α} (h : Demands ⟨88, by decide⟩ n q m)
    (hcount : (n : ℤ) ≤ intMax) : Roomy ⟨88, by decide⟩ (fun _ => .null) 88 q m :=
  h.roomy (by decide) (by decide) hcount

/-- One mount makes the file, and the next one writes it. -/
theorem exists_firstByte_88 {o : ℕ} (hhi : o / usableBlockSize ≤ maxIndex) : ∃ m₀ m m',
    mountedRun ⟨88, by decide⟩ (fun _ => .null) 88 (fun _ => ⟨false, 0, 0, 0, none, none, none⟩)
      (session ⟨88, by decide⟩ [(⟨0, 0, 0, fun _ => 0⟩, .mknod [slash, 97] 0o100644)]) m₀ =
        some ([.status 0], m) ∧
    FirstByte ⟨88, by decide⟩ ⟨0, 0, 0, fun _ => 0⟩ (fun _ => 7) o m m' :=
  exists_firstByte (by decide) (by decide) (by decide) (by decide) (by decide) (by decide) _ _ _ hhi

section Session

variable {calls : List (Host × FuseCall)} {replies : List FuseReply}

/-- The state after any calls on a volume in use. -/
theorem LiveVolume.consistent_session (h : LiveVolume disk m)
    (hcalls : ∀ c ∈ calls, c.2.removes = false)
    (hrun : run disk.mapping (session disk calls) m = some (replies, m')) :
    ∃ own, Consistent disk own m' := by
  obtain ⟨own, C⟩ := h.consistent
  obtain ⟨own', C', -⟩ := C.session hcalls hrun
  exact ⟨own', C'⟩

/-- After any calls on a volume in use no two pointers lead to the same block, and none to metadata, to
a node or to a free block. -/
theorem LiveVolume.soundPointers (h : LiveVolume disk m) (hcalls : ∀ c ∈ calls, c.2.removes = false)
    (hrun : run disk.mapping (session disk calls) m = some (replies, m')) : SoundPointers disk m' := by
  obtain ⟨own, C⟩ := h.consistent_session hcalls hrun
  exact C.pointers_sound

/-- The first byte behind the twelfth page: the file points to the page and to an indirect block. -/
theorem soundPointers_88 : ∃ m m',
    FirstByte ⟨88, by decide⟩ ⟨0, 0, 0, fun _ => 0⟩ (fun _ => 7) 49104 m m' ∧
    (∃ b, PointsTo ⟨88, by decide⟩ m' 1 (.entry 12) b) ∧
    (∃ b, PointsTo ⟨88, by decide⟩ m' 1 .indirect b) ∧ SoundPointers ⟨88, by decide⟩ m' := by
  obtain ⟨-, m, m', -, B⟩ := exists_firstByte_88 (show 49104 / usableBlockSize ≤ maxIndex by decide)
  exact ⟨m, m', B, ⟨_, .entry (by decide) (by decide) B.pointer⟩,
    ⟨_, .indirect (by decide) (B.indirect_ne_zero (by decide))⟩,
    B.live.soundPointers (by simp [FuseCall.removes]) B.run⟩

/-- Metadata stays in place and taken, and what is free stays as blank as the device was: a page that
`alloc_page` returns holds nothing of what was there before. -/
theorem LiveVolume.free_blank (h : LiveVolume disk m) (hcalls : ∀ c ∈ calls, c.2.removes = false)
    (hrun : run disk.mapping (session disk calls) m = some (replies, m')) :
    Sound disk m' ∧ ∀ b < disk.totalBlocks.toNat, blockBit m' b = false →
      dataStart disk.totalBlocks.toNat ≤ b ∧ ∀ o < blockSize, m' b o = 0 := by
  obtain ⟨own, C⟩ := h.consistent_session hcalls hrun
  refine ⟨C.sound, fun b hb hclear => ?_⟩
  have hbehind := C.behind_of_clear hclear
  exact ⟨hbehind, C.free b hbehind hb hclear⟩

/-- The block that making `/a` takes for the entry was free, and what is left is blank. -/
theorem free_blank_88 : ∃ m m', FirstFile ⟨88, by decide⟩ ⟨0, 0, 0, fun _ => 0⟩ m m' ∧
    blockBit m (dataStart 88 + 1) = false ∧ blockBit m' (dataStart 88 + 1) = true ∧
    Sound ⟨88, by decide⟩ m' ∧ (∃ b < 88, blockBit m' b = false) ∧
    ∀ b < 88, blockBit m' b = false → dataStart 88 ≤ b ∧ ∀ o < blockSize, m' b o = 0 := by
  obtain ⟨m, m', A⟩ := exists_firstFile_88
  obtain ⟨r, l, hfile⟩ := A.file
  obtain ⟨f, H⟩ := exists_firstFree (Nat.lt_of_lt_of_le Nat.zero_lt_two hfile.free)
  obtain ⟨hsound, hblank⟩ := A.live.free_blank (by simp [FuseCall.removes]) A.run
  exact ⟨m, m', A, A.fresh.blockBit_lt (by decide), A.block, hsound, ⟨f, H.lt_total, H.clear⟩, hblank⟩

/-- Whatever calls came before, a call accesses only pages that it obtained itself, and no word outside
a page. A page that it changes and does not announce belongs to the inode bitmap or holds data. -/
theorem LiveVolume.call_disciplined (h : LiveVolume disk m)
    (hcalls : ∀ c ∈ calls, c.2.removes = false)
    (hrun : run disk.mapping (session disk calls) m = some (replies, m')) (host : Host)
    {call : FuseCall} (hcall : call.removes = false) :
    Disciplined disk.mapping (call.run disk host) m' .empty fun _ m'' g =>
      ∀ q ∈ g.changed, q ∈ g.announced ∨ q ∈ inodeBitmapNumbers disk ∨
        DataBlock disk m'' q.toNat := by
  obtain ⟨own, C⟩ := h.consistent_session hcalls hrun
  have hcall : Abides disk (ownership disk Scope.all (inodeBitmapNumbers disk))
      (call.run disk host) own m' .empty :=
    upholds_call host call hcall trivial (fun n => Set.mem_univ n) subset_rfl
  refine (hcall.disciplined C).mono ?_
  rintro reply m'' g ⟨own', C', -, hgrow, -⟩ q hq
  rcases hgrow.changed hq with (hempty | hann) | ⟨n, hn⟩ | hbitmap
  · exact absurd hempty (Set.notMem_empty q)
  · exact Or.inl hann
  · exact Or.inr (Or.inr (C'.owned hn))
  · exact Or.inr (Or.inl hbitmap)

/-- Making a directory once the first byte of `/a` is written. -/
theorem call_disciplined_88 : ∃ m m',
    FirstByte ⟨88, by decide⟩ ⟨0, 0, 0, fun _ => 0⟩ (fun _ => 7) 0 m m' ∧
    Disciplined (DiskInterface.mapping ⟨88, by decide⟩)
      (FuseCall.run ⟨88, by decide⟩ ⟨0, 0, 0, fun _ => 0⟩ (.mkdir [slash, 98] 0o755)) m' .empty
      fun _ m'' g => ∀ q ∈ g.changed, q ∈ g.announced ∨ q ∈ inodeBitmapNumbers ⟨88, by decide⟩ ∨
        DataBlock ⟨88, by decide⟩ m'' q.toNat := by
  obtain ⟨-, m, m', -, B⟩ := exists_firstByte_88 (show 0 / usableBlockSize ≤ maxIndex by decide)
  exact ⟨m, m', B, B.live.call_disciplined (by simp [FuseCall.removes]) B.run ⟨0, 0, 0, fun _ => 0⟩ rfl⟩

end Session

section Mounted

variable {fresh : CachedDisk → Leftover} {cacheSize : ℕ} {calls : List (Host × FuseCall)}
  {replies : List FuseReply}

/-- Through the cache the calls return what they return on the device blocks themselves, or crash there
too. -/
theorem fst_mountedRun (C : Consistent disk own m) (hcalls : ∀ c ∈ calls, c.2.removes = false)
    (hroom : Roomy disk fresh cacheSize (session disk calls) m) (unset : ℤ → CacheEntry) :
    (mountedRun disk fresh cacheSize unset (session disk calls) m).map Prod.fst =
      result disk.mapping (session disk calls) m := by
  cases hrun : run disk.mapping (session disk calls) m with
  | none =>
      rw [C.mountedRun_of_crash hcalls hroom hrun, result_of_none hrun]
      rfl
  | some r =>
      obtain ⟨replies, m'⟩ := r
      obtain ⟨own', image, hmounted, -⟩ := C.exists_unmounted hcalls hroom hrun
      rw [hmounted, result_of_eq hrun]
      rfl

/-- Through the cache the calls answer what they answer on the device blocks themselves, up to a crash
of both. -/
theorem LiveVolume.mountedRun_replies (h : LiveVolume disk m) (hcalls : ∀ c ∈ calls, c.2.removes = false)
    (hroom : Roomy disk fresh cacheSize (session disk calls) m) (unset : ℤ → CacheEntry) :
    (mountedRun disk fresh cacheSize unset (session disk calls) m).map Prod.fst =
      result disk.mapping (session disk calls) m := by
  obtain ⟨own, C⟩ := h.consistent
  exact fst_mountedRun C hcalls hroom unset

/-- Mounted a second time, the volume answers that the byte was written. -/
theorem mountedRun_replies_88 : ∃ m₀ m,
    mountedRun ⟨88, by decide⟩ (fun _ => .null) 88 (fun _ => ⟨false, 0, 0, 0, none, none, none⟩)
      (session ⟨88, by decide⟩ [(⟨0, 0, 0, fun _ => 0⟩, .mknod [slash, 97] 0o100644)]) m₀ =
        some ([.status 0], m) ∧
    (mountedRun ⟨88, by decide⟩ (fun _ => .null) 88 (fun _ => ⟨false, 0, 0, 0, none, none, none⟩)
      (session ⟨88, by decide⟩ [(⟨0, 0, 0, fun _ => 0⟩, .write [slash, 97] (fun _ => 7) 1 0)])
      m).map Prod.fst = some [.status 1] := by
  obtain ⟨m₀, m, m', hmounted, B⟩ := exists_firstByte_88 (show 0 / usableBlockSize ≤ maxIndex by decide)
  exact ⟨m₀, m, hmounted, (B.live.mountedRun_replies (by simp [FuseCall.removes])
    (roomy_88 B.demands (by decide)) _).trans (result_of_eq B.run)⟩

/-- On a volume of up to 64 MiB the size that `alloc_cache` chooses is always enough: for the calls to
answer as on the device blocks, they only have to stay on the volume and to announce no more pages than
`gdl_size` can count. -/
theorem LiveVolume.mountedRun_chosenSize (h : LiveVolume disk m)
    (hcalls : ∀ c ∈ calls, c.2.removes = false) (hsmall : disk.totalBlocks.toNat ≤ 16384)
    {totalram : UInt64} (hram : totalram.toNat < 2 ^ 61)
    (hreach : ∀ q, .obtained q ∈ events disk.mapping (session disk calls) m →
      q.toNat < disk.addressable)
    (hcount : (PageEvent.announcements (events disk.mapping (session disk calls) m) : ℤ) ≤ intMax)
    (unset : ℤ → CacheEntry) :
    (mountedRun disk (fun _ => .null) (cacheSizeFor totalram).toNat unset (session disk calls)
        m).map Prod.fst =
      result disk.mapping (session disk calls) m := by
  obtain ⟨own, C⟩ := h.consistent
  exact fst_mountedRun C hcalls (roomy_of_small hsmall hram hreach hcount) unset

/-- So it does with the cache that a machine with 1 GiB of memory has. -/
theorem mountedRun_chosenSize_88 : ∃ m₀ m,
    mountedRun ⟨88, by decide⟩ (fun _ => .null) 88 (fun _ => ⟨false, 0, 0, 0, none, none, none⟩)
      (session ⟨88, by decide⟩ [(⟨0, 0, 0, fun _ => 0⟩, .mknod [slash, 97] 0o100644)]) m₀ =
        some ([.status 0], m) ∧
    (mountedRun ⟨88, by decide⟩ (fun _ => .null) (cacheSizeFor 1073741824).toNat
      (fun _ => ⟨false, 0, 0, 0, none, none, none⟩)
      (session ⟨88, by decide⟩ [(⟨0, 0, 0, fun _ => 0⟩, .write [slash, 97] (fun _ => 7) 1 0)])
      m).map Prod.fst = some [.status 1] := by
  obtain ⟨m₀, m, m', hmounted, B⟩ := exists_firstByte_88 (show 0 / usableBlockSize ≤ maxIndex by decide)
  have hcount := B.demands.count
  exact ⟨m₀, m, hmounted, (B.live.mountedRun_chosenSize (by simp [FuseCall.removes]) (by decide)
    (by decide) B.demands.below (by simp only [intMax]; omega) _).trans (result_of_eq B.run)⟩

/-- Paths and attributes survive unmounting. -/
theorem LiveVolume.remounted_attributes (h : LiveVolume disk m) (hcalls : ∀ c ∈ calls, c.2.removes = false)
    (hroom : Roomy disk fresh cacheSize (session disk calls) m) (unset : ℤ → CacheEntry)
    (hrun : run disk.mapping (session disk calls) m = some (replies, m')) :
    ∃ image, mountedRun disk fresh cacheSize unset (session disk calls) m = some (replies, image) ∧
      ∀ path, result disk.mapping (itemSearch disk path) image =
          result disk.mapping (itemSearch disk path) m' ∧
        result disk.mapping (nbtrfsAccess disk path) image =
          result disk.mapping (nbtrfsAccess disk path) m' ∧
        result disk.mapping (nbtrfsGetattr disk path) image =
          result disk.mapping (nbtrfsGetattr disk path) m' := by
  obtain ⟨own, C⟩ := h.consistent
  obtain ⟨own', image, hmounted, C', -, U⟩ := C.exists_unmounted hcalls hroom hrun
  have hlike := U.looksAlike C C'
  have hinodes := C'.sameInode_of_table fun b hlo hhi => U.table C' hlo hhi
  exact ⟨image, hmounted, fun path => ⟨(twin_itemSearch hlike path).result_eq,
    (twin_nbtrfsAccess hlike path).result_eq,
    (twin_nbtrfsGetattr C' (U.consistent C C') hlike path fun _ _ => hinodes _).result_eq⟩⟩

/-- After the second mount `/a` still has its attributes. -/
theorem remounted_attributes_88 : ∃ m m' image,
    FirstByte ⟨88, by decide⟩ ⟨0, 0, 0, fun _ => 0⟩ (fun _ => 7) 0 m m' ∧
    mountedRun ⟨88, by decide⟩ (fun _ => .null) 88 (fun _ => ⟨false, 0, 0, 0, none, none, none⟩)
      (session ⟨88, by decide⟩ [(⟨0, 0, 0, fun _ => 0⟩, .write [slash, 97] (fun _ => 7) 1 0)]) m =
        some ([.status 1], image) ∧
    result (DiskInterface.mapping ⟨88, by decide⟩) (nbtrfsGetattr ⟨88, by decide⟩ [slash, 97]) image =
      some (0, some (Stat.ofInode (inodeAt ⟨88, by decide⟩ m' 1) 1)) := by
  obtain ⟨-, m, m', -, B⟩ := exists_firstByte_88 (show 0 / usableBlockSize ≤ maxIndex by decide)
  obtain ⟨image, hmounted, hsame⟩ := B.live.remounted_attributes (by simp [FuseCall.removes])
    (roomy_88 B.demands (by decide)) (fun _ => ⟨false, 0, 0, 0, none, none, none⟩) B.run
  exact ⟨m, m', image, B, hmounted, (hsame [slash, 97]).2.2.trans B.result_nbtrfsGetattr⟩

/-- What a path leads to has no indirect block, or had it already when the volume was mounted. -/
def IndirectKept (disk : DiskInterface) (m m' : Image) (path : CString) : Prop :=
  ∀ pair node, run disk.mapping (itemSearch disk path) m' = some (pair, m') →
    run disk.mapping (inodeRead pair.inodeNumber) m' = some (some node, m') →
      node.indirectBlock ≠ 0 → blockBit m node.indirectBlock.toNat = true

/-- Names and data survive unmounting, other than data that a new indirect block leads to. -/
theorem LiveVolume.remounted_data (h : LiveVolume disk m) (hcalls : ∀ c ∈ calls, c.2.removes = false)
    (hroom : Roomy disk fresh cacheSize (session disk calls) m) (unset : ℤ → CacheEntry)
    (hrun : run disk.mapping (session disk calls) m = some (replies, m')) :
    ∃ image, mountedRun disk fresh cacheSize unset (session disk calls) m = some (replies, image) ∧
      ∀ path,
        (∀ size offset, offset + size.toNat ≤ 12 * usableBlockSize ∨ IndirectKept disk m m' path →
          result disk.mapping (nbtrfsRead disk path size offset) image =
            result disk.mapping (nbtrfsRead disk path size offset) m') ∧
        (IndirectKept disk m m' path →
          result disk.mapping (nbtrfsReaddir disk path) image =
            result disk.mapping (nbtrfsReaddir disk path) m') := by
  obtain ⟨own, C⟩ := h.consistent
  obtain ⟨own', image, hmounted, C', -, U⟩ := C.exists_unmounted hcalls hroom hrun
  have C'' := U.consistent C C'
  have hlike := U.looksAlike C C'
  have hinodes := C'.sameInode_of_table fun b hlo hhi => U.table C' hlo hhi
  have hdata : ∀ path pair, run disk.mapping (itemSearch disk path) m' = some (pair, m') →
      ∀ node, run disk.mapping (inodeRead pair.inodeNumber) m' = some (some node, m') →
        SameData (IndirectKept disk m m' path) m' image node := by
    intro path pair hpair node hread
    obtain ⟨k, -, -, hnode⟩ := C'.owns_of_run hread
    exact U.sameData C C' hnode fun hkept hne => hkept pair node hpair hread hne
  refine ⟨image, hmounted, fun path => ⟨fun size offset hend => ?_, fun hkept => ?_⟩⟩
  · exact (twin_nbtrfsRead C' C'' hlike path size offset hend fun pair hpair =>
      ⟨hinodes _, hdata path pair hpair⟩).result_eq
  · refine (twin_nbtrfsReaddir C' C'' hlike hinodes path fun pair hpair node hread => ?_).result_eq
    have hsame := hdata path pair hpair node hread
    exact ⟨fun i hi _ => hsame.entry i hi (Or.inr hkept), fun _ => hsame.indirect hkept⟩

/-- The byte is there when the volume is mounted again. -/
theorem remounted_data_88 : ∃ m m' image,
    FirstByte ⟨88, by decide⟩ ⟨0, 0, 0, fun _ => 0⟩ (fun _ => 7) 0 m m' ∧
    mountedRun ⟨88, by decide⟩ (fun _ => .null) 88 (fun _ => ⟨false, 0, 0, 0, none, none, none⟩)
      (session ⟨88, by decide⟩ [(⟨0, 0, 0, fun _ => 0⟩, .write [slash, 97] (fun _ => 7) 1 0)]) m =
        some ([.status 1], image) ∧
    result (DiskInterface.mapping ⟨88, by decide⟩) (nbtrfsRead ⟨88, by decide⟩ [slash, 97] 1 0) image =
      some (1, [7]) := by
  obtain ⟨-, m, m', -, B⟩ := exists_firstByte_88 (show 0 / usableBlockSize ≤ maxIndex by decide)
  obtain ⟨image, hmounted, hsame⟩ := B.live.remounted_data (by simp [FuseCall.removes])
    (roomy_88 B.demands (by decide)) (fun _ => ⟨false, 0, 0, 0, none, none, none⟩) B.run
  exact ⟨m, m', image, B, hmounted,
    ((hsame [slash, 97]).1 1 0 (Or.inl (by decide))).trans (result_of_eq B.read)⟩

/-- The loop of `nbtrfs_read` stops at a page that is not mapped. -/
theorem Consistent.ensures_readPages_unmapped (C : Consistent disk own m) {node : Inode} {k : ℕ}
    (hnode : Owns own m k node) (hzero : ∀ i, 12 ≤ i → i ≤ maxIndex → blockAt m node i = 0)
    {offset : ℕ} (hlo : 12 ≤ (pageIndex offset).toNat) (n remaining : ℕ) :
    Ensures disk.mapping (readPages node n offset remaining []) m fun r _ => r.2 = [] := by
  cases n with
  | zero => exact ensures_pure rfl
  | succ n =>
      rw [readPages]
      split
      next => exact ensures_pure rfl
      next =>
        refine ensures_bind ((ensures_inodeGetBlock C hnode).mono fun r m₁ hr => ?_)
        obtain ⟨rv, block⟩ := r
        show Ensures _ (if rv ≠ 0 then _ else _) _ _
        split
        next => exact ensures_pure rfl
        next =>
          -- the block is the null pointer, with which the read ends
          have hnull : block.getD 0 = 0 := by
            cases block with
            | none => rfl
            | some q =>
                by_contra hne
                obtain ⟨hi, rfl⟩ := hr q rfl hne
                exact hne (hzero _ hlo hi)
          simp only [hnull, if_true]
          exact ensures_pure rfl

/-- A read that starts on a page that is not mapped copies nothing. -/
theorem Consistent.ensures_readInode_unmapped (C : Consistent disk own m) {node : Inode} {k : ℕ}
    (hnode : Owns own m k node) (hzero : ∀ i, 12 ≤ i → i ≤ maxIndex → blockAt m node i = 0)
    (size : UInt64) {offset : ℕ} (hlo : 12 ≤ offset / usableBlockSize)
    (hhi : offset / usableBlockSize < 2147483648) :
    Ensures disk.mapping (readInode node size offset) m fun r _ => r.2 = [] := by
  have hindex : (pageIndex offset).toNat = offset / usableBlockSize := by
    rw [pageIndex, int32_of_lt hhi, ofInt_natCast, toNat_ofNat_block (by omega)]
  rw [readInode]
  split
  next => exact ensures_pure rfl
  next =>
    generalize (if node.size < UInt64.ofNat offset + size then node.size - UInt64.ofNat offset
      else size) = left
    show Ensures _ (if left = 0 then _ else _) _ _
    split
    next => exact ensures_pure rfl
    next => exact C.ensures_readPages_unmapped hnode hzero (by rwa [hindex]) _ _

/-- A read of a file that starts on a page that is not mapped returns no bytes. -/
theorem Consistent.result_nbtrfsRead_unmapped (C : Consistent disk own m) {path : CString}
    {pair : InodeBtreePair} (hpair : run disk.mapping (itemSearch disk path) m = some (pair, m))
    (hn : pair.inodeNumber.toNat < inodeCapacity disk.totalBlocks.toNat)
    (hzero : ∀ i, 12 ≤ i → i ≤ maxIndex →
      blockAt m (inodeAt disk m pair.inodeNumber.toNat) i = 0)
    (size : UInt64) {offset : ℕ} (hlo : 12 ≤ offset / usableBlockSize)
    (hhi : offset / usableBlockSize < 2147483648) {rv : ℤ} {buf : List UInt8}
    (hread : result disk.mapping (nbtrfsRead disk path size offset) m = some (rv, buf)) : buf = [] := by
  have hslot := C.sound.layout.run_inodeRead_slot hn
  obtain ⟨⟨a, m₁⟩, hrun, ha⟩ := Option.map_eq_some_iff.mp hread
  obtain rfl : a = (rv, buf) := ha
  rw [nbtrfsRead, run_bind_of_eq hpair] at hrun
  split at hrun
  next =>
    obtain ⟨heq, -⟩ := Prod.mk.inj (Option.some.inj hrun)
    exact (Prod.mk.inj heq).2.symm
  next =>
    split at hrun
    next =>
      obtain ⟨heq, -⟩ := Prod.mk.inj (Option.some.inj hrun)
      exact (Prod.mk.inj heq).2.symm
    next =>
      rw [run_bind_of_eq hslot] at hrun
      exact C.ensures_readInode_unmapped (C.inodes _ hn).2 hzero size hlo hhi _ _ hrun

/-- The entries of an indirect block that the calls added are lost. -/
theorem Unmounted.blockAt_eq_zero (U : Unmounted disk (own.witnessed disk m) m own' m' image)
    (C : Consistent disk own m) (C' : Consistent disk own' m') (C'' : Consistent disk own' image)
    (hn : n < inodeCapacity disk.totalBlocks.toNat) (hnone : (inodeAt disk m n).indirectBlock = 0)
    (hlo : 12 ≤ i) (hhi : i ≤ maxIndex) : blockAt image (inodeAt disk image n) i = 0 := by
  by_cases hindirect : (inodeAt disk image n).indirectBlock = 0
  · exact blockAt_of_zero (by omega) hindirect
  · have howner := (C''.inodes n hn).2.indirect hindirect
    -- the bookkeeping before the calls has no indirect block for this inode
    have hnew : NewIndirect (own.witnessed disk m) own'
        (inodeAt disk image n).indirectBlock.toNat := by
      refine ⟨n, howner, fun hold => ?_⟩
      have hpoints := C.pointsTo_of_witnessed hold
      generalize (inodeAt disk image n).indirectBlock.toNat = b at hpoints
      cases hpoints with
      | indirect _ hne => exact hne hnone
    obtain ⟨hclear, hsame⟩ := U.lost _ hnew
    have hblock := C'.owned howner
    rw [blockAt_of_ne (by omega) hindirect, hsame]
    exact load64_entry_of_blank (C.free _ hblock.behind hblock.lt hclear) hhi

/-- A file that had no indirect block when the volume was mounted has no page behind the twelfth after
unmounting, whatever was written there: its size and its indirect block are those that the calls left,
but the block that lists these pages lists none, and reading them copies nothing. -/
theorem LiveVolume.remounted_indirect (h : LiveVolume disk m)
    (hcalls : ∀ c ∈ calls, c.2.removes = false)
    (hroom : Roomy disk fresh cacheSize (session disk calls) m) (unset : ℤ → CacheEntry)
    (hrun : run disk.mapping (session disk calls) m = some (replies, m'))
    (hn : n < inodeCapacity disk.totalBlocks.toNat)
    (hnone : (inodeAt disk m n).indirectBlock = 0) :
    ∃ image, mountedRun disk fresh cacheSize unset (session disk calls) m = some (replies, image) ∧
      inodeAt disk image n = inodeAt disk m' n ∧
      (∀ i, 12 ≤ i → i ≤ maxIndex → blockAt image (inodeAt disk image n) i = 0) ∧
      ∀ path pair, run disk.mapping (itemSearch disk path) m' = some (pair, m') →
        pair.inodeNumber.toNat = n → ∀ size offset, 12 ≤ offset / usableBlockSize →
          offset / usableBlockSize < 2147483648 → ∀ rv buf,
            result disk.mapping (nbtrfsRead disk path size offset) image = some (rv, buf) →
              buf = [] := by
  obtain ⟨own₀, C₀⟩ := h.consistent
  have C := C₀.witnessed
  obtain ⟨own', image, hmounted, C', -, U⟩ := C.exists_unmounted hcalls hroom hrun
  have C'' := U.consistent C C'
  have hzero : ∀ i, 12 ≤ i → i ≤ maxIndex → blockAt image (inodeAt disk image n) i = 0 :=
    fun i hlo hhi => U.blockAt_eq_zero C₀ C' C'' hn hnone hlo hhi
  refine ⟨image, hmounted, U.inodeAt_eq C' hn, hzero, fun path pair hpair hnumber size offset hlo hhi rv
    buf hread => ?_⟩
  obtain ⟨-, hpair'⟩ := (twin_itemSearch (U.looksAlike C C') path).run_eq hpair
  rw [← hnumber] at hn hzero
  exact C''.result_nbtrfsRead_unmapped hpair' hn hzero size hlo hhi hread

/-- The first byte behind the twelfth page is read back before unmounting. Afterwards the file has its
indirect block still, but no page behind the twelfth. -/
theorem remounted_indirect_88 : ∃ m m' image,
    FirstByte ⟨88, by decide⟩ ⟨0, 0, 0, fun _ => 0⟩ (fun _ => 7) 49104 m m' ∧
    result (DiskInterface.mapping ⟨88, by decide⟩) (nbtrfsRead ⟨88, by decide⟩ [slash, 97] 1 49104) m' =
      some (1, [7]) ∧
    mountedRun ⟨88, by decide⟩ (fun _ => .null) 88 (fun _ => ⟨false, 0, 0, 0, none, none, none⟩)
      (session ⟨88, by decide⟩ [(⟨0, 0, 0, fun _ => 0⟩, .write [slash, 97] (fun _ => 7) 1 49104)]) m =
        some ([.status 1], image) ∧
    (inodeAt ⟨88, by decide⟩ image 1).indirectBlock ≠ 0 ∧
    blockAt m' (inodeAt ⟨88, by decide⟩ m' 1) 12 ≠ 0 ∧
    blockAt image (inodeAt ⟨88, by decide⟩ image 1) 12 = 0 ∧
    ∀ rv buf, result (DiskInterface.mapping ⟨88, by decide⟩)
      (nbtrfsRead ⟨88, by decide⟩ [slash, 97] 1 49104) image = some (rv, buf) → buf = [] := by
  obtain ⟨-, m, m', -, B⟩ := exists_firstByte_88 (show 49104 / usableBlockSize ≤ maxIndex by decide)
  obtain ⟨r, l, hfile⟩ := B.file
  obtain ⟨image, hmounted, hinode, hzero, hread⟩ := B.live.remounted_indirect
    (by simp [FuseCall.removes]) (roomy_88 B.demands (by decide))
    (fun _ => ⟨false, 0, 0, 0, none, none, none⟩) B.run (show 1 < _ by decide) hfile.indirect
  refine ⟨m, m', image, B, result_of_eq B.read, hmounted, ?_, B.pointer, hzero 12 le_rfl (by decide),
    hread _ _ B.found.lookup rfl 1 49104 (by decide) (by decide)⟩
  rw [hinode]
  exact B.indirect_ne_zero (by decide)

end Mounted

end Nbtrfs
