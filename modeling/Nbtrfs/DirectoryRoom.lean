import Nbtrfs.AddExact

/-!
# When a directory has a place for an entry

Reference: `directory.c::directory_add_entry`.

The function looks for a slot in the blocks of the directory and in the pages that it allocates behind
them, up to twelve. In the last of twelve pages it looks again and again, and counts on, until the
count that the slots are compared with is reached or the loop ends.
-/

namespace Nbtrfs

open BlockProg Bytes

variable {disk : DiskInterface} {m m' : Image} {name : CString} {pair : InodeBtreePair}
  {host : Host} {target : UInt64} {type : UInt32} {blocks : List ℕ} {b c f i j k n : ℕ} {pg : Bytes}
  {header : Bool} {limit count number : UInt16} {rv : ℤ}

/-- Whether the search over the pages from number `i` on ends at a slot, after `count` active ones.
`last` is what the slots of the page before were compared with. -/
def endsAtSlot : List (Bytes × UInt16) → ℕ → UInt16 → UInt16 → Bool
  | [], i, _, last => i = 12 ∧ entriesPerBlock * i ≤ last.toNat ∧
      last.toNat < entriesPerBlock * directoryBlocks
  | (pg, limit) :: pages, i, count, _ =>
      match freeSlot pg (i = 0) limit entriesPerBlock 0 count with
      | (some _, _) => true
      | (none, count) => endsAtSlot pages (i + 1) count limit

/-- The directory has a place for one more entry. -/
def HasPlace (disk : DiskInterface) (m : Image) (blocks : List ℕ) : Prop :=
  endsAtSlot (entryPages disk m blocks) 0 0 0 = true

/-- The inode bitmap is as it was. -/
def KeepsInodeBitmap (disk : DiskInterface) (m m' : Image) : Prop :=
  ∀ b, inodeBitmapStart disk.totalBlocks.toNat ≤ b → b < inodeTableStart disk.totalBlocks.toNat →
    m' b = m b

/-- No slot that was passed is the one at which the count is reached. -/
theorem freeSlot_none_ne (h : freeSlot pg header limit n j count = (none, number)) (hk : k < n) :
    count + UInt16.ofNat k ≠ limit := by
  induction n generalizing j k count with
  | zero => exact absurd hk (Nat.not_lt_zero k)
  | succ n ih =>
      rw [freeSlot] at h
      by_cases hstop : entryActive pg (entryAt header j) = false ∨ count = limit
      · rw [if_pos hstop] at h
        cases h
      · rw [if_neg hstop] at h
        cases k with
        | zero => exact fun hzero => hstop (Or.inr (by rw [← hzero]; exact (UInt16.add_zero count).symm))
        | succ k =>
            have hne := ih h (Nat.lt_of_succ_lt_succ hk)
            rwa [UInt16.add_assoc, ← UInt16.ofNat_one, ← UInt16.ofNat_add, Nat.add_comm 1] at hne

/-- A new block does not touch the inode bitmap. -/
theorem keepsInodeBitmap_newBlock {inum : UInt64} (H : FirstFree disk m f)
    (hf : dataStart disk.totalBlocks.toNat ≤ f) :
    KeepsInodeBitmap disk m (newBlock disk m inum k f) := by
  intro b hlo hhi
  have htable := inodeTableStart_le disk.totalBlocks.toNat
  have hslot := slotBlock_ge disk inum.toNat
  have hstart : inodeBitmapStart disk.totalBlocks.toNat =
    1 + blockBitmapBlocks disk.totalBlocks.toNat := rfl
  rw [newBlock, putInode, Function.update_of_ne (by omega), tookPage,
    Function.update_of_ne (by omega), takeBlock_of_behind H.lt_total (by omega)]

namespace EntryBlocks

variable (E : EntryBlocks disk m pair.inodeNumber blocks)
include E

/-- The last of twelve pages, from turn `i` of the loop on. -/
theorem rescan_cases (hi : 12 ≤ i) (hn : i + n = directoryBlocks) (hb : b ∈ blocks) (hc : c ∈ blocks)
    (hall : ∀ k < entriesPerBlock, entryActive (m b) (entryAt false k) = true)
    (hrun : run disk.mapping (addEntryFrom disk host pair name target type n i
      (inodeAt disk m pair.inodeNumber.toNat) (UInt64.ofNat b) (UInt64.ofNat c)
      (UInt16.ofNat (entriesPerBlock * i)) number) m = some (rv, m')) :
    rv = 0 ∧ entriesPerBlock * i ≤ (entryCount (m c)).toNat ∧
        (entryCount (m c)).toNat < entriesPerBlock * directoryBlocks ∨
      rv = -1 ∧ m' = m ∧ ¬(entriesPerBlock * i ≤ (entryCount (m c)).toNat ∧
        (entryCount (m c)).toNat < entriesPerBlock * directoryBlocks) := by
  have hepb : entriesPerBlock = 15 := rfl
  have hmax : directoryBlocks = 4356 := rfl
  induction n generalizing i number with
  | zero =>
      cases hrun
      obtain rfl : i = directoryBlocks := by omega
      exact Or.inr ⟨rfl, rfl, fun h => absurd h.2 (by omega)⟩
  | succ n ih =>
      rw [E.run_lastBlock hi (by omega) hb hc] at hrun
      rcases hslot : freeSlot (m b) false (entryCount (m c)) entriesPerBlock 0
        (UInt16.ofNat (entriesPerBlock * i)) with ⟨_ | k, d⟩
      · -- the header is not reached in this turn
        rw [hslot] at hrun
        obtain ⟨-, hd⟩ := freeSlot_none hslot
        rw [← UInt16.ofNat_add, ← Nat.mul_succ] at hd
        have hpass : ∀ k < entriesPerBlock, (entryCount (m c)).toNat ≠ entriesPerBlock * i + k := by
          intro k hk heq
          have hne := freeSlot_none_ne hslot hk
          rw [← UInt16.ofNat_add, ← heq, UInt16.ofNat_toNat] at hne
          exact hne rfl
        have hnext : ¬(entriesPerBlock * i ≤ (entryCount (m c)).toNat ∧
            (entryCount (m c)).toNat < entriesPerBlock * i + entriesPerBlock) := fun h =>
          hpass ((entryCount (m c)).toNat - entriesPerBlock * i) (by omega) (by omega)
        rw [hd] at hrun
        rcases ih (i := i + 1) (by omega) (by omega) hrun with ⟨hrv, hlo, hhi⟩ | ⟨hrv, hsame, hnot⟩
        · exact Or.inl ⟨hrv, by rw [Nat.mul_succ] at hlo; omega, hhi⟩
        · refine Or.inr ⟨hrv, hsame, fun h => hnot ⟨?_, h.2⟩⟩
          rw [Nat.mul_succ]
          omega
      · rw [hslot] at hrun
        obtain ⟨-, hk, -, hd⟩ := freeSlot_some hslot
        have hstop := freeSlot_active hslot (hall k (by omega))
        refine Or.inl ⟨storeEntry_zero hrun, ?_⟩
        have hbound : entriesPerBlock * i ≤ 65325 :=
          Nat.mul_le_mul_left entriesPerBlock (show i ≤ 4355 by omega)
        have hend : entriesPerBlock * directoryBlocks = 65340 := rfl
        rw [← hstop, hd, ← UInt16.ofNat_add, UInt16.toNat_ofNat', Nat.mod_eq_of_lt (by omega)]
        omega

/-- The search from page number `i` on, behind pages with active slots only. -/
theorem add_cases (hi : i ≤ blocks.length) (hn : i + n = directoryBlocks) {block db : UInt64}
    (A : FullBefore m blocks i) (hdb : i ≠ 0 → i < blocks.length → db = UInt64.ofNat (blocks.headD 0))
    (hlast : i ≠ 0 → i = blocks.length → (∃ b, blocks[i - 1]? = some b ∧ block = UInt64.ofNat b) ∧
      ∃ c ∈ blocks, db = UInt64.ofNat c ∧ entryCount (m c) = limit)
    (hrun : run disk.mapping (addEntryFrom disk host pair name target type n i
      (inodeAt disk m pair.inodeNumber.toNat) block db (UInt16.ofNat (entriesPerBlock * i)) number) m =
        some (rv, m')) :
    rv = 0 ∧ endsAtSlot ((entryPages disk m blocks).drop i) i (UInt16.ofNat (entriesPerBlock * i))
        limit = true ∨
      rv = -1 ∧ KeepsInodeBitmap disk m m' ∧ endsAtSlot ((entryPages disk m blocks).drop i) i
        (UInt16.ofNat (entriesPerBlock * i)) limit = false := by
  have hmax : directoryBlocks = 4356 := rfl
  induction n generalizing m blocks i block db number limit with
  | zero =>
      have hle := E.le
      exact absurd hn (by omega)
  | succ n ih =>
      have hle := E.le
      have hcount : ∀ {d}, d = UInt16.ofNat (entriesPerBlock * i) + UInt16.ofNat entriesPerBlock →
          d = UInt16.ofNat (entriesPerBlock * (i + 1)) := fun h => by
        rw [h, ← UInt16.ofNat_add, Nat.mul_succ]
      rcases Nat.lt_or_eq_of_le hi with hlt | rfl
      · -- a block of the directory
        have hb : blocks[i]? = some blocks[i] := List.getElem?_eq_getElem hlt
        have hhead : blocks.headD 0 = blocks[0] := headD_eq (List.getElem?_eq_getElem (by omega))
        rw [E.run_oldBlock hlt fun h0 => by rw [hdb h0 hlt, hhead]] at hrun
        rw [entryPages_drop_old hlt, endsAtSlot]
        rcases hslot : freeSlot (m blocks[i]) (i = 0) (entryCount (m blocks[0])) entriesPerBlock 0
          (UInt16.ofNat (entriesPerBlock * i)) with ⟨_ | k, d⟩
        · rw [hslot] at hrun
          obtain ⟨hall, hd⟩ := freeSlot_none hslot
          obtain rfl := hcount hd
          exact ih E hlt (by omega) (A.succ hb hall) (fun _ _ => by rw [hhead])
            (fun _ _ => ⟨⟨_, hb, rfl⟩, _, List.getElem_mem _, rfl, rfl⟩) hrun
        · rw [hslot] at hrun
          exact Or.inl ⟨storeEntry_zero hrun, rfl⟩
      · rcases Nat.lt_or_eq_of_le hle with hroom | hfull
        · -- a new one, or there is no page
          rcases E.newBlock_cases hroom hrun with ⟨f, H⟩ | ⟨rfl, hsame, hset⟩
          · have E₁ := E.withNewBlock H hroom
            have hbehind := H.behind_of_marked E.sound.metadata
            have hlen : (blocks ++ [f]).length = blocks.length + 1 := by
              rw [List.length_append, List.length_singleton]
            have hb : (blocks ++ [f])[blocks.length]? = some f := by
              rw [List.getElem?_append_right le_rfl, Nat.sub_self, List.getElem?_cons_zero]
            have hsame : ∀ o, 4 ≤ o →
                newBlock disk m pair.inodeNumber blocks.length f f o = m f o := fun o ho => by
              rw [E.newBlock_apply H hbehind, if_pos rfl, setBlockType_apply ho]
            have hbitmap : KeepsInodeBitmap disk m (newBlock disk m pair.inodeNumber blocks.length f) :=
              keepsInodeBitmap_newBlock H hbehind
            rw [E.run_newBlock H hroom, ← inodeAt_newBlock] at hrun
            rw [E.entryPages_newBlock H hroom, endsAtSlot]
            rcases hslot : freeSlot (m f) (blocks.length = 0) (entryCount (m f)) entriesPerBlock 0
              (UInt16.ofNat (entriesPerBlock * blocks.length)) with ⟨_ | k, d⟩
            · rw [hslot] at hrun
              obtain ⟨hall, hd⟩ := freeSlot_none hslot
              obtain rfl := hcount hd
              have A₁ := (E.fullBefore_newBlock H A).succ hb fun k hlo hhi =>
                (entryActive_congr hsame _ k).trans (hall k hlo hhi)
              rcases ih E₁ hlen.ge (by omega) A₁ (fun _ h => absurd h (by omega))
                (fun _ _ => ⟨⟨f, hb, rfl⟩, f, List.mem_of_getElem? hb, rfl, entryCount_congr hsame⟩)
                hrun with h | ⟨hrv, hkeep, hends⟩
              · exact Or.inl h
              · exact Or.inr ⟨hrv, fun b hlo hhi => by rw [hkeep b hlo hhi, hbitmap b hlo hhi], hends⟩
            · rw [hslot] at hrun
              exact Or.inl ⟨storeEntry_zero hrun, rfl⟩
          · have hnone : freeBlocks disk m = [] := by
              refine List.eq_nil_iff_forall_not_mem.mpr fun b hb => ?_
              obtain ⟨hb, hclear⟩ := mem_freeBlocks.mp hb
              rw [hset b hb] at hclear
              cases hclear
            refine Or.inr ⟨rfl, fun b _ _ => congrFun hsame b, ?_⟩
            rw [entryPages_drop_length, hnone, List.take_nil, List.map_nil, endsAtSlot]
            exact decide_eq_false fun h => absurd h.1 (by omega)
        · -- twelve pages
          obtain ⟨⟨b, hb, rfl⟩, c, hc, rfl, rfl⟩ := hlast (by omega) rfl
          have hall : ∀ k < entriesPerBlock, entryActive (m b) (entryAt false k) = true := by
            intro k hk
            have h := A _ b hb (by omega) k hk
            rwa [decide_eq_false (show blocks.length - 1 ≠ 0 by omega)] at h
          rw [entryPages_drop_length, hfull, Nat.sub_self, List.take_zero, List.map_nil, endsAtSlot]
          rw [hfull] at hrun hn
          rcases E.rescan_cases le_rfl hn (List.mem_of_getElem? hb) hc hall hrun with
            ⟨hrv, hends⟩ | ⟨hrv, hsame, hends⟩
          · exact Or.inl ⟨hrv, decide_eq_true ⟨rfl, hends⟩⟩
          · exact Or.inr ⟨hrv, fun b _ _ => congrFun hsame b, decide_eq_false fun h => hends h.2⟩

/-- `directory_add_entry` succeeds if and only if there is a place; it does not touch the inode bitmap
when it fails. -/
theorem directoryAddEntry_cases {path : CString} (hpath : LeadsTo disk m path pair)
    (hrun : run disk.mapping (directoryAddEntry disk host path name target type) m = some (rv, m')) :
    rv = 0 ∧ HasPlace disk m blocks ∨
      rv = -1 ∧ KeepsInodeBitmap disk m m' ∧ ¬HasPlace disk m blocks := by
  rw [directoryAddEntry, run_bind_of_eq hpath.1, if_pos hpath.2,
    run_bind_of_eq (E.sound.layout.run_inodeRead_slot E.capacity), Option.getD_some] at hrun
  rw [HasPlace, Bool.not_eq_true]
  exact E.add_cases (Nat.zero_le _) (Nat.zero_add _) (fun i' _ _ h => absurd h (Nat.not_lt_zero i'))
    (fun h => absurd rfl h) (fun h => absurd rfl h) hrun

end EntryBlocks

end Nbtrfs
