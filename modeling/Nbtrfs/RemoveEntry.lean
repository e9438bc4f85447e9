import Nbtrfs.AddedEntry

/-!
# Removing a directory entry

Reference: `directory.c::directory_remove_entry`.

The function decrements `entry_count` in the page and then stores the number that it saved before the
loop: the header never counts the removed entry off. It compares names without a look at the active
flag, and the loop ends at the first block where as many slots were passed as the header counts. So it
does what it is for only where there is nothing to remove. In a directory that `item_search` does not find,
it removes nothing at all.
-/

namespace Nbtrfs

open BlockProg Bytes

variable {disk : DiskInterface} {m m' : Image} {path name : CString} {pair : InodeBtreePair}
  {blocks : List ℕ} {b first i j n t : ℕ} {node file : Inode} {block db : UInt64}
  {count number : UInt16} {rv rv' : ℤ}

/-! ## What the function is for -/

/-- Slot `j` of entry block `t` holds an active entry with the name. -/
def ActiveNamed (m : Image) (blocks : List ℕ) (name : CString) : Prop :=
  ∃ t b j, blocks[t]? = some b ∧ j < entriesPerBlock ∧
    entryActive (m b) (entryAt (t = 0) j) = true ∧ entryNamed (m b) (entryAt (t = 0) j) name = true

/-- From `m` to `m'` slot `j` of entry block `t` became inactive and was counted off; the other slots
and the inodes other than the one of the entry stayed. -/
structure RemovesSlot (disk : DiskInterface) (m m' : Image) (blocks : List ℕ) (t j : ℕ) : Prop where
  inactive : ∀ b, blocks[t]? = some b → entryActive (m' b) (entryAt (t = 0) j) = false
  count : ∀ b, blocks[0]? = some b → entryCount (m' b) + 1 = entryCount (m b)
  slots : ∀ i b, blocks[i]? = some b → ∀ k < entriesPerBlock, i ≠ t ∨ k ≠ j →
    ∀ o < sizeofDirEntry, m' b (entryAt (i = 0) k + o) = m b (entryAt (i = 0) k + o)
  inodes : ∀ b, blocks[t]? = some b → ∀ n < inodeCapacity disk.totalBlocks.toNat,
    n ≠ (load64 (m b) (entryAt (t = 0) j)).toNat → inodeAt disk m' n = inodeAt disk m n

/-- `directory_remove_entry` returned `rv` and removed the entry with the name, if there is one. -/
structure RemovesExactly (disk : DiskInterface) (m m' : Image) (blocks : List ℕ) (name : CString)
    (rv : ℤ) : Prop where
  result : rv = 0 ↔ ActiveNamed m blocks name
  removed : ActiveNamed m blocks name → ∃ t b j, blocks[t]? = some b ∧ j < entriesPerBlock ∧
    entryActive (m b) (entryAt (t = 0) j) = true ∧
    entryNamed (m b) (entryAt (t = 0) j) name = true ∧ RemovesSlot disk m m' blocks t j
  unchanged : ¬ActiveNamed m blocks name → m' = m

/-- `directory_remove_entry` returns, and removes the entry with the name, if there is one. -/
def RemovesEntry (disk : DiskInterface) (m : Image) (path : CString) (blocks : List ℕ) (name : CString) :
    Prop :=
  ∃ rv m', run disk.mapping (directoryRemoveEntry disk path name) m = some (rv, m') ∧
    RemovesExactly disk m m' blocks name rv

/-- The loop comes to entry block `i`, unless it found the name before: the header counts no multiple
of the slots of a block that was passed. -/
def Reached (m : Image) (blocks : List ℕ) (i : ℕ) : Prop :=
  ∀ i' ≤ i, entriesPerBlock * i' ≠ (entryCount (m (blocks.headD 0))).toNat

/-- No slot that the loop compares has the name, active or not. -/
def NoneNamed (m : Image) (blocks : List ℕ) (name : CString) : Prop :=
  ∀ i b, blocks[i]? = some b → Reached m blocks i →
    ∀ k < entriesPerBlock, entryNamed (m b) (entryAt (i = 0) k) name = false

/-- No active entry has the name; and the directory is not found, or no slot that is compared with the
name has it either. -/
structure NothingToRemove (disk : DiskInterface) (m : Image) (path : CString) (blocks : List ℕ)
    (name : CString) : Prop where
  active : ¬ActiveNamed m blocks name
  reached : Misses disk m path ∨ NoneNamed m blocks name

/-- The first slot of a directory of several blocks has the name: no slot is counted then, and the next
block is read as the first one. -/
def Restarts (m : Image) (blocks : List ℕ) (name : CString) : Prop :=
  1 < blocks.length ∧ ∃ b, blocks[0]? = some b ∧ Reached m blocks 0 ∧
    entryNamed (m b) (entryAt true 0) name = true

/-! ## Nothing to remove -/

theorem namedSlot_none {pg : Bytes} {header : Bool}
    (h : ∀ k < entriesPerBlock, entryNamed pg (entryAt header k) name = false) :
    namedSlot pg header name entriesPerBlock 0 = none := by
  rcases namedSlot_cases pg header name entriesPerBlock 0 with ⟨hnone, -⟩ | ⟨k, -, -, hk, hnamed, -⟩
  · exact hnone
  · rw [h k (by omega)] at hnamed
    cases hnamed

namespace DataBlocks

variable (D : DataBlocks disk m pair.inodeNumber blocks)
include D

/-- Behind the blocks of the directory the loop ends. -/
theorem run_removeEnd (hi : blocks.length = i) (hlt : i < 12) :
    run disk.mapping (removeEntryFrom disk pair (inodeAt disk m pair.inodeNumber.toNat) name (n + 1) i
      file block db count number rv) m = some (rv, m) := by
  obtain ⟨rv', hget⟩ := D.run_getBlock hlt
  rw [List.getElem?_eq_none (by omega)] at hget
  rw [removeEntryFrom, run_bind_of_eq hget]
  simp only [Option.map_none, Option.getD_none, Option.getD_some]
  rw [if_pos trivial, run_pure]

/-- The loop when no slot that it compares has the name. -/
theorem run_removeNone (hfirst : blocks[0]? = some first)
    (hnone : NoneNamed m blocks name)
    (hpassed : ∀ i' < i, entriesPerBlock * i' ≠ (entryCount (m first)).toNat)
    (hi : i ≤ blocks.length ∨ 12 ≤ i)
    (hlast : 12 ≤ i → ∃ b, blocks[11]? = some b ∧ block = UInt64.ofNat b)
    (hdb : i ≠ 0 → db = UInt64.ofNat first) (hnumber : i ≠ 0 → number = entryCount (m first))
    (hmax : i + n ≤ directoryBlocks) :
    run disk.mapping (removeEntryFrom disk pair (inodeAt disk m pair.inodeNumber.toNat) name n i file
      block db (UInt16.ofNat (entriesPerBlock * i)) number rv) m = some (rv, m) := by
  induction n generalizing i block db number with
  | zero => rfl
  | succ n ih =>
      have hbound : directoryBlocks = 4356 := rfl
      have hcount : entriesPerBlock * i ≤ 65340 :=
        Nat.mul_le_mul_left entriesPerBlock (show i ≤ 4356 by omega)
      have hle := D.le
      -- a step that looks at block `b`, which is number `p` of the directory
      have hstep : ∀ p b, blocks[p]? = some b → p ≤ i → (p = 0 ↔ i = 0) →
          (12 ≤ i + 1 → p = 11) → i < blocks.length ∨ 12 ≤ i → ∀ rv' mapped, run disk.mapping (inodeGetBlock
            (inodeAt disk m pair.inodeNumber.toNat) (UInt64.ofNat i)) m = some ((rv', mapped), m) →
          mapped.getD block = UInt64.ofNat b →
          run disk.mapping (removeEntryFrom disk pair (inodeAt disk m pair.inodeNumber.toNat) name
            (n + 1) i file block db (UInt16.ofNat (entriesPerBlock * i)) number rv) m =
              some (rv, m) := by
        intro p b hb hpi hzero hnext hwhere rv' mapped hget hself
        have hmem : b ∈ blocks := List.mem_of_getElem? hb
        obtain ⟨hlt, -⟩ := List.getElem?_eq_some_iff.mp hb
        have hheader : decide (p = 0) = decide (i = 0) := decide_eq_decide.mpr hzero
        rw [D.run_removeBlock hfirst hmem hget hself (by omega) (fun h0 => ?_) hdb hnumber]
        · split
          · rfl
          · next hon =>
            have hreached : ∀ i' ≤ i, entriesPerBlock * i' ≠ (entryCount (m first)).toNat := by
              intro i' hi'
              rcases Nat.lt_or_eq_of_le hi' with hlt | rfl
              · exact hpassed i' hlt
              · exact hon
            have hslots := hnone p b hb (fun i' hi' => by
              rw [headD_eq hfirst]
              exact hreached i' (by omega))
            rw [hheader] at hslots
            rw [removeInBlock, namedSlot_none hslots]
            simp only
            rw [← UInt16.ofNat_add, ← Nat.mul_succ]
            exact ih (fun i' hi' => hreached i' (by omega)) (by omega)
              (fun h12 => ⟨b, by rw [← hnext h12, hb], rfl⟩) (fun _ => rfl) (fun _ => rfl) (by omega)
        · obtain rfl := hzero.mpr h0
          exact Option.some.inj (hb.symm.trans hfirst)
      by_cases hlo : i < 12
      · by_cases hlt : i < blocks.length
        · have hb : blocks[i]? = some blocks[i] := List.getElem?_eq_getElem hlt
          obtain ⟨rv', hget⟩ := D.run_getBlock_of_mem hb
          exact hstep i _ hb le_rfl Iff.rfl (by omega) (Or.inl hlt) _ _ hget rfl
        · exact D.run_removeEnd (by omega) hlo
      · -- the last block is read again
        obtain ⟨b, hb, rfl⟩ := hlast (by omega)
        exact hstep 11 b hb (by omega) (by omega) (fun _ => rfl) (by omega) _ _
          (D.run_getBlock_past (by omega) (by omega)) rfl

end DataBlocks

/-! ## The header after a removal -/

section Header

variable (hnode : node.directBlocks[0]? = some (UInt64.ofNat first))
  (haddr : disk.mapping.addr (UInt64.ofNat first) = some first)
include hnode haddr

/-- The number of entries that was saved is stored again. -/
theorem ensures_writeEntryCount (block : UInt64) :
    Ensures disk.mapping (writeEntryCount pair node block number) m fun block' m' =>
      block' = UInt64.ofNat first ∧ entryCount (m' first) = number := by
  have hget : run disk.mapping (inodeGetBlock node 0) m = _ := run_inodeGetBlock_direct (by decide)
  obtain ⟨_, hzero⟩ := Vector.getElem?_eq_some_iff.mp hnode
  refine ensures_bind (ensures_of_run hget ?_)
  refine ensures_fetch_bind (ensures_bind (ensures_modify fun c hc => ensures_writeBack_bind
    (ensures_pure ⟨hzero, ?_⟩)))
  have hc : disk.mapping.addr (UInt64.ofNat first) = some c := hzero ▸ hc
  obtain rfl := Option.some.inj (haddr.symm.trans hc)
  rw [Function.update_self, setEntryCount, entryCount]
  exact load16_store16_same _ _ _

/-- However many entries are left in its loop, the removal stores the count in the first block. -/
theorem ensures_removeEntry (e : ℕ) :
    Ensures disk.mapping (removeEntry disk pair node file name block db e number) m fun r m' =>
      r.1 = UInt64.ofNat first ∧ entryCount (m' first) = number := by
  refine ensures_bind fun _ _ _ => ensures_bind fun _ _ _ => ensures_bind fun _ _ _ =>
    ensures_bind fun _ _ _ => ?_
  -- however the inode and the tree are left, the header is written last
  have hend : ∀ (file : Inode) m, Ensures disk.mapping (do
      let block ← writeEntryCount pair node block number
      pure (block, file)) m fun r m' =>
        r.1 = UInt64.ofNat first ∧ entryCount (m' first) = number := fun file m =>
    ensures_bind ((ensures_writeEntryCount hnode haddr _).mono fun _ _ h => ensures_pure h)
  show Ensures _ (if _ then _ else _) _ _
  split
  · exact ensures_bind fun _ _ _ => ensures_bind fun _ _ _ => ensures_writeBack_bind (hend _ _)
  · exact ensures_writeBack_bind (hend _ _)

/-- Once slots are counted, the header keeps the number that was saved. -/
theorem ensures_removeRest (hindirect : node.indirectBlock = 0) (hpos : 0 < count.toNat)
    (hmax : count.toNat + entriesPerBlock * n < 65536) (hnumber : entryCount (m first) = number) :
    Ensures disk.mapping (removeEntryFrom disk pair node name n i file block db count number rv) m
      fun rv' m' => entryCount (m' first) = number ∧ (rv = 0 → rv' = 0) := by
  induction n generalizing m i file block db count rv with
  | zero => exact ensures_pure ⟨hnumber, id⟩
  | succ n ih =>
      have hget : ∃ rv' mapped, run disk.mapping (inodeGetBlock node (UInt64.ofNat i)) m =
          some ((rv', mapped), m) := by
        by_cases hi : (UInt64.ofNat i).toNat < 12
        · exact ⟨_, _, run_inodeGetBlock_direct hi⟩
        · exact ⟨_, _, run_inodeGetBlock_none hi hindirect⟩
      obtain ⟨rv', mapped, hget⟩ := hget
      have hsame : Ensures disk.mapping (pure rv : BlockProg ℤ) m fun rv' m' =>
          entryCount (m' first) = number ∧ (rv = 0 → rv' = 0) := ensures_pure ⟨hnumber, id⟩
      have hcount : count ≠ 0 := by
        rintro rfl
        exact absurd hpos (by decide)
      rw [Nat.mul_succ] at hmax
      have hpass : ∀ k ≤ entriesPerBlock, (count + UInt16.ofNat k).toNat = count.toNat + k := by
        intro k hk
        have hepb : entriesPerBlock = 15 := rfl
        rw [UInt16.toNat_add, UInt16.toNat_ofNat', Nat.mod_eq_of_lt (show k < 2 ^ 16 by omega)]
        exact Nat.mod_eq_of_lt (by omega)
      rw [removeEntryFrom]
      refine ensures_bind (ensures_of_run hget ?_)
      simp only [decide_eq_false hcount]
      split
      · exact hsame
      refine ensures_fetch_bind (ensures_page_bind fun c hc => ?_)
      split
      · exact hsame
      refine ensures_page_bind fun d hd => ?_
      split
      · exact hsame
      split
      · have hnext := hpass entriesPerBlock le_rfl
        exact ih (by omega) (by omega) hnumber
      · next k hsome =>
        have hk : k < entriesPerBlock := by
          rcases namedSlot_cases (m c) false name entriesPerBlock 0 with ⟨hnone, -⟩ | ⟨k', h, -, hk, -⟩
          · cases hnone.symm.trans hsome
          · obtain rfl := Option.some.inj (h.symm.trans hsome)
            omega
        have hnext := hpass k hk.le
        refine ensures_bind ((ensures_removeEntry hnode haddr _).mono fun r m₁ h => ?_)
        refine (ih (by omega) (by omega) h.2).mono fun rv' m' hrest => ?_
        exact ⟨hrest.1, fun _ => hrest.2 rfl⟩

end Header

/-! ## When it removes exactly the entry -/

namespace DirectoryOn

variable (D : DirectoryOn disk m pair.inodeNumber blocks)
include D

theorem run_directoryRemoveEntry (hpath : LeadsTo disk m path pair) :
    run disk.mapping (directoryRemoveEntry disk path name) m =
    run disk.mapping (removeEntryFrom disk pair (inodeAt disk m pair.inodeNumber.toNat) name
      directoryBlocks 0 zeroInode 0 0 0 0 (-1)) m := by
  rw [directoryRemoveEntry, run_bind_of_eq hpath.1, if_pos hpath.2,
    run_bind_of_eq (D.layout.run_inodeRead_slot D.capacity), Option.getD_some]

/-- When no slot that is compared has the name, nothing happens. -/
theorem run_remove_unreached (hpath : LeadsTo disk m path pair) (hnone : NoneNamed m blocks name) :
    run disk.mapping (directoryRemoveEntry disk path name) m = some (-1, m) := by
  rw [D.run_directoryRemoveEntry hpath]
  rcases hfirst : blocks[0]? with _ | first
  · have hlen : blocks.length = 0 := Nat.le_zero.mp (List.getElem?_eq_none_iff.mp hfirst)
    exact D.toDataBlocks.run_removeEnd (n := 4355) hlen (by decide)
  · exact D.toDataBlocks.run_removeNone hfirst hnone (fun i' h => absurd h (Nat.not_lt_zero i'))
      (Or.inl (Nat.zero_le _)) (fun h => absurd h (by decide)) (fun h => absurd rfl h)
      (fun h => absurd rfl h) (by decide)

/-- When one has it, the header is not changed. -/
theorem remove_reached (hpath : LeadsTo disk m path pair) (hfirst : blocks[0]? = some first)
    (hb : blocks[t]? = some b) (hreached : Reached m blocks t) (hj : j < entriesPerBlock)
    (hnamed : entryNamed (m b) (entryAt (t = 0) j) name = true) (hre : ¬Restarts m blocks name)
    (hrun : run disk.mapping (directoryRemoveEntry disk path name) m = some (rv, m')) :
    entryCount (m' first) = entryCount (m first) ∧ rv = 0 := by
  have B := D.toDataBlocks
  have hle := D.le
  have hmax : directoryBlocks = 4356 := rfl
  obtain ⟨hlt, -⟩ := List.getElem?_eq_some_iff.mp hb
  have hmem : first ∈ blocks := List.mem_of_getElem? hfirst
  have hnode : (inodeAt disk m pair.inodeNumber.toNat).directBlocks[0]? =
      some (UInt64.ofNat first) := by
    rw [Vector.getElem?_eq_getElem (by decide), D.direct 0 (by decide), hfirst]
    rfl
  have hcount : ∀ i, i ≤ t → entriesPerBlock * i ≠ (entryCount (m first)).toNat := fun i hi => by
    have h := hreached i hi
    rwa [headD_eq hfirst] at h
  obtain ⟨s, k, c, hs, hk, hbefore, hname, hscan⟩ := B.run_removeScan hfirst hb hj hnamed hcount
    (Nat.zero_le t) (show t < 0 + directoryBlocks by omega) zeroInode 0 0 0 (-1)
    (fun h => absurd rfl h) fun h => absurd rfl h
  have hrest : Ensures disk.mapping (do
      let r ← removeEntry disk pair (inodeAt disk m pair.inodeNumber.toNat) zeroInode name
        (UInt64.ofNat c) (UInt64.ofNat first) (entryAt (s = 0) k) (entryCount (m first))
      removeEntryFrom disk pair (inodeAt disk m pair.inodeNumber.toNat) name
        (directoryBlocks + 0 - (s + 1)) (s + 1) r.2 r.1 r.1
        (UInt16.ofNat (entriesPerBlock * s + k)) (entryCount (m first)) 0) m fun rv m' =>
        entryCount (m' first) = entryCount (m first) ∧ rv = 0 := by
    refine ensures_bind ((ensures_removeEntry hnode (B.addr hmem) _).mono fun r m₁ h => ?_)
    obtain ⟨block, file⟩ := r
    by_cases hcounted : 0 < entriesPerBlock * s + k
    · have hupto : entriesPerBlock * s ≤ 180 :=
        Nat.mul_le_mul_left entriesPerBlock (show s ≤ 12 by omega)
      have hepb : entriesPerBlock = 15 := rfl
      have hnat : (UInt16.ofNat (entriesPerBlock * s + k)).toNat = entriesPerBlock * s + k := by
        rw [UInt16.toNat_ofNat']
        exact Nat.mod_eq_of_lt (by omega)
      have hsteps : entriesPerBlock * s + k + entriesPerBlock * (directoryBlocks + 0 - (s + 1)) <
          65536 := by
        have hsum : entriesPerBlock * s + entriesPerBlock * (directoryBlocks + 0 - (s + 1)) ≤ 65325 := by
          rw [← Nat.mul_add]
          exact Nat.mul_le_mul_left entriesPerBlock
            (show s + (directoryBlocks + 0 - (s + 1)) ≤ 4355 by omega)
        omega
      refine (ensures_removeRest hnode (B.addr hmem) D.indirect (by omega) (by omega) h.2).mono
        fun rv m' hend => ⟨hend.1, hend.2 rfl⟩
    · -- no slot is counted, but there is no other block
      obtain ⟨rfl, rfl⟩ : s = 0 ∧ k = 0 := by
        have hepb : entriesPerBlock = 15 := rfl
        rw [hepb] at hcounted
        omega
      obtain rfl := Option.some.inj (hfirst.symm.trans hs)
      have hone : blocks.length ≤ 1 := by
        by_contra hlong
        exact hre ⟨by omega, first, hfirst, fun i' hi' => hreached i' (by omega), hname⟩
      have hnull : (inodeAt disk m pair.inodeNumber.toNat).directBlocks[1] = 0 := by
        rw [D.direct 1 (by decide), List.getElem?_eq_none hone]
        rfl
      have hget : run disk.mapping (inodeGetBlock (inodeAt disk m pair.inodeNumber.toNat) 1) m₁ =
          some ((-1, some 0), m₁) := by
        refine (run_inodeGetBlock_direct (by decide)).trans ?_
        show some ((if (inodeAt disk m pair.inodeNumber.toNat).directBlocks[1] ≠ 0 then (0 : ℤ) else -1,
          some (inodeAt disk m pair.inodeNumber.toNat).directBlocks[1]), m₁) = _
        rw [hnull]
        rfl
      have hfuel : directoryBlocks + 0 - (0 + 1) = 4354 + 1 := rfl
      show Ensures disk.mapping (removeEntryFrom _ _ _ _ _ _ _ _ _ _ _ _) m₁ _
      rw [hfuel, removeEntryFrom]
      refine ensures_bind (ensures_of_run hget ?_)
      simp only [Option.getD_some]
      rw [if_pos trivial]
      exact ensures_pure ⟨h.2, rfl⟩
  rw [D.run_directoryRemoveEntry hpath] at hrun
  exact hrest _ _ (hscan.symm.trans hrun)

end DirectoryOn

/-- From a directory that is not found nothing is removed. -/
theorem Misses.run_directoryRemoveEntry (h : Misses disk m path) :
    run disk.mapping (directoryRemoveEntry disk path name) m = some (-1, m) := by
  rw [directoryRemoveEntry, run_bind_of_eq h.1, if_neg (not_or.mpr ⟨not_not.mpr rfl, h.2⟩), run_pure]

theorem removesExactly_none (h : ¬ActiveNamed m blocks name) :
    RemovesExactly disk m m blocks name (-1) :=
  ⟨iff_of_false (by decide) h, fun hactive => absurd hactive h, fun _ => rfl⟩

/-- When the function leaves all as it was, no active entry had the name. -/
theorem RemovesEntry.not_activeNamed (h : RemovesEntry disk m path blocks name)
    (hrun : run disk.mapping (directoryRemoveEntry disk path name) m = some (-1, m)) :
    ¬ActiveNamed m blocks name := by
  obtain ⟨rv, m', hrun', hexact⟩ := h
  obtain ⟨rfl, -⟩ := Prod.mk.inj (Option.some.inj (hrun'.symm.trans hrun))
  exact fun hactive => absurd (hexact.result.mpr hactive) (by decide)

/-- The function does what it is for when there is nothing with the name; when there is, it does not,
unless, perhaps, the next block is read as the first one. -/
theorem DirectoryOn.removesEntry (D : DirectoryOn disk m pair.inodeNumber blocks)
    (hpath : LeadsTo disk m path pair ∨ Misses disk m path) :
    (NothingToRemove disk m path blocks name →
      run disk.mapping (directoryRemoveEntry disk path name) m = some (-1, m) ∧
        RemovesEntry disk m path blocks name) ∧
      (RemovesEntry disk m path blocks name →
        NothingToRemove disk m path blocks name ∨
          LeadsTo disk m path pair ∧ Restarts m blocks name) := by
  constructor
  · rintro ⟨hactive, hreached⟩
    have hrun : run disk.mapping (directoryRemoveEntry disk path name) m = some (-1, m) := by
      rcases hreached with hmiss | hnone
      · exact hmiss.run_directoryRemoveEntry
      · rcases hpath with hlead | hmiss
        · exact D.run_remove_unreached hlead hnone
        · exact hmiss.run_directoryRemoveEntry
    exact ⟨hrun, -1, m, hrun, removesExactly_none hactive⟩
  · intro h
    rcases hpath with hlead | hmiss
    · by_cases hnone : NoneNamed m blocks name
      · -- an active entry with the name lies behind the end of the loop
        exact Or.inl ⟨h.not_activeNamed (D.run_remove_unreached hlead hnone), Or.inr hnone⟩
      · refine Or.inr ⟨hlead, ?_⟩
        by_contra hre
        obtain ⟨rv, m', hrun, hexact⟩ := h
        simp only [NoneNamed, not_forall] at hnone
        obtain ⟨t, b, hb, hreached, j, hj, hnamed⟩ := hnone
        obtain ⟨hlt, -⟩ := List.getElem?_eq_some_iff.mp hb
        have hfirst : blocks[0]? = some blocks[0] := List.getElem?_eq_getElem (by omega)
        obtain ⟨hcount, rfl⟩ := D.remove_reached hlead hfirst hb hreached hj
          (by simpa using hnamed) hre hrun
        obtain ⟨_, _, _, _, _, _, _, hslot⟩ := hexact.removed (hexact.result.mp rfl)
        have hless := hslot.count _ hfirst
        rw [hcount] at hless
        exact absurd hless (by simp)
    · exact Or.inl ⟨h.not_activeNamed hmiss.run_directoryRemoveEntry, Or.inl hmiss⟩

/-- A first block with 15 in its header and 14 active entries, "b" to "o". -/
def lettersPage : Bytes := fun o =>
  if o = 4 then 15
  else if 6 ≤ o ∧ (o - 6) / sizeofDirEntry < 14 then
    if (o - 6) % sizeofDirEntry = 16 then UInt8.ofNat (98 + (o - 6) / sizeofDirEntry)
    else if (o - 6) % sizeofDirEntry = 0 ∨ (o - 6) % sizeofDirEntry = 271 then 1
    else 0
  else 0

/-- On a volume of 256 blocks: a directory whose first block has 14 active entries and a free slot, and
whose second block has the fifteenth one, "a". Only the first block is looked at. -/
theorem exists_letters_256 : ∃ (m : Image) (pair : InodeBtreePair) (blocks : List ℕ),
    DirectoryOn ⟨256, by decide⟩ m pair.inodeNumber blocks ∧
    LeadsTo ⟨256, by decide⟩ m [slash] pair ∧
    CountsEntries m blocks ∧ ActiveNamed m blocks [97] ∧ ¬ActiveNamed m blocks [122] ∧
    ∀ name, (∀ k < entriesPerBlock,
        entryNamed (setBlockType BlockType.data lettersPage) (entryAt true k) name = false) →
      NoneNamed m blocks name := by
  obtain ⟨m₀, -, F⟩ := run_diskFormat_blank ⟨256, by decide⟩ 0 0 0
    (show ([] : List UInt8).length ≤ 31 by decide) (blank_zero _) (by decide) (by decide)
  obtain ⟨m, D, hlead, hpage, -⟩ := F.exists_directory [lettersPage, entryPage 0 false true] (by decide)
    (by decide) (by decide)
  have hfirst : m (dataStart 256 + 1) = _ := hpage 0 (by decide)
  have hsecond : m (dataStart 256 + 1 + 1) = _ := hpage 1 (by decide)
  have hslots : ∀ i b, (List.range' (dataStart 256 + 1) 2)[i]? = some b →
      i = 0 ∧ m b = setBlockType BlockType.data lettersPage ∨
      i = 1 ∧ m b = setBlockType BlockType.data (entryPage 0 false true) := by
    intro i b hb
    match i with
    | 0 =>
        obtain rfl : dataStart 256 + 1 = b := Option.some.inj hb
        exact Or.inl ⟨rfl, hfirst⟩
    | 1 =>
        obtain rfl : dataStart 256 + 1 + 1 = b := Option.some.inj hb
        exact Or.inr ⟨rfl, hsecond⟩
    | i + 2 => cases hb
  have hcount : entryCount (m (dataStart 256 + 1)) = 15 := by
    rw [hfirst]
    decide
  refine ⟨m, _, _, D, hlead, fun b hb => ?_, ⟨1, _, 0, rfl, by decide, ?_⟩, ?_, ?_⟩
  · obtain rfl : dataStart 256 + 1 = b := Option.some.inj hb
    have hlen : (entriesOf m [dataStart 256 + 1, dataStart 256 + 1 + 1]).length = 15 := by
      rw [entriesOf, List.flatMap_singleton, hfirst, hsecond]
      decide
    rw [hcount]
    exact hlen.symm
  · show entryActive (m (dataStart 256 + 1 + 1)) (entryAt false 0) = true ∧
      entryNamed (m (dataStart 256 + 1 + 1)) (entryAt false 0) [97] = true
    rw [hsecond]
    decide
  · rintro ⟨i, b, k, hb, hk, -, hnamed⟩
    rcases hslots i b hb with ⟨rfl, hpg⟩ | ⟨rfl, hpg⟩
    · rw [hpg] at hnamed
      revert k
      decide
    · rw [hpg] at hnamed
      revert k
      decide
  · intro name hname i b hb hreached k hk
    rcases hslots i b hb with ⟨rfl, hpg⟩ | ⟨rfl, -⟩
    · rw [hpg]
      exact hname k hk
    · -- as many slots were passed as the header counts
      have hstop : entriesPerBlock * 1 ≠ (entryCount (m (dataStart 256 + 1))).toNat :=
        hreached 1 le_rfl
      rw [hcount] at hstop
      exact absurd rfl hstop

/-- A name that is not there: "z". -/
theorem removesEntry_256 : ∃ (m : Image) (pair : InodeBtreePair) (blocks : List ℕ),
    DirectoryOn ⟨256, by decide⟩ m pair.inodeNumber blocks ∧
    LeadsTo ⟨256, by decide⟩ m [slash] pair ∧ RemovesEntry ⟨256, by decide⟩ m [slash] blocks [122] := by
  obtain ⟨m, pair, blocks, D, hlead, -, -, hactive, hreached⟩ := exists_letters_256
  exact ⟨m, pair, blocks, D, hlead, ((DirectoryOn.removesEntry D (Or.inl hlead)).1
    ⟨hactive, Or.inr (hreached [122] (by decide))⟩).2⟩

/-- The entry "a" is active, but it is not removed. -/
theorem not_removesEntry_256 : ∃ (m : Image) (pair : InodeBtreePair) (blocks : List ℕ),
    DirectoryOn ⟨256, by decide⟩ m pair.inodeNumber blocks ∧ LeadsTo ⟨256, by decide⟩ m [slash] pair ∧
    CountsEntries m blocks ∧ ActiveNamed m blocks [97] ∧
    run (DiskInterface.mapping ⟨256, by decide⟩) (directoryRemoveEntry ⟨256, by decide⟩ [slash] [97]) m =
      some (-1, m) ∧ ¬RemovesEntry ⟨256, by decide⟩ m [slash] blocks [97] := by
  obtain ⟨m, pair, blocks, D, hlead, hcount, hactive, -, hreached⟩ := exists_letters_256
  have hrun := D.run_remove_unreached hlead (hreached [97] (by decide))
  exact ⟨m, pair, blocks, D, hlead, hcount, hactive, hrun,
    fun h => h.not_activeNamed hrun hactive⟩

end Nbtrfs
