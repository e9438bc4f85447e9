import Nbtrfs.FileGrow

/-!
# What a write reports

Reference: `fuse.c::nbtrfs_write`.

`nbtrfs_write` takes a new page for every page of the range that the block map does not know. Its
result can be trusted as long as the map takes the new page (it does for the first 12, and once for an
index behind them), and as long as running out of pages does not lose the size update, which the early
exit skips.
-/

namespace Nbtrfs

open BlockProg Bytes

variable {disk : DiskInterface} {m m' m₀ : Image} {node : Inode} {blocks blocks₀ : ℕ → UInt64}
  {inum p : UInt64} {path : CString} {o w : ℕ} {n : UInt64} {buf : Bytes} {host : Host} {f i : ℕ}

/-- Byte `x` of the file with inode `inum` exists and is `v`. -/
def ByteAt (disk : DiskInterface) (m : Image) (inum : UInt64) (x : ℕ) (v : UInt8) : Prop :=
  x < (inodeAt disk m inum.toNat).size.toNat ∧ ∃ p : UInt64, p ≠ 0 ∧
    Yields disk (inodeAt disk m inum.toNat) m (UInt64.ofNat (x / usableBlockSize)) p ∧
    m p.toNat (4 + x % usableBlockSize) = v

/-- If `nbtrfs_write` reports that it wrote bytes, then the file reaches to the end of these bytes,
they are read back, and the other bytes that existed are what they were. -/
def HonestWrite (disk : DiskInterface) (host : Host) (m : Image) (path : CString) (inum : UInt64)
    (buf : Bytes) (o : ℕ) (n : UInt64) : Prop :=
  ∀ rv m', run disk.mapping (nbtrfsWrite disk host path buf n o) m = some (rv, m') → 0 < rv →
    o + rv.toNat ≤ (inodeAt disk m' inum.toNat).size.toNat ∧
    run disk.mapping (nbtrfsRead disk path (UInt64.ofInt rv) o) m' =
      some ((rv, (List.range rv.toNat).map buf), m') ∧
    ∀ x v, x < o ∨ o + rv.toNat ≤ x → ByteAt disk m inum x v → ByteAt disk m' inum x v

/-- A sound file: the block map gives `blocks`, and its blocks are data blocks of the volume that are
marked as taken, each with one place in the map. -/
structure SoundFile (disk : DiskInterface) (m : Image) (node : Inode) (blocks : ℕ → UInt64) :
    Prop where
  entry : ∀ i ≤ maxIndex, Yields disk node m (UInt64.ofNat i) (blocks i)
  mapped : MappedPages disk m node blocks {i | blocks i ≠ 0}
  used : ∀ i, blocks i ≠ 0 → blockBit m (blocks i).toNat = true
  indirect : node.indirectBlock ≠ 0 → dataStart disk.totalBlocks.toNat ≤ node.indirectBlock.toNat ∧
    node.indirectBlock.toNat < disk.totalBlocks.toNat ∧
    blockBit m node.indirectBlock.toNat = true

/-- Whether a write from offset `o` to `k` more pages from page `i` on fits, with `free` free pages
left. A mapped page is near. A page that is not mapped takes a free page, and the map takes that: it
is one of the first 12, or the last page of the write and the first one in the indirect block, which
takes another free page. The first page that finds no free page begins within the first `size`
bytes. -/
def PagesFit (blocks : ℕ → UInt64) (indirect : UInt64) (far : Prop) (o size : ℕ) : ℕ → ℕ → ℕ → Prop
  | 0, _, _ => True
  | k + 1, i, free =>
      if blocks i ≠ 0 then
        (blocks i).toNat < 524288 ∧ PagesFit blocks indirect far o size k (i + 1) free
      else if free = 0 then far ∧ i < 2147483648 ∧ usableBlockSize * i ≤ max o size
      else if i < 12 then PagesFit blocks indirect far o size k (i + 1) (free - 1)
      else k = 0 ∧ i ≤ maxIndex ∧ indirect = 0 ∧ 2 ≤ free

/-- The number of pages that `n` bytes from offset `o` on lie in. -/
def pageCount (o n : ℕ) : ℕ :=
  if n = 0 then 0 else (o + n - 1) / usableBlockSize - o / usableBlockSize + 1

/-! ## What the loop has done -/

/-- From the file with the pages `blocks₀` on `m₀`, `w` bytes of `buf` were written at offset `o`. -/
structure Wrote (disk : DiskInterface) (m₀ : Image) (blocks₀ : ℕ → UInt64) (m : Image)
    (blocks : ℕ → UInt64) (o w : ℕ) (buf : Bytes) : Prop where
  kept : ∀ i, blocks₀ i ≠ 0 → blocks i = blocks₀ i
  new : ∀ x, o ≤ x → x < o + w → blocks (x / usableBlockSize) ≠ 0 ∧
    (blocks (x / usableBlockSize)).toNat < 524288 ∧ fileByte m blocks x = buf (x - o)
  old : ∀ x, x < o ∨ o + w ≤ x → blocks (x / usableBlockSize) ≠ 0 → fileByte m blocks x =
    if blocks₀ (x / usableBlockSize) ≠ 0 then fileByte m₀ blocks₀ x else 0
  taken : ∀ i, blocks i ≠ 0 → blocks₀ i ≠ 0 ∨
    o / usableBlockSize ≤ i ∧ (blocks i).toNat < 524288
  look : ∀ b < disk.totalBlocks.toNat, blockBit m₀ b = true → LooksAlike (m₀ b) (m b)
  bit : ∀ b < disk.totalBlocks.toNat, blockBit m₀ b = true → blockBit m b = true

namespace Wrote

theorem refl (disk : DiskInterface) (m : Image) (blocks : ℕ → UInt64) (o : ℕ) (buf : Bytes) :
    Wrote disk m blocks m blocks o 0 buf where
  kept _ _ := rfl
  new x hlo hhi := by omega
  old x _ hne := by rw [if_pos hne]
  taken _ hne := Or.inl hne
  look b _ _ := LooksAlike.refl _
  bit _ _ h := h

/-- A page was taken for index `i`, with zeros in it. -/
theorem take (W : Wrote disk m₀ blocks₀ m blocks o w buf) (O : OpenFile disk inum m node blocks)
    (T : Takes disk m m') (hfree : blocks i = 0) (hfirst : o / usableBlockSize ≤ i)
    (hnear : p.toNat < 524288)
    (hzero : ∀ k < usableBlockSize, m' p.toNat (4 + k) = 0) :
    Wrote disk m₀ blocks₀ m' (Function.update blocks i p) o w buf := by
  have hkeep : ∀ j, blocks j ≠ 0 → Function.update blocks i p j = blocks j := by
    intro j hj
    refine Function.update_of_ne ?_ _ _
    rintro rfl
    exact hj hfree
  have hbyte : ∀ x, blocks (x / usableBlockSize) ≠ 0 →
      fileByte m' (Function.update blocks i p) x = fileByte m blocks x := by
    intro x hx
    rw [fileByte, fileByte, Paged.byteAt, Paged.byteAt, hkeep _ hx, O.page_of_takes T hx]
  refine ⟨fun j hj => ?_, fun x hlo hhi => ?_, fun x hout hne => ?_, fun j hj => ?_,
    fun b hb hset => ?_, fun b hb hset => T.bit b hb (W.bit b hb hset)⟩
  · have hold : blocks j ≠ 0 := by rwa [W.kept j hj]
    rw [hkeep j hold, W.kept j hj]
  · obtain ⟨hne, hnear, hval⟩ := W.new x hlo hhi
    rw [hbyte x hne, hkeep _ hne]
    exact ⟨hne, hnear, hval⟩
  · by_cases hx : blocks (x / usableBlockSize) = 0
    · have hnone : blocks₀ (x / usableBlockSize) = 0 := by
        by_contra h0
        rw [W.kept _ h0] at hx
        exact h0 hx
      have hpage : x / usableBlockSize = i := by
        by_contra hxi
        rw [Function.update_of_ne hxi] at hne
        exact hne hx
      rw [if_neg (not_not.mpr hnone), fileByte, Paged.byteAt, hpage, Function.update_self]
      exact hzero _ (Nat.mod_lt _ (by decide))
    · rw [hbyte x hx]
      exact W.old x hout hx
  · by_cases hji : j = i
    · rw [hji, Function.update_self]
      exact Or.inr ⟨hfirst, hnear⟩
    · rw [Function.update_of_ne hji] at hj ⊢
      exact W.taken j hj
  · exact (W.look b hb hset).trans (T.looksAlike hb (W.bit b hb hset))

/-- More bytes were copied, into near pages. -/
theorem copy (W : Wrote disk m₀ blocks₀ m blocks o w buf) (O : OpenFile disk inum m node blocks)
    {c : ℕ} (hp : Patched m m' blocks {i | blocks i ≠ 0} (o + w) c fun k => buf (w + k))
    (hpages : ∀ x, o + w ≤ x → x < o + w + c → blocks (x / usableBlockSize) ≠ 0 ∧
      (blocks (x / usableBlockSize)).toNat < 524288) :
    Wrote disk m₀ blocks₀ m' blocks o (w + c) buf := by
  refine ⟨W.kept, fun x hlo hhi => ?_, fun x hout hne => ?_, W.taken, fun b hb hset => ?_,
    fun b hb hset => ?_⟩
  · by_cases hx : o + w ≤ x
    · obtain ⟨hne, hnear⟩ := hpages x hx (by omega)
      rw [hp.byte x hne, if_pos (by omega)]
      refine ⟨hne, hnear, ?_⟩
      congr 1
      omega
    · obtain ⟨hne, hnear, hval⟩ := W.new x hlo (by omega)
      rw [hp.byte x hne, if_neg (by omega)]
      exact ⟨hne, hnear, hval⟩
  · rw [hp.byte x hne, if_neg (by omega)]
    exact W.old x (by omega) hne
  · exact (W.look b hb hset).trans (hp.looksAlike O.mapped b)
  · rw [← W.bit b hb hset]
    exact BitmapArea.bit_congr (fun c hc =>
      hp.of_lt O.mapped (hc.trans_lt (bitmapBlocks_lt_dataStart _))) hb

end Wrote

/-! ## The pages of the loop -/

/-- Whether the pages fit depends on the pages that are written only. -/
theorem PagesFit.congr {far : Prop} {blocks' : ℕ → UInt64} {indirect : UInt64} {size k free : ℕ}
    (h : PagesFit blocks indirect far o size k i free)
    (hb : ∀ j, i ≤ j → j < i + k → blocks' j = blocks j) :
    PagesFit blocks' indirect far o size k i free := by
  induction k generalizing i free with
  | zero => trivial
  | succ k ih =>
      unfold PagesFit at h ⊢
      have hnext : ∀ j, i + 1 ≤ j → j < i + 1 + k → blocks' j = blocks j :=
        fun j hj hk => hb j (by omega) (by omega)
      rw [hb i le_rfl (by omega)]
      split_ifs at h ⊢ with hne hzero hlo
      · exact ⟨h.1, ih h.2 hnext⟩
      · exact h
      · exact ih h hnext
      · exact h

/-- Direct pages without a block fit when there are as many free ones. -/
theorem pagesFit_of_unmapped {far : Prop} {indirect : UInt64} {size k free : ℕ}
    (h : ∀ j, i ≤ j → j < i + k → blocks j = 0) (hk : i + k ≤ 12) (hfree : k ≤ free) :
    PagesFit blocks indirect far o size k i free := by
  induction k generalizing i free with
  | zero => trivial
  | succ k ih =>
      rw [PagesFit, if_neg (not_not.mpr (h i le_rfl (by omega))), if_neg (by omega), if_pos (by omega)]
      exact ih (fun j hlo hhi => h j (by omega) (by omega)) (by omega) (by omega)

theorem pageCount_zero (x : ℕ) : pageCount x 0 = 0 := rfl

/-- One iteration takes the first page off. -/
theorem pageCount_step {x r : ℕ} (hr : r ≠ 0) :
    pageCount x r = pageCount (x + chunk x r) (r - chunk x r) + 1 := by
  have hpage : usableBlockSize = 4092 := rfl
  rw [pageCount, pageCount, chunk, hpage, if_neg hr]
  by_cases hlast : r ≤ 4092 - x % 4092
  · rw [min_eq_right hlast, if_pos (by omega)]
    omega
  · rw [min_eq_left (by omega), if_neg (by omega)]
    omega

/-- An iteration that does not end the loop ends at the end of a page. -/
theorem add_chunk_mod {x r : ℕ} (hr : r - chunk x r ≠ 0) :
    (x + chunk x r) % usableBlockSize = 0 ∧
      (x + chunk x r) / usableBlockSize = x / usableBlockSize + 1 := by
  have hpage : usableBlockSize = 4092 := rfl
  rw [chunk] at hr ⊢
  rw [min_eq_left (by omega), hpage]
  omega

theorem pageIndex_of_lt {x : ℕ} (hx : x / usableBlockSize < 2147483648) :
    pageIndex x = UInt64.ofNat (x / usableBlockSize) := by
  rw [pageIndex, int32_of_lt hx, ofInt_natCast]

/-! ## One iteration -/

/-- An iteration that fits finds a page or takes one. -/
theorem OpenFile.exists_writable (O : OpenFile disk inum m node blocks)
    (E : Entries disk node m blocks) (W : Wrote disk m₀ blocks₀ m blocks o w buf)
    (hfirst : o / usableBlockSize ≤ i) {far : Prop} (hfar : far → FarTaken disk m) {k size : ℕ}
    (hfit : PagesFit blocks node.indirectBlock far o size (k + 1) i (nearFree disk m))
    (hroom : ¬(blocks i = 0 ∧ nearFree disk m = 0)) :
    ∃ m₁ node₁ blocks₁, run disk.mapping (writablePage disk node (UInt64.ofNat i)) m =
        some (some (node₁, blocks₁ i), m₁) ∧ OpenFile disk inum m₁ node₁ blocks₁ ∧
      Wrote disk m₀ blocks₀ m₁ blocks₁ o w buf ∧ node₁.size = node.size ∧ blocks₁ i ≠ 0 ∧
      (blocks₁ i).toNat < 524288 ∧ (far → FarTaken disk m₁) ∧
      PagesFit blocks₁ node₁.indirectBlock far o size k (i + 1) (nearFree disk m₁) ∧
      (k ≠ 0 ∨ i < 12 → Entries disk node₁ m₁ blocks₁) := by
  unfold PagesFit at hfit
  split_ifs at hfit with hne hzero hlo
  · refine ⟨m, node, blocks, ?_, O, W, rfl, hne, hfit.1, hfar, hfit.2, fun _ => E⟩
    rw [writablePage, run_bind_of_eq ((O.mapped.yields i hne).run (O.mapped.ne_zero i hne))]
    simp only [Option.getD_some]
    rw [if_pos hne, run_pure]
  · exact absurd ⟨not_not.mp hne, hzero⟩ hroom
  · have hfree := not_not.mp hne
    obtain ⟨f, H⟩ := exists_firstFree (Nat.pos_of_ne_zero hzero)
    obtain ⟨m₁, node₁, hrun, T, O₁, E₁, hsize, hindirect, hcount, hpage⟩ :=
      O.run_writablePage_direct E H hlo hfree
    have hself : Function.update blocks i (UInt64.ofNat f) i = UInt64.ofNat f :=
      Function.update_self _ _ _
    have hnear := H.lt.trans_le (addressable_le disk)
    have hnear' : (UInt64.ofNat f).toNat < 524288 := by rwa [H.toNat_number]
    refine ⟨m₁, node₁, _, by rw [hself]; exact hrun, O₁, W.take O T hfree hfirst hnear' hpage,
      hsize, by rw [hself]; exact H.number_ne_zero O.bitmapArea, by rwa [hself],
      fun h => (hfar h).mono T.bit, ?_, fun _ => E₁⟩
    rw [hcount, Nat.add_sub_cancel] at hfit
    rw [hindirect]
    exact hfit.congr fun j hj _ => Function.update_of_ne (by omega) _ _
  · have hfree := not_not.mp hne
    obtain ⟨rfl, hhi, hindirect, htwo⟩ := hfit
    obtain ⟨m₁, node₁, p, hrun, T, O₁, hsize, hp, hnear, hpage⟩ :=
      O.run_writablePage_indirect E htwo (by omega) hhi hindirect
    have hself : Function.update blocks i p i = p := Function.update_self _ _ _
    refine ⟨m₁, node₁, _, by rw [hself]; exact hrun, O₁, W.take O T hfree hfirst hnear hpage, hsize,
      by rwa [hself], by rwa [hself], fun h => (hfar h).mono T.bit, trivial, fun h => ?_⟩
    rcases h with h | h
    · exact absurd rfl h
    · exact absurd h hlo

/-- The loop of `nbtrfs_write` over pages that fit: it copies everything, or it is left for lack of
space where the file does not have to grow. -/
theorem OpenFile.run_writePages_fit {far : Prop} {fuel r k size : ℕ}
    (O : OpenFile disk inum m node blocks) (E : r ≠ 0 → Entries disk node m blocks)
    (W : Wrote disk m₀ blocks₀ m blocks o w buf) (hfar : far → FarTaken disk m) (hr : r ≤ fuel)
    (hk : k = pageCount (o + w) r)
    (hfit : PagesFit blocks node.indirectBlock far o size k ((o + w) / usableBlockSize)
      (nearFree disk m))
    (hstart : w = 0 ∨ r = 0 ∨ (o + w) % usableBlockSize = 0) :
    ∃ left w' m' node' blocks',
      run disk.mapping (writePages disk buf fuel node (o + w) r w) m = some ((left, w'), m') ∧
      OpenFile disk inum m' node' blocks' ∧ Wrote disk m₀ blocks₀ m' blocks' o w' buf ∧
      node'.size = node.size ∧
      (left = some node' ∧ w' = w + r ∨
        left = none ∧ far ∧ w' ≤ w + r ∧ (w' = 0 ∨ o + w' ≤ size)) ∧
      (Entries disk node m blocks → filePages (o + w) r ⊆ {i | i < 12} →
        Entries disk node' m' blocks') := by
  induction fuel generalizing m node blocks r w k with
  | zero =>
      obtain rfl : r = 0 := by omega
      exact ⟨some node, w, m, node, blocks, rfl, O, W, rfl, Or.inl ⟨rfl, rfl⟩, fun E _ => E⟩
  | succ fuel ih =>
      by_cases hzero : r = 0
      · subst hzero
        refine ⟨some node, w, m, node, blocks, ?_, O, W, rfl, Or.inl ⟨rfl, rfl⟩, fun E _ => E⟩
        rw [writePages, if_pos rfl, run_pure]
      · have hE := E hzero
        rw [pageCount_step hzero] at hk
        obtain ⟨i, hi⟩ : ∃ i, i = (o + w) / usableBlockSize := ⟨_, rfl⟩
        rw [hk, ← hi] at hfit
        rw [writePages, if_neg hzero]
        by_cases hroom : blocks i = 0 ∧ nearFree disk m = 0
        · -- no page is left: the bytes written so far lie within the file
          rw [PagesFit, if_neg (not_not.mpr hroom.1), if_pos hroom.2] at hfit
          obtain ⟨hf, hlt, hin⟩ := hfit
          have hindex : pageIndex (o + w) = UInt64.ofNat i := by
            rw [hi]
            exact pageIndex_of_lt (by omega)
          have hy : Yields disk node m (UInt64.ofNat i) 0 := by
            by_cases hmax : i ≤ maxIndex
            · exact hroom.1 ▸ hE i hmax
            · have hnat : (UInt64.ofNat i).toNat = i := toNat_ofNat_block (by omega)
              exact ⟨_, _, run_inodeGetBlock_past (by omega), rfl⟩
          refine ⟨none, w, m, node, blocks, ?_, O, W, rfl,
            Or.inr ⟨rfl, hf, Nat.le_add_right w r, ?_⟩, fun E _ => E⟩
          · rw [hindex, run_bind_of_eq (O.run_writablePage_full hroom.2 (hfar hf) hy)]
            rfl
          · have hpage : usableBlockSize = 4092 := rfl
            rw [hpage] at hi hin hstart
            omega
        · obtain ⟨m₁, node₁, blocks₁, hrun, O₁, W₁, hsize, hne, hnear, hfar₁, hfit₁, E₁⟩ :=
            O.exists_writable hE W (hi ▸ Nat.div_le_div_right (Nat.le_add_right o w)) hfar hfit hroom
          have hle := chunk_le (o + w) r
          have hpos := chunk_pos (x := o + w) hzero
          have hmax : maxIndex = 511 := rfl
          have hindex : pageIndex (o + w) = UInt64.ofNat i := by
            have := O₁.mapped.le i hne
            rw [hi]
            exact pageIndex_of_lt (by omega)
          -- the copy into the page
          have hpatch := (Patched.refl m₁ blocks₁ {i | blocks₁ i ≠ 0} (o + w)
            (fun k => buf (w + k))).step O₁.mapped (c := chunk (o + w) r)
            (by rw [Nat.add_zero, ← hi]; exact hne)
            (by rw [Nat.add_zero]; exact mod_add_chunk_le (o + w) r)
          simp only [Nat.add_zero, Nat.zero_add, ← hi] at hpatch
          have haddr : disk.mapping.addr (blocks₁ i) = some (blocks₁ i).toNat :=
            DiskInterface.diskGetBlock_of_lt (O₁.mapped.lt_total i hne) hnear
          have hmodify := run_modify (m := m₁) (fun pg : Bytes => copyIn pg
            (4 + (o + w) % usableBlockSize) (chunk (o + w) r) fun k => buf (w + k)) haddr
          obtain ⟨m₂, hm₂⟩ : ∃ m₂, m₂ = Function.update m₁ (blocks₁ i).toNat
            (copyIn (m₁ (blocks₁ i).toNat) (4 + (o + w) % usableBlockSize) (chunk (o + w) r)
              fun k => buf (w + k)) := ⟨_, rfl⟩
          rw [← hm₂] at hpatch hmodify
          have W₂ := W₁.copy O₁ hpatch fun x hlo hhi => by
            rw [(Paged.div_mod_of_chunk (by decide) (mod_add_chunk_le (o + w) r) hlo hhi).1, ← hi]
            exact ⟨hne, hnear⟩
          have O₂ := O₁.patched hpatch
          have hbits : ∀ b < disk.totalBlocks.toNat, blockBit m₁ b = true → blockBit m₂ b = true :=
            fun b hb hset => by
              rw [← hset]
              exact BitmapArea.bit_congr (fun c hc =>
                hpatch.of_lt O₁.mapped (hc.trans_lt (bitmapBlocks_lt_dataStart _))) hb
          have hfit₂ : PagesFit blocks₁ node₁.indirectBlock far o size
              (pageCount (o + w + chunk (o + w) r) (r - chunk (o + w) r))
              ((o + (w + chunk (o + w) r)) / usableBlockSize) (nearFree disk m₂) := by
            rw [O₁.nearFree_patched hpatch]
            by_cases hrest : r - chunk (o + w) r = 0
            · rw [hrest, pageCount_zero]
              trivial
            · rw [← Nat.add_assoc, (add_chunk_mod hrest).2, ← hi]
              exact hfit₁
          have hstart₂ : w + chunk (o + w) r = 0 ∨ r - chunk (o + w) r = 0 ∨
              (o + (w + chunk (o + w) r)) % usableBlockSize = 0 := by
            by_cases hrest : r - chunk (o + w) r = 0
            · exact Or.inr (Or.inl hrest)
            · rw [← Nat.add_assoc]
              exact Or.inr (Or.inr (add_chunk_mod hrest).1)
          obtain ⟨left, w', m', node', blocks', hrest, O', W', hsize', hend, E'⟩ :=
            ih (w := w + chunk (o + w) r) (r := r - chunk (o + w) r)
              (k := pageCount (o + w + chunk (o + w) r) (r - chunk (o + w) r)) O₂
              (fun hr => O₁.entries_patched (E₁ (Or.inl (by
                rw [pageCount_step hr]
                exact Nat.succ_ne_zero _))) hpatch) W₂ (fun h => (hfar₁ h).mono hbits)
              (by omega) (by rw [Nat.add_assoc]) hfit₂ hstart₂
          refine ⟨left, w', m', node', blocks', ?_, O', W', by rw [hsize', hsize], ?_,
            fun E hpages => E' ?_ ?_⟩
          · rw [hindex, run_bind_of_eq hrun]
            show run _ (_ >>= _) _ = _
            rw [run_bind_of_eq (run_fetch _ _), run_bind_of_eq hmodify,
              run_bind_of_eq (run_writeBack _ _), Nat.add_assoc o w, hrest]
          · rcases hend with ⟨hleft, hw⟩ | hend
            · exact Or.inl ⟨hleft, by omega⟩
            · exact Or.inr ⟨hend.1, hend.2.1, by omega, hend.2.2.2⟩
          · refine O₁.entries_patched (E₁ (Or.inr ?_)) hpatch
            rw [hi]
            exact hpages (Paged.mem_pagesOf le_rfl (by omega))
          · exact (Nat.add_assoc o w _ ▸ Paged.pagesOf_drop hle).trans hpages

/-! ## The whole write -/

/-- Taking a block keeps what was written so far. -/
theorem Wrote.of_takes (W : Wrote disk m₀ blocks₀ m blocks o w buf)
    (O : OpenFile disk inum m node blocks) (T : Takes disk m m') :
    Wrote disk m₀ blocks₀ m' blocks o w buf := by
  have hbyte : ∀ x, blocks (x / usableBlockSize) ≠ 0 → fileByte m' blocks x = fileByte m blocks x :=
    fun x hx => by rw [fileByte, fileByte, Paged.byteAt, Paged.byteAt, O.page_of_takes T hx]
  refine ⟨W.kept, fun x hlo hhi => ?_, fun x hout hne => ?_, W.taken, fun b hb hset => ?_,
    fun b hb hset => T.bit b hb (W.bit b hb hset)⟩
  · obtain ⟨hne, hnear, hval⟩ := W.new x hlo hhi
    exact ⟨hne, hnear, by rw [hbyte x hne, hval]⟩
  · rw [hbyte x hne]
    exact W.old x hout hne
  · exact (W.look b hb hset).trans (T.looksAlike hb (W.bit b hb hset))

/-- `nbtrfs_write` on pages that fit: the loop, then the size update unless the loop was left. -/
theorem RegularFile.run_nbtrfsWrite_fit (F : RegularFile disk m path inum)
    (O : OpenFile disk inum m (inodeAt disk m inum.toNat) blocks)
    (E : Entries disk (inodeAt disk m inum.toNat) m blocks) (hn : n.toNat < 2147483648)
    {far : Prop} (hfar : far → FarTaken disk m) {size : ℕ}
    (hfit : PagesFit blocks (inodeAt disk m inum.toNat).indirectBlock far o size (pageCount o n.toNat)
      (o / usableBlockSize) (nearFree disk m)) (host : Host) (buf : Bytes) :
    ∃ (w : ℕ) (m₁ : Image) (node₁ : Inode) (blocks₁ : ℕ → UInt64) (m' : Image),
      run disk.mapping (nbtrfsWrite disk host path buf n o) m = some ((w : ℤ), m') ∧
      OpenFile disk inum m₁ node₁ blocks₁ ∧
      Wrote disk m blocks m₁ blocks₁ o w buf ∧
      node₁.size = (inodeAt disk m inum.toNat).size ∧
      (w = n.toNat ∧ m' = growInode disk m₁ inum.toNat (o + w) ∨
        m' = m₁ ∧ far ∧ w ≤ n.toNat ∧ (w = 0 ∨ o + w ≤ size)) ∧
      (filePages o n.toNat ⊆ {i | i < 12} → Entries disk node₁ m₁ blocks₁) := by
  obtain ⟨left, w, m₁, node₁, blocks₁, hrun, O₁, W₁, hsize, hend, E₁⟩ :=
    O.run_writePages_fit (w := 0) (fun _ => E) (Wrote.refl disk m blocks o buf) hfar
      (le_refl n.toNat) rfl hfit (Or.inl rfl)
  rw [Nat.add_zero] at hrun E₁
  rw [F.run_nbtrfsWrite_eq, writeInode]
  simp only [int32_of_lt hn, Int.toNat_natCast]
  rw [run_bind_of_eq hrun]
  rcases hend with ⟨rfl, hw⟩ | ⟨rfl, hf, hle, hw⟩
  · refine ⟨w, m₁, node₁, blocks₁, growInode disk m₁ inum.toNat (o + w), ?_, O₁, W₁, hsize,
      Or.inl ⟨by omega, rfl⟩, E₁ E⟩
    have hwrite := O₁.layout.run_inodeWrite_slot { node₁ with size := UInt64.ofNat (o + w) }
      (by rw [O₁.own]; exact O₁.capacity)
    simp only
    rw [growInode, O₁.stored]
    by_cases hlt : node₁.size < UInt64.ofNat (o + w)
    · rw [if_pos hlt, if_pos hlt, run_bind_of_eq hwrite, run_pure]
      simp only [O₁.own]
    · rw [if_neg hlt, if_neg hlt, run_pure]
  · exact ⟨w, m₁, node₁, blocks₁, m₁, rfl, O₁, W₁, hsize,
      Or.inr ⟨rfl, hf, by omega, hw⟩, E₁ E⟩

/-- The file that a write leaves, with its size. -/
theorem OpenFile.exists_grown (O : OpenFile disk inum m node blocks)
    (W : Wrote disk m₀ blocks₀ m blocks o w buf)
    (hsize : o + w < 18446744073709551616) (hend : m' = growInode disk m inum.toNat (o + w) ∨
      m' = m ∧ o + w ≤ node.size.toNat) :
    ∃ node', OpenFile disk inum m' node' blocks ∧ Wrote disk m₀ blocks₀ m' blocks o w buf ∧
      node'.size.toNat = max node.size.toNat (o + w) ∧
      (Entries disk node m blocks → Entries disk node' m' blocks) := by
  rcases hend with rfl | ⟨rfl, hle⟩
  · have T := takes_growInode O.layout O.capacity (o + w)
    obtain ⟨s, hs, hmax⟩ := inodeAt_growInode disk m inum.toNat hsize
    rw [O.stored] at hs hmax
    exact ⟨{ node with size := s }, O.of_takes T O.own hs rfl rfl, W.of_takes O T, hmax,
      fun E => O.entries_of_takes T E rfl rfl⟩
  · exact ⟨node, O, W, (max_eq_left hle).symm, id⟩

/-- A sound file that the path leads to is open for the loop of `nbtrfs_write`. -/
theorem SoundFile.openFile (F : RegularFile disk m path inum)
    (hmarked : ∀ b < dataStart disk.totalBlocks.toNat, blockBit m b = true)
    (S : SoundFile disk m (inodeAt disk m inum.toNat) blocks)
    (hnear : (inodeAt disk m inum.toNat).indirectBlock.toNat < 524288) :
    OpenFile disk inum m (inodeAt disk m inum.toNat) blocks := by
  have hle := F.layout.le_total
  have hpos := dataStart_pos disk.totalBlocks.toNat
  refine ⟨F.layout, hmarked, F.capacity, F.own, rfl, S.mapped, S.used, hnear, ?_, fun hne => ?_⟩
  · by_cases hzero : (inodeAt disk m inum.toNat).indirectBlock = 0
    · rw [hzero, UInt64.toNat_zero]
      omega
    · exact (S.indirect hzero).2.1
  · exact ⟨(S.indirect hne).1, (S.indirect hne).2.2⟩

/-- The bytes just written are read back. -/
theorem RegularFile.run_nbtrfsRead_wrote (F : RegularFile disk m path inum)
    (O : OpenFile disk inum m (inodeAt disk m inum.toNat) blocks)
    (W : Wrote disk m₀ blocks₀ m blocks o w buf)
    (hsize : o + w ≤ (inodeAt disk m inum.toNat).size.toNat) (hend : o + w ≤ 2095104) :
    run disk.mapping (nbtrfsRead disk path (UInt64.ofInt (w : ℤ)) o) m =
      some (((w : ℤ), (List.range w).map buf), m) := by
  have hnat : (UInt64.ofInt (w : ℤ)).toNat = w := by
    rw [ofInt_natCast]
    exact toNat_ofNat_block (by omega)
  have hpages : filePages o w ⊆ {i | blocks i ≠ 0} := by
    rintro i ⟨x, hlo, hhi, rfl⟩
    exact (W.new x hlo hhi).1
  have hnear : NearPages (inodeAt disk m inum.toNat) blocks (filePages o w) := by
    rintro i ⟨x, hlo, hhi, rfl⟩
    exact ⟨(W.new x hlo hhi).2.1, fun _ => O.near⟩
  have hread := F.run_nbtrfsRead (n := UInt64.ofInt (w : ℤ)) (o := o) (k := w)
    (by rw [hnat]; omega) (fun _ => by rwa [hnat]) (O.mapped.mono hpages) hnear
  rw [hread]
  congr 3
  apply List.map_congr_left
  intro i hi
  have hlt := List.mem_range.mp hi
  rw [(W.new (o + i) (Nat.le_add_right o i) (by omega)).2.2, Nat.add_sub_cancel_left]

/-- `nbtrfs_write` of a sound file is honest if the pages of the range fit. -/
theorem nbtrfsWrite_honest (F : RegularFile disk m path inum)
    (hmarked : ∀ b < dataStart disk.totalBlocks.toNat, blockBit m b = true)
    (hlookup : Within disk.mapping (fun b => b < disk.totalBlocks.toNat ∧ blockBit m b = true)
      (itemSearch disk path) m)
    (S : SoundFile disk m (inodeAt disk m inum.toNat) blocks) (hn : n.toNat < 2147483648)
    (hnear : (inodeAt disk m inum.toNat).indirectBlock.toNat < 524288)
    (hfit : PagesFit blocks (inodeAt disk m inum.toNat).indirectBlock (FarTaken disk m) o
      (inodeAt disk m inum.toNat).size.toNat (pageCount o n.toNat) (o / usableBlockSize)
      (nearFree disk m)) (host : Host) (buf : Bytes) :
    HonestWrite disk host m path inum buf o n := by
  have O := SoundFile.openFile F hmarked S hnear
  obtain ⟨w, m₁, node₁, blocks₁, m', hwrite, O₁, W₁, hsize₁, hend, -⟩ :=
    F.run_nbtrfsWrite_fit O S.entry hn id hfit host buf
  intro rv m'' hrun hpos
  obtain ⟨rfl, rfl⟩ : (w : ℤ) = rv ∧ m' = m'' := by
    rw [hwrite] at hrun
    exact Prod.mk.inj (Option.some.inj hrun)
  have hlast : o + w ≤ 2095104 := by
    have := O₁.mapped.lt_end (x := o + w - 1) (W₁.new _ (by omega) (by omega)).1
    omega
  have hgrown : m' = growInode disk m₁ inum.toNat (o + w) ∨ m' = m₁ ∧ o + w ≤ node₁.size.toNat := by
    rcases hend with ⟨-, hgrow⟩ | ⟨hsame, -, -, hw⟩
    · exact Or.inl hgrow
    · exact Or.inr ⟨hsame, by rw [hsize₁]; omega⟩
  obtain ⟨node', O', W', hsize', -⟩ := O₁.exists_grown W₁ (by omega) hgrown
  obtain rfl := O'.stored
  have F' : RegularFile disk m' path inum := ⟨⟨O'.layout, F.ne_zero, F.capacity, O'.own⟩,
    (blind_itemSearch disk path).run_eq (fun b hb => W'.look b hb.1 hb.2) hlookup F.lookup⟩
  have hreach : o + w ≤ (inodeAt disk m' inum.toNat).size.toNat := by omega
  rw [Int.toNat_natCast]
  refine ⟨hreach, F'.run_nbtrfsRead_wrote O' W' hreach hlast, ?_⟩
  rintro x v hout ⟨hx, p, hp, hy, hval⟩
  have hmax : maxIndex = 511 := rfl
  have hx64 := (inodeAt disk m inum.toNat).size.toNat_lt
  have hle : x / usableBlockSize ≤ maxIndex := by
    by_contra hgt
    have hnat : (UInt64.ofNat (x / usableBlockSize)).toNat = x / usableBlockSize :=
      UInt64.toNat_ofNat_of_lt' (by
        have hdiv := Nat.div_le_self x usableBlockSize
        exact hdiv.trans_lt (hx.trans hx64))
    exact hp (hy.eq ⟨_, _, run_inodeGetBlock_past (by omega), rfl⟩)
  obtain rfl := hy.eq (S.entry _ hle)
  have hkept := W'.kept _ hp
  have hne' : blocks₁ (x / usableBlockSize) ≠ 0 := by rwa [hkept]
  refine ⟨by rw [hsize₁] at hsize'; omega, blocks₁ (x / usableBlockSize), hne',
    O'.mapped.yields _ hne', ?_⟩
  have hold := W'.old x hout hne'
  rw [if_pos hp] at hold
  exact hold.trans hval

/-- A write to a path of two components or more that reports bytes is not honest: the file, wherever it
is, cannot be read. -/
theorem not_honestWrite_of_nested (hslashes : 2 ≤ path.count slash) {rv : ℤ}
    (hrun : run disk.mapping (nbtrfsWrite disk host path buf n o) m = some (rv, m')) (hpos : 0 < rv) :
    ¬HonestWrite disk host m path inum buf o n := by
  intro honest
  obtain ⟨-, hread, -⟩ := honest rv m' hrun hpos
  have hrv : rv = -2 := congrArg Prod.fst (run_nbtrfsRead_nested hslashes hread)
  omega

/-! ## A full volume -/

/-- On a volume of 256 blocks, all of them taken, the file `/a` has one page and no bytes. -/
theorem exists_onePage_full : ∃ m, RegularFile ⟨256, by decide⟩ m [slash, 97] 1 ∧
    (∀ b < 256, blockBit m b = true) ∧
    inodeAt ⟨256, by decide⟩ m (UInt64.toNat 1) = onePage 200 ∧
    SoundFile ⟨256, by decide⟩ m (onePage 200) fun i => if i = 0 then 200 else 0 := by
  obtain ⟨m₀, F₀, hnode₀, h₀⟩ := exists_onePage ⟨256, by decide⟩ 200 (by decide)
    (by decide) (by decide) (by decide)
  obtain ⟨m, hbits, htype, hother⟩ := exists_full ⟨256, by decide⟩ m₀
  have L₀ := F₀.layout
  have h0 : m 0 = m₀ 0 := hother 0 (Or.inl rfl)
  have hlike : ∀ b, LooksAlike (m₀ b) (m b) := by
    intro b
    by_cases hb : b = 0 ∨ blockBitmapBlocks 256 < b
    · rw [hother b hb]
      exact LooksAlike.refl _
    · have hbitmap := L₀.bitmap b (by omega) (by
        have hlt : blockBitmapBlocks 256 < inodeTableStart 256 := by decide
        show b < inodeTableStart 256
        omega)
      exact LooksAlike.of_type hbitmap (by rw [htype, hbitmap]) (by decide) (by decide)
  have L := L₀.congr (by rw [h0]) (by rw [h0]) fun b _ => htype b
  have hslot : inodeAt ⟨256, by decide⟩ m (UInt64.toNat 1) = onePage 200 := by
    rw [inodeAt, hother _ (Or.inr (by decide)), ← inodeAt, hnode₀]
    rfl
  refine ⟨m, F₀.congr L hlike (by rw [hslot]; rfl), hbits, hslot, ?_⟩
  have hpage : m (UInt64.toNat 200) = m₀ (UInt64.toNat 200) := hother _ (Or.inr (by decide))
  have hone : ∀ i, (if i = 0 then (200 : UInt64) else 0) ≠ 0 → i = 0 := by
    intro i hi
    by_contra hne
    rw [if_neg hne] at hi
    exact hi rfl
  have hmem : (0 : ℕ) ∈ filePages 0 1 ∪ filePages 0 1 := Or.inl ⟨0, le_rfl, by decide, rfl⟩
  have hentry : ∀ i ≤ maxIndex, Yields ⟨256, by decide⟩ (onePage 200) m (UInt64.ofNat i)
      (if i = 0 then 200 else 0) := by
    intro i hi
    have hmax : maxIndex = 511 := rfl
    have hnat : (UInt64.ofNat i).toNat = i := toNat_ofNat_block (by omega)
    by_cases hlo : i < 12
    · have hy : Yields ⟨256, by decide⟩ (onePage 200) m (UInt64.ofNat i)
        (onePage 200).directBlocks[(UInt64.ofNat i).toNat] := Yields.direct (by omega)
      simp only [hnat, onePage, Vector.getElem_set, Vector.getElem_replicate] at hy
      by_cases hzero : i = 0
      · rw [if_pos hzero]
        rwa [if_pos hzero.symm] at hy
      · rw [if_neg hzero]
        rwa [if_neg (Ne.symm hzero)] at hy
    · rw [if_neg (by omega)]
      exact Yields.none (by omega) rfl
  refine ⟨hentry, ?_, fun i hi => ?_, fun hne => absurd rfl hne⟩
  · refine ⟨fun i hi => ?_, fun i hi => hentry i ?_, fun i hi => hi, fun i hi => ?_, fun i hi => ?_,
      fun i hi => ?_, fun i hi => hi, fun i hi h12 => ?_, fun i hi j hj _ => ?_⟩
    · rw [hone i hi]
      exact Nat.zero_le _
    · rw [hone i hi]
      exact Nat.zero_le _
    · rw [hone i hi]
      decide
    · rw [hone i hi]
      decide
    · rw [hone i hi, if_pos rfl, hpage]
      exact h₀.type 0 hmem
    · rw [hone i hi] at h12
      omega
    · rw [hone i hi, hone j hj]
  · rw [hone i hi]
    exact hbits 200 (by decide)

/-- On this volume a byte of the page is written honestly. -/
theorem nbtrfsWrite_honest_256 : ∃ m, RegularFile ⟨256, by decide⟩ m [slash, 97] 1 ∧
    HonestWrite ⟨256, by decide⟩ ⟨0, 0, 0, fun _ => 0⟩ m [slash, 97] 1 (fun _ => 7) 0 1 := by
  obtain ⟨m, F, hbits, hnode, S⟩ := exists_onePage_full
  rw [← hnode] at S
  refine ⟨m, F, nbtrfsWrite_honest F (fun b hb => hbits b (hb.trans (by decide)))
    (within_device (fun _ _ => DiskInterface.lt_of_mapping_addr)
      (fun b hb => ⟨hb, hbits b hb⟩) _) S (by decide) ?_ ?_ ⟨0, 0, 0, fun _ => 0⟩ (fun _ => 7)⟩
  · rw [hnode]
    decide
  · exact ⟨by decide, trivial⟩

/-- On the same volume a write over the end of the page returns 4092, and the file stays empty. -/
theorem not_nbtrfsWrite_honest_256 : ∃ m, RegularFile ⟨256, by decide⟩ m [slash, 97] 1 ∧
    (∀ b < 256, blockBit m b = true) ∧
    (∃ blocks, SoundFile ⟨256, by decide⟩ m
      (inodeAt ⟨256, by decide⟩ m (UInt64.toNat 1)) blocks) ∧
    ¬HonestWrite ⟨256, by decide⟩ ⟨0, 0, 0, fun _ => 0⟩ m [slash, 97] 1 (fun _ => 7) 0 4093 := by
  obtain ⟨m, F, hbits, hnode, S⟩ := exists_onePage_full
  rw [← hnode] at S
  refine ⟨m, F, hbits, ⟨_, S⟩, fun honest => ?_⟩
  have O := SoundFile.openFile F (fun b hb => hbits b (hb.trans (by decide))) S (by
    rw [hnode]
    decide)
  have hmem : (0 + 0) / usableBlockSize ∈ {i | (if i = 0 then (200 : UInt64) else 0) ≠ 0} := by
    decide
  obtain ⟨m₁, hm₁⟩ : ∃ m₁, m₁ = Function.update m 200 (copyIn (m 200) 4 4092 fun _ => 7) :=
    ⟨_, rfl⟩
  have hpatch : Patched m m₁ (fun i => if i = 0 then (200 : UInt64) else 0)
      {i | (if i = 0 then (200 : UInt64) else 0) ≠ 0} 0 4092 fun _ => 7 := by
    rw [hm₁]
    exact (Patched.refl m _ _ 0 (fun _ => 7)).step O.mapped hmem
      (show (0 + 0) % usableBlockSize + 4092 ≤ usableBlockSize by decide)
  have O₁ := O.patched hpatch
  have hnone : nearFree ⟨256, by decide⟩ m = 0 := by
    rw [nearFree, Finset.card_eq_zero, Finset.filter_eq_empty_iff]
    intro b hb
    rw [hbits b ((Finset.mem_range.mp hb).trans_le (by decide))]
    decide
  have hempty : Yields ⟨256, by decide⟩ (inodeAt ⟨256, by decide⟩ m (UInt64.toNat 1)) m₁
      (UInt64.ofNat 1) 0 := O.entries_patched S.entry hpatch 1 (by decide)
  have hfull := O₁.run_writablePage_full ((O.nearFree_patched hpatch).trans hnone)
    (fun b hlo hb => absurd (hlo.trans_lt hb) (by decide)) hempty
  have haddr : (DiskInterface.mapping ⟨256, by decide⟩).addr
      (if (0 + 0) / usableBlockSize = 0 then (200 : UInt64) else 0) = some 200 := by decide
  have hrun : run (DiskInterface.mapping ⟨256, by decide⟩)
      (writePages ⟨256, by decide⟩ (fun _ => 7) (4091 + 1 + 1)
        (inodeAt ⟨256, by decide⟩ m (UInt64.toNat 1)) 0 4093 0) m = some ((none, 4092), m₁) := by
    rw [writePages, if_neg (by decide), run_bind_of_eq (run_writablePage_mapped O.mapped hmem)]
    show run _ (_ >>= _) _ = _
    rw [run_bind_of_eq (run_fetch _ _), run_bind_of_eq (run_modify _ haddr),
      run_bind_of_eq (run_writeBack _ _)]
    show run _ (writePages _ _ (4091 + 1) _ 4092 1 4092)
      (Function.update m 200 (copyIn (m 200) 4 4092 fun _ => 7)) = _
    rw [writePages, if_neg (by decide), ← hm₁]
    exact run_bind_of_eq hfull
  have hwrite : run (DiskInterface.mapping ⟨256, by decide⟩)
      (nbtrfsWrite ⟨256, by decide⟩ ⟨0, 0, 0, fun _ => 0⟩ [slash, 97] (fun _ => 7) 4093 0) m =
      some ((4092 : ℤ), m₁) := by
    rw [F.run_nbtrfsWrite_eq, writeInode]
    exact run_bind_of_eq hrun
  obtain ⟨hsize, -⟩ := honest _ _ hwrite (by decide)
  rw [O₁.stored, hnode] at hsize
  exact absurd hsize (by decide)

end Nbtrfs
