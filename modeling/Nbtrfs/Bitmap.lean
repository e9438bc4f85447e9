import Nbtrfs.Config

/-!
# Bitmaps

Reference: `bitmap.c`.

`bitmap_get` and `bitmap_put` reach bit `ii` through the 64-bit word `ii / 64` after the type header.
The index is a C `int`, so for a negative `ii` the word lies before the page. `bitOf` and `setBit`
are what they compute when the word lies inside it.
-/

namespace Nbtrfs

open BlockProg Bytes

/-- `bitmap_get`: the bit as `0` or `1`, or `-1` when the page is not a bitmap. -/
def bitmapGet (bm : UInt64) (ii : ℤ) : BlockProg ℤ := do
  let pg ← page bm
  if blockType pg ≠ BlockType.bitmap.code then
    pure (-1)
  else do
    let word ← peek bm (4 + 8 * ii.tdiv 64)
    pure ((word &&& bitMask (ii % 64).toNat) >>> UInt64.ofNat (ii % 64).toNat).toNat

/-- `bitmap_put`: clear the bit if `vv` is zero, else set it. -/
def bitmapPut (bm : UInt64) (ii vv : ℤ) : BlockProg ℤ := do
  let pg ← page bm
  if blockType pg ≠ BlockType.bitmap.code then
    pure (-1)
  else do
    let word ← peek bm (4 + 8 * ii.tdiv 64)
    let mask := bitMask (ii % 64).toNat
    poke bm (4 + 8 * ii.tdiv 64) (if vv = 0 then word &&& ~~~mask else word ||| mask)
    pure 0

/-! ## Bits of a page -/

/-- Bit `i` of the bitmap stored in a page. -/
def bitOf (pg : Bytes) (i : ℕ) : Bool := (load64 pg (4 + 8 * (i / 64))).toNat.testBit (i % 64)

/-- The page with bit `i` of its bitmap set to `v`. -/
def setBit (pg : Bytes) (i : ℕ) (v : Bool) : Bytes :=
  store64 pg (4 + 8 * (i / 64))
    (if v then load64 pg (4 + 8 * (i / 64)) ||| bitMask i
      else load64 pg (4 + 8 * (i / 64)) &&& ~~~bitMask i)

/-- `bitmap_put` changes one bit and keeps the others. -/
theorem bitOf_setBit (pg : Bytes) (i j : ℕ) (v : Bool) :
    bitOf (setBit pg i v) j = if j = i then v else bitOf pg j := by
  by_cases hword : j / 64 = i / 64
  · have hj : j % 64 < 64 := Nat.mod_lt _ (by decide)
    have hiff : j = i ↔ j % 64 = i % 64 := by omega
    rw [bitOf, hword, setBit, load64_store64_same]
    cases v with
    | true =>
        rw [if_pos rfl, testBit_or_bitMask, bitOf, hword]
        by_cases hji : j = i
        · simp [hji]
        · have hmod : ¬j % 64 = i % 64 := fun h => hji (hiff.mpr h)
          simp [hji, hmod]
    | false =>
        rw [if_neg (by decide), testBit_and_not_bitMask _ _ hj, bitOf, hword]
        by_cases hji : j = i
        · simp [hji]
        · have hmod : ¬j % 64 = i % 64 := fun h => hji (hiff.mpr h)
          simp [hji, hmod]
  · have hji : j ≠ i := fun h => hword (by rw [h])
    rw [if_neg hji, bitOf, bitOf, setBit, load64_store64_ne (by omega)]

@[simp] theorem blockType_setBit (pg : Bytes) (i : ℕ) (v : Bool) :
    blockType (setBit pg i v) = blockType pg :=
  blockType_congr fun o ho => leStore_apply_of_not_mem (by omega)

/-- A bit depends only on the bytes of the bitmap. -/
theorem bitOf_congr {pg pg' : Bytes} {i : ℕ} (h : ∀ o < 8, pg' (4 + 8 * (i / 64) + o) =
    pg (4 + 8 * (i / 64) + o)) : bitOf pg' i = bitOf pg i := by
  rw [bitOf, bitOf, load64_congr h]

/-! ## A bitmap that spans several blocks -/

/-- A scan that looks for a position without `P` stops at the first one. -/
theorem exists_first_of_not {P : ℕ → Prop} {n : ℕ} (h : ¬∀ i < n, P i) :
    ∃ f < n, ¬P f ∧ ∀ i < f, P i := by
  classical
  have hex : ∃ i, i < n ∧ ¬P i := by
    push Not at h
    exact h
  obtain ⟨hlt, hnot⟩ := Nat.find_spec hex
  refine ⟨Nat.find hex, hlt, hnot, fun i hi => ?_⟩
  by_contra hP
  exact Nat.find_min hex hi ⟨by omega, hP⟩

/-- Bit `n` of the bitmap whose blocks are numbered from `start` on. -/
def areaBit (m : Image) (start n : ℕ) : Bool := bitOf (m (start + n / 4092)) (n % 4092)

/-- The image with bit `n` of that bitmap set to `v`. -/
def putAreaBit (m : Image) (start n : ℕ) (v : Bool) : Image :=
  Function.update m (start + n / 4092) (setBit (m (start + n / 4092)) (n % 4092) v)

theorem areaBit_putAreaBit (m : Image) (start n k : ℕ) (v : Bool) :
    areaBit (putAreaBit m start n v) start k = if k = n then v else areaBit m start k := by
  by_cases hblk : k / 4092 = n / 4092
  · have hiff : k = n ↔ k % 4092 = n % 4092 := by omega
    rw [areaBit, hblk, putAreaBit, Function.update_self, bitOf_setBit, areaBit, hblk]
    simp only [hiff]
  · have hkn : k ≠ n := fun h => hblk (by rw [h])
    rw [if_neg hkn, areaBit, areaBit, putAreaBit, Function.update_of_ne (by omega)]

theorem putAreaBit_of_ne {m : Image} {start n c : ℕ} {v : Bool} (hc : c ≠ start + n / 4092) :
    putAreaBit m start n v c = m c :=
  Function.update_of_ne hc _ _

/-- A bit depends on the page it is in. -/
theorem areaBit_congr {m m' : Image} {start n : ℕ}
    (h : m' (start + n / 4092) = m (start + n / 4092)) : areaBit m' start n = areaBit m start n := by
  rw [areaBit, areaBit, h]

@[simp] theorem blockType_putAreaBit (m : Image) (start n : ℕ) (v : Bool) (c : ℕ) :
    blockType (putAreaBit m start n v c) = blockType (m c) := by
  by_cases hc : c = start + n / 4092
  · subst hc
    rw [putAreaBit, Function.update_self, blockType_setBit]
  · rw [putAreaBit_of_ne hc]

/-! ## What the two functions do on a bitmap page -/

variable {M : Mapping} {disk : DiskInterface} {m : Image} {bm : UInt64} {b i : ℕ}

/-- The word that `bitmap_get` and `bitmap_put` access for a bit of the page lies inside the page.
-/
private theorem wordAddr_bit (V : Volume M disk) (haddr : M.addr bm = some b)
    (hb : b < disk.totalBlocks.toNat) (hi : i < 32704) :
    M.wordAddr bm (4 + 8 * (i : ℤ).tdiv 64) = some (M.blockSize * b + (4 + 8 * (i / 64))) := by
  have hoff : (4 + 8 * (i : ℤ).tdiv 64) = ((4 + 8 * (i / 64) : ℕ) : ℤ) := by
    rw [Int.tdiv_eq_ediv_of_nonneg (by omega)]
    omega
  rw [hoff]
  apply Mapping.wordAddr_of_lt haddr
  · rwa [V.blocks_eq]
  · rw [V.blockSize_eq, blockSize]
    omega

private theorem toNat_emod_natCast : ((i : ℤ) % 64).toNat = i % 64 := by omega

/-- On a bitmap page `bitmap_get` returns the bit. -/
theorem run_bitmapGet (V : Volume M disk) (haddr : M.addr bm = some b)
    (hb : b < disk.totalBlocks.toNat) (htype : blockType (m b) = BlockType.bitmap.code)
    (hi : i < 32704) :
    run M (bitmapGet bm i) m = some (((bitOf (m b) i).toNat : ℤ), m) := by
  have hload : load64 (M.flat m) (M.blockSize * b + (4 + 8 * (i / 64))) =
      load64 (m b) (4 + 8 * (i / 64)) := Mapping.load64_flat (by
    rw [V.blockSize_eq, blockSize]
    omega)
  have hbit := and_bitMask_shiftRight (load64 (m b) (4 + 8 * (i / 64))) (i % 64)
  rw [Nat.mod_mod] at hbit
  rw [bitmapGet, run_bind_of_eq (run_page haddr), if_neg (not_not.mpr htype),
    run_bind_of_eq (run_peek (wordAddr_bit V haddr hb hi)), hload, toNat_emod_natCast, run_pure,
    hbit, bitOf]

/-- On a page of another type `bitmap_get` returns `-1`. -/
theorem run_bitmapGet_of_ne (haddr : M.addr bm = some b)
    (htype : blockType (m b) ≠ BlockType.bitmap.code) (ii : ℤ) :
    run M (bitmapGet bm ii) m = some (-1, m) := by
  rw [bitmapGet, run_bind_of_eq (run_page haddr), if_pos htype, run_pure]

/-- On a bitmap page `bitmap_put` sets the bit and succeeds. -/
theorem run_bitmapPut (V : Volume M disk) (haddr : M.addr bm = some b)
    (hb : b < disk.totalBlocks.toNat) (htype : blockType (m b) = BlockType.bitmap.code)
    (hi : i < 32704) (vv : ℤ) :
    run M (bitmapPut bm i vv) m =
      some (0, Function.update m b (setBit (m b) i (decide (vv ≠ 0)))) := by
  have hoff : 4 + 8 * (i / 64) + 8 ≤ M.blockSize := by
    rw [V.blockSize_eq, blockSize]
    omega
  have hmask : bitMask (i % 64) = bitMask i := by rw [bitMask, bitMask, Nat.mod_mod]
  rw [bitmapPut, run_bind_of_eq (run_page haddr), if_neg (not_not.mpr htype),
    run_bind_of_eq (run_peek (wordAddr_bit V haddr hb hi)), Mapping.load64_flat hoff,
    toNat_emod_natCast, run_bind_of_eq (run_poke _ (wordAddr_bit V haddr hb hi)), run_pure,
    Mapping.storeFlat_page _ hoff, setBit, hmask]
  by_cases hv : vv = 0 <;> simp [hv]

end Nbtrfs
