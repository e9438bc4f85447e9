import Mathlib.Tactic

/-!
# Little-endian fields in byte regions

A byte region is a total function from offsets to bytes. `leLoad` and `leStore` read and write an
integer of any width, least significant byte first, and `storeArr` writes an array of 64-bit words.
The fixed-width accessors are these two at widths 2, 4 and 8, so one pair of read-over-write lemmas
(`leLoad_leStore_same`, `leLoad_leStore_ne`) serves all of them.
-/

/-- A region of memory, addressed by byte offset. -/
abbrev Bytes := ℕ → UInt8

namespace Bytes

/-! ## Integers of any width -/

/-- The unsigned integer stored in the `w` bytes from offset `a` on. -/
def leLoad (p : Bytes) (a : ℕ) : ℕ → ℕ
  | 0 => 0
  | w + 1 => (p a).toNat + 256 * leLoad p (a + 1) w

/-- Store `v`, truncated to `w` bytes, from offset `a` on. -/
def leStore (p : Bytes) (a w v : ℕ) : Bytes :=
  fun o => if a ≤ o ∧ o < a + w then UInt8.ofNat (v / 256 ^ (o - a)) else p o

theorem leLoad_lt (p : Bytes) (a w : ℕ) : leLoad p a w < 256 ^ w := by
  induction w generalizing a with
  | zero => simp [leLoad]
  | succ w ih =>
      have hb : (p a).toNat < 256 := (p a).toNat_lt
      have hrec := ih (a + 1)
      rw [leLoad, pow_succ]
      omega

/-- A load depends only on the bytes it covers. -/
theorem leLoad_congr {p q : Bytes} {a b w : ℕ} (h : ∀ i < w, p (a + i) = q (b + i)) :
    leLoad p a w = leLoad q b w := by
  induction w generalizing a b with
  | zero => rfl
  | succ w ih =>
      have h0 : p a = q b := by simpa using h 0 (by omega)
      have hrec : leLoad p (a + 1) w = leLoad q (b + 1) w := by
        apply ih
        intro i hi
        have := h (i + 1) (by omega)
        rwa [← Nat.add_assoc, ← Nat.add_assoc, Nat.add_right_comm a, Nat.add_right_comm b] at this
      rw [leLoad, leLoad, h0, hrec]

theorem leStore_apply_of_not_mem {p : Bytes} {a w v o : ℕ} (h : o < a ∨ a + w ≤ o) :
    leStore p a w v o = p o := by
  rw [leStore, if_neg (by omega)]

/-- A region whose bytes from `a` on are the digits of `v` loads as `v`, truncated. -/
theorem leLoad_digits {p : Bytes} {a w v : ℕ}
    (h : ∀ i < w, p (a + i) = UInt8.ofNat (v / 256 ^ i)) : leLoad p a w = v % 256 ^ w := by
  induction w generalizing a v with
  | zero => simp [leLoad, Nat.mod_one]
  | succ w ih =>
      have h0 : p a = UInt8.ofNat v := by simpa using h 0 (by omega)
      have hrec : leLoad p (a + 1) w = v / 256 % 256 ^ w := by
        apply ih
        intro i hi
        have := h (i + 1) (by omega)
        rw [pow_succ', ← Nat.div_div_eq_div_mul] at this
        rwa [Nat.add_assoc, Nat.add_comm 1 i]
      rw [leLoad, h0, hrec, pow_succ', Nat.mod_mul]
      simp

theorem leLoad_leStore_same (p : Bytes) (a w v : ℕ) :
    leLoad (leStore p a w v) a w = v % 256 ^ w := by
  apply leLoad_digits
  intro i hi
  rw [leStore, if_pos (by omega), Nat.add_sub_cancel_left]

theorem leLoad_leStore_ne {p : Bytes} {a w v b w' : ℕ} (h : a + w ≤ b ∨ b + w' ≤ a) :
    leLoad (leStore p a w v) b w' = leLoad p b w' := by
  apply leLoad_congr
  intro i hi
  exact leStore_apply_of_not_mem (by omega)

/-! ## Arrays of 64-bit words -/

/-- Store the words `f 0, …, f (n - 1)` one after the other from offset `a` on. -/
def storeArr (p : Bytes) (a n : ℕ) (f : ℕ → UInt64) : Bytes :=
  fun o => if a ≤ o ∧ o < a + 8 * n then
    UInt8.ofNat ((f ((o - a) / 8)).toNat / 256 ^ ((o - a) % 8)) else p o

theorem storeArr_apply_of_not_mem {p : Bytes} {a n o : ℕ} {f : ℕ → UInt64}
    (h : o < a ∨ a + 8 * n ≤ o) : storeArr p a n f o = p o := by
  rw [storeArr, if_neg (by omega)]

theorem leLoad_storeArr_elem {p : Bytes} {a n i : ℕ} {f : ℕ → UInt64} (hi : i < n) :
    leLoad (storeArr p a n f) (a + 8 * i) 8 = (f i).toNat := by
  have hdigits : leLoad (storeArr p a n f) (a + 8 * i) 8 = (f i).toNat % 256 ^ 8 := by
    apply leLoad_digits
    intro j hj
    rw [storeArr, if_pos (by omega), show a + 8 * i + j - a = 8 * i + j by omega,
      show (8 * i + j) / 8 = i by omega, show (8 * i + j) % 8 = j by omega]
  rw [hdigits]
  exact Nat.mod_eq_of_lt (f i).toNat_lt

theorem leLoad_storeArr_ne {p : Bytes} {a n b w : ℕ} {f : ℕ → UInt64}
    (h : a + 8 * n ≤ b ∨ b + w ≤ a) : leLoad (storeArr p a n f) b w = leLoad p b w := by
  apply leLoad_congr
  intro i hi
  exact storeArr_apply_of_not_mem (by omega)

/-! ## Fixed-width fields -/

def load16 (p : Bytes) (a : ℕ) : UInt16 := UInt16.ofNat (leLoad p a 2)
def load32 (p : Bytes) (a : ℕ) : UInt32 := UInt32.ofNat (leLoad p a 4)
def load64 (p : Bytes) (a : ℕ) : UInt64 := UInt64.ofNat (leLoad p a 8)

def store8 (p : Bytes) (a : ℕ) (v : UInt8) : Bytes := leStore p a 1 v.toNat
def store16 (p : Bytes) (a : ℕ) (v : UInt16) : Bytes := leStore p a 2 v.toNat
def store32 (p : Bytes) (a : ℕ) (v : UInt32) : Bytes := leStore p a 4 v.toNat
def store64 (p : Bytes) (a : ℕ) (v : UInt64) : Bytes := leStore p a 8 v.toNat

theorem store8_same (p : Bytes) (a : ℕ) (v : UInt8) : store8 p a v a = v := by
  simp [store8, leStore]

theorem load16_store16_same (p : Bytes) (a : ℕ) (v : UInt16) : load16 (store16 p a v) a = v := by
  have hv : v.toNat < 256 ^ 2 := v.toNat_lt
  rw [load16, store16, leLoad_leStore_same, Nat.mod_eq_of_lt hv, UInt16.ofNat_toNat]

theorem load32_store32_same (p : Bytes) (a : ℕ) (v : UInt32) : load32 (store32 p a v) a = v := by
  have hv : v.toNat < 256 ^ 4 := v.toNat_lt
  rw [load32, store32, leLoad_leStore_same, Nat.mod_eq_of_lt hv, UInt32.ofNat_toNat]

theorem load64_store64_same (p : Bytes) (a : ℕ) (v : UInt64) : load64 (store64 p a v) a = v := by
  have hv : v.toNat < 256 ^ 8 := v.toNat_lt
  rw [load64, store64, leLoad_leStore_same, Nat.mod_eq_of_lt hv, UInt64.ofNat_toNat]

theorem load64_store64_ne {p : Bytes} {a b : ℕ} {v : UInt64} (h : a + 8 ≤ b ∨ b + 8 ≤ a) :
    load64 (store64 p a v) b = load64 p b := by
  rw [load64, load64, store64, leLoad_leStore_ne h]

theorem load64_store32_ne {p : Bytes} {a b : ℕ} {v : UInt32} (h : a + 4 ≤ b ∨ b + 8 ≤ a) :
    load64 (store32 p a v) b = load64 p b := by
  rw [load64, load64, store32, leLoad_leStore_ne h]

theorem load32_store64_ne {p : Bytes} {a b : ℕ} {v : UInt64} (h : a + 8 ≤ b ∨ b + 4 ≤ a) :
    load32 (store64 p a v) b = load32 p b := by
  rw [load32, load32, store64, leLoad_leStore_ne h]

theorem load32_store32_ne {p : Bytes} {a b : ℕ} {v : UInt32} (h : a + 4 ≤ b ∨ b + 4 ≤ a) :
    load32 (store32 p a v) b = load32 p b := by
  rw [load32, load32, store32, leLoad_leStore_ne h]

theorem load64_store16_ne {p : Bytes} {a b : ℕ} {v : UInt16} (h : a + 2 ≤ b ∨ b + 8 ≤ a) :
    load64 (store16 p a v) b = load64 p b := by
  rw [load64, load64, store16, leLoad_leStore_ne h]

theorem load64_store8_ne {p : Bytes} {a b : ℕ} {v : UInt8} (h : a + 1 ≤ b ∨ b + 8 ≤ a) :
    load64 (store8 p a v) b = load64 p b := by
  rw [load64, load64, store8, leLoad_leStore_ne h]

theorem load32_store16_ne {p : Bytes} {a b : ℕ} {v : UInt16} (h : a + 2 ≤ b ∨ b + 4 ≤ a) :
    load32 (store16 p a v) b = load32 p b := by
  rw [load32, load32, store16, leLoad_leStore_ne h]

theorem load16_storeArr_ne {p : Bytes} {a n b : ℕ} {f : ℕ → UInt64}
    (h : a + 8 * n ≤ b ∨ b + 2 ≤ a) : load16 (storeArr p a n f) b = load16 p b := by
  rw [load16, load16, leLoad_storeArr_ne h]

theorem load64_storeArr_ne {p : Bytes} {a n b : ℕ} {f : ℕ → UInt64}
    (h : a + 8 * n ≤ b ∨ b + 8 ≤ a) : load64 (storeArr p a n f) b = load64 p b := by
  rw [load64, load64, leLoad_storeArr_ne h]

theorem load32_storeArr_ne {p : Bytes} {a n b : ℕ} {f : ℕ → UInt64}
    (h : a + 8 * n ≤ b ∨ b + 4 ≤ a) : load32 (storeArr p a n f) b = load32 p b := by
  rw [load32, load32, leLoad_storeArr_ne h]

theorem load64_storeArr_elem {p : Bytes} {a n i : ℕ} {f : ℕ → UInt64} (hi : i < n) :
    load64 (storeArr p a n f) (a + 8 * i) = f i := by
  rw [load64, leLoad_storeArr_elem hi, UInt64.ofNat_toNat]

theorem load32_congr {p q : Bytes} {a b : ℕ} (h : ∀ i < 4, p (a + i) = q (b + i)) :
    load32 p a = load32 q b := by
  rw [load32, load32, leLoad_congr h]

theorem load64_congr {p q : Bytes} {a b : ℕ} (h : ∀ i < 8, p (a + i) = q (b + i)) :
    load64 p a = load64 q b := by
  rw [load64, load64, leLoad_congr h]

theorem store64_apply_ne {p : Bytes} {a o : ℕ} {v : UInt64} (h : o < a ∨ a + 8 ≤ o) :
    store64 p a v o = p o :=
  leStore_apply_of_not_mem h

theorem store32_apply_ne {p : Bytes} {a o : ℕ} {v : UInt32} (h : o < a ∨ a + 4 ≤ o) :
    store32 p a v o = p o :=
  leStore_apply_of_not_mem h

theorem store16_apply_ne {p : Bytes} {a o : ℕ} {v : UInt16} (h : o < a ∨ a + 2 ≤ o) :
    store16 p a v o = p o :=
  leStore_apply_of_not_mem h

theorem store8_apply_ne {p : Bytes} {a o : ℕ} {v : UInt8} (h : o < a ∨ a + 1 ≤ o) :
    store8 p a v o = p o :=
  leStore_apply_of_not_mem h

/-! ## Byte strings -/

/-- Copy the bytes `src 0, …, src (n - 1)` into the region from offset `a` on. -/
def copyIn (p : Bytes) (a n : ℕ) (src : ℕ → UInt8) : Bytes :=
  fun o => if a ≤ o ∧ o < a + n then src (o - a) else p o

theorem copyIn_apply {p : Bytes} {a n i : ℕ} {src : ℕ → UInt8} (hi : i < n) :
    copyIn p a n src (a + i) = src i := by
  rw [copyIn, if_pos (by omega), Nat.add_sub_cancel_left]

theorem copyIn_apply_ne {p : Bytes} {a n o : ℕ} {src : ℕ → UInt8} (h : o < a ∨ a + n ≤ o) :
    copyIn p a n src o = p o := by
  rw [copyIn, if_neg (by omega)]

theorem load64_copyIn_ne {p : Bytes} {a n b : ℕ} {src : ℕ → UInt8} (h : a + n ≤ b ∨ b + 8 ≤ a) :
    load64 (copyIn p a n src) b = load64 p b :=
  load64_congr fun _ _ => copyIn_apply_ne (by omega)

/-! ## Bits of a word -/

/-- The mask `(uint64_t)1 << k`. The machine shifts by the low six bits of the count. -/
def bitMask (k : ℕ) : UInt64 := 1 <<< UInt64.ofNat (k % 64)

/-- A mask has one bit set. -/
theorem testBit_bitMask (k j : ℕ) : (bitMask k).toNat.testBit j = decide (j = k % 64) := by
  have hk : k % 64 < 64 := Nat.mod_lt _ (by decide)
  have hcount : (UInt64.ofNat (k % 64)).toNat = k % 64 := UInt64.toNat_ofNat_of_lt' (by
    show k % 64 < 2 ^ 64
    omega)
  rw [bitMask, UInt64.toNat_shiftLeft, hcount, Nat.mod_eq_of_lt hk, Nat.testBit_mod_two_pow,
    Nat.testBit_shiftLeft, UInt64.toNat_one]
  by_cases hj : j = k % 64
  · subst hj
    simp [hk]
  · by_cases hle : k % 64 ≤ j
    · have hone : (1 : ℕ).testBit (j - k % 64) = false := by
        rw [Bool.eq_false_iff, ne_eq, Nat.testBit_one_eq_true_iff_self_eq_zero]
        omega
      simp [hj, hone]
    · simp [hj, hle]

theorem testBit_or_bitMask (w : UInt64) (k j : ℕ) :
    (w ||| bitMask k).toNat.testBit j = (w.toNat.testBit j || decide (j = k % 64)) := by
  rw [UInt64.toNat_or, Nat.testBit_or, testBit_bitMask]

theorem testBit_and_not_bitMask (w : UInt64) (k : ℕ) {j : ℕ} (hj : j < 64) :
    (w &&& ~~~bitMask k).toNat.testBit j = (w.toNat.testBit j && !decide (j = k % 64)) := by
  have hnot : (~~~bitMask k).toNat.testBit j = !decide (j = k % 64) := by
    rw [← UInt64.toNat_toBitVec, BitVec.testBit_toNat, UInt64.toBitVec_not, BitVec.getLsbD_not,
      ← BitVec.testBit_toNat, UInt64.toNat_toBitVec, testBit_bitMask]
    simp [hj]
  rw [UInt64.toNat_and, Nat.testBit_and, hnot]

/-- Masking a bit and shifting it down extracts it. -/
theorem and_bitMask_shiftRight (w : UInt64) (k : ℕ) :
    ((w &&& bitMask k) >>> UInt64.ofNat (k % 64)).toNat = (w.toNat.testBit (k % 64)).toNat := by
  have hk : k % 64 < 64 := Nat.mod_lt _ (by decide)
  have hcount : (UInt64.ofNat (k % 64)).toNat = k % 64 := UInt64.toNat_ofNat_of_lt' (by
    show k % 64 < 2 ^ 64
    omega)
  apply Nat.eq_of_testBit_eq
  intro i
  rw [UInt64.toNat_shiftRight, hcount, Nat.mod_eq_of_lt hk, Nat.testBit_shiftRight,
    UInt64.toNat_and, Nat.testBit_and, testBit_bitMask]
  cases i with
  | zero => cases w.toNat.testBit (k % 64) <;> simp
  | succ i =>
      have hhigh : (w.toNat.testBit (k % 64)).toNat.testBit (i + 1) = false := by
        cases w.toNat.testBit (k % 64) <;> simp [Nat.testBit_succ]
      rw [hhigh]
      simp

end Bytes
