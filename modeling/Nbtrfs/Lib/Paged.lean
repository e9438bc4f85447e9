import Nbtrfs.Lib.BlockProg

/-!
# Byte arrays in pages

An array of bytes is cut into pages of `B` bytes, each stored behind a header of `h` bytes in a block
of its own: page `i` lies in block `place i`. `Paged.byteAt` is the array that the blocks hold. A copy
into one page, up to the end of the page at most, is a copy into the array.
-/

namespace Paged

variable (B h : ℕ)

/-- Byte `x` of the array. -/
def byteAt (m : Image) (place : ℕ → ℕ) (x : ℕ) : UInt8 := m (place (x / B)) (h + x % B)

/-- The pages that the `n` bytes from `o` on lie in. -/
def pagesOf (o n : ℕ) : Set ℕ := {i | ∃ x, o ≤ x ∧ x < o + n ∧ x / B = i}

variable {B h} {m : Image} {place : ℕ → ℕ} {o n c x y : ℕ}

theorem mem_pagesOf (hlo : o ≤ x) (hhi : x < o + n) : x / B ∈ pagesOf B o n := ⟨x, hlo, hhi, rfl⟩

theorem pagesOf_drop (hc : c ≤ n) : pagesOf B (o + c) (n - c) ⊆ pagesOf B o n := by
  rintro i ⟨x, hlo, hhi, rfl⟩
  exact mem_pagesOf (by omega) (by omega)

/-- Up to the end of a page the page stays the same and the offset in it advances. -/
theorem div_mod_of_chunk (hB : 0 < B) (hc : x % B + c ≤ B) (hlo : x ≤ y) (hhi : y < x + c) :
    y / B = x / B ∧ y % B = x % B + (y - x) := by
  have hx := Nat.div_add_mod x B
  have hy : y = B * (x / B) + (x % B + (y - x)) := by omega
  have hlt : x % B + (y - x) < B := by omega
  refine ⟨?_, ?_⟩
  · rw [hy, Nat.mul_add_div hB, Nat.div_eq_of_lt hlt, Nat.add_zero]
  · rw [hy, Nat.mul_add_mod, Nat.mod_eq_of_lt hlt, ← hy]

/-- A copy of `c` bytes into the page of `x`, from `x` on. -/
theorem byteAt_copyIn (hB : 0 < B) (hc : x % B + c ≤ B) (src : ℕ → UInt8)
    (hinj : place (y / B) = place (x / B) → y / B = x / B) :
    byteAt B h (Function.update m (place (x / B))
        (Bytes.copyIn (m (place (x / B))) (h + x % B) c src)) place y =
      if x ≤ y ∧ y < x + c then src (y - x) else byteAt B h m place y := by
  rw [byteAt, byteAt]
  by_cases hin : x ≤ y ∧ y < x + c
  · obtain ⟨hdiv, hmod⟩ := div_mod_of_chunk hB hc hin.1 hin.2
    rw [if_pos hin, hdiv, Function.update_self, hmod, ← Nat.add_assoc,
      Bytes.copyIn_apply (by omega)]
  · rw [if_neg hin]
    by_cases hpage : place (y / B) = place (x / B)
    · rw [hpage, Function.update_self]
      apply Bytes.copyIn_apply_ne
      have hx := Nat.div_add_mod x B
      have hy := Nat.div_add_mod y B
      rw [hinj hpage] at hy
      omega
    · rw [Function.update_of_ne hpage]

/-- A list of consecutive bytes, cut in two. -/
theorem map_range_append {α : Type} (f : ℕ → α) (hc : c ≤ n) :
    (List.range n).map f = (List.range c).map f ++ (List.range (n - c)).map fun i => f (c + i) := by
  obtain ⟨k, rfl⟩ := Nat.exists_eq_add_of_le hc
  rw [List.range_add, List.map_append, List.map_map, Nat.add_sub_cancel_left]
  rfl

end Paged
