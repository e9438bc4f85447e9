import Nbtrfs.Lib.Bytes

/-!
# Programs over a block device

`BlockProg α` is the language of programs that reach their storage through a buffer interface only:
they ask for a block, read or modify the page they were given in place, and announce a modification
with `writeBlock`. A program is data, so the same program can be run in several ways.

`BlockProg.run` is the direct way: every page is the device block itself, `getBlock` and
`writeBlock` have no effect of their own, and an access outside the device is a crash. How a block
number becomes a place on the device is a parameter (`Mapping`).
-/

/-- The content of a device: block number, then offset in the block. -/
abbrev Image := ℕ → Bytes

/-- A program that accesses blocks through a buffer interface and returns an `α`. -/
inductive BlockProg (α : Type) : Type where
  | done (a : α)
  | crash
  | getBlock (inum pnum : UInt64) (k : BlockProg α)
  | load (pnum : UInt64) (k : Bytes → BlockProg α)
  | store (pnum : UInt64) (f : Bytes → Bytes) (k : BlockProg α)
  | loadWord (pnum : UInt64) (off : ℤ) (k : UInt64 → BlockProg α)
  | storeWord (pnum : UInt64) (off : ℤ) (v : UInt64) (k : BlockProg α)
  | writeBlock (inum pnum : UInt64) (k : BlockProg α)

namespace BlockProg

variable {α β σ : Type}

/-! ## Sequencing -/

/-- Run `p`, then the program its result selects. -/
def andThen : BlockProg α → (α → BlockProg β) → BlockProg β
  | done a, f => f a
  | crash, _ => crash
  | getBlock i p k, f => getBlock i p (andThen k f)
  | load p k, f => load p fun pg => andThen (k pg) f
  | store p g k, f => store p g (andThen k f)
  | loadWord p o k, f => loadWord p o fun w => andThen (k w) f
  | storeWord p o v k, f => storeWord p o v (andThen k f)
  | writeBlock i p k, f => writeBlock i p (andThen k f)

instance : Monad BlockProg where
  pure := done
  bind := andThen

/-- Obtain the page of block `pnum`; `inum` is the owner to record for it. -/
def fetch (inum pnum : UInt64) : BlockProg Unit := getBlock inum pnum (done ())
/-- Read the page of a block that was fetched. -/
def page (pnum : UInt64) : BlockProg Bytes := load pnum done
/-- Change the page of a block in place. -/
def modify (pnum : UInt64) (f : Bytes → Bytes) : BlockProg Unit := store pnum f (done ())
/-- Read the 64-bit word `off` bytes after the start of a page; it may lie outside the page. -/
def peek (pnum : UInt64) (off : ℤ) : BlockProg UInt64 := loadWord pnum off done
/-- Write the 64-bit word `off` bytes after the start of a page; it may lie outside the page. -/
def poke (pnum : UInt64) (off : ℤ) (v : UInt64) : BlockProg Unit := storeWord pnum off v (done ())
/-- Announce that the page of a block was modified. -/
def writeBack (inum pnum : UInt64) : BlockProg Unit := writeBlock inum pnum (done ())

/-- `for (i = start; i < start + n; i++) s = body(i, s);` -/
def forUp (body : ℕ → σ → BlockProg σ) : ℕ → ℕ → σ → BlockProg σ
  | 0, _, s => pure s
  | n + 1, start, s => do
      let s' ← body start s
      forUp body n (start + 1) s'

end BlockProg

/-! ## Running a program directly on the device -/

/-- How block numbers reach the device: the block size, the number of blocks, and the block that a
block number addresses (`none` when the address falls outside the device). -/
structure Mapping where
  blockSize : ℕ
  blocks : ℕ
  addr : UInt64 → Option ℕ

namespace Mapping

/-- Block numbers below `n` address the block of that number. -/
def ExactTo (M : Mapping) (n : ℕ) : Prop := ∀ p : UInt64, p.toNat < n → M.addr p = some p.toNat

theorem ExactTo.mono {M : Mapping} {n n' : ℕ} (h : M.ExactTo n) (hle : n' ≤ n) : M.ExactTo n' :=
  fun p hp => h p (Nat.lt_of_lt_of_le hp hle)

theorem ExactTo.ofNat {M : Mapping} {n b : ℕ} (h : M.ExactTo n) (hb : b < n) (hn : n ≤ 2 ^ 64) :
    M.addr (UInt64.ofNat b) = some b := by
  have hb64 : (UInt64.ofNat b).toNat = b := UInt64.toNat_ofNat_of_lt' (by
    show b < 2 ^ 64
    omega)
  rw [h _ (by rwa [hb64]), hb64]

/-- The device as one flat byte region. -/
def flat (M : Mapping) (m : Image) : Bytes := fun a => m (a / M.blockSize) (a % M.blockSize)

/-- The flat address of the word at `off` from the start of block `pnum`, if it is on the device. -/
def wordAddr (M : Mapping) (pnum : UInt64) (off : ℤ) : Option ℕ :=
  match M.addr pnum with
  | none => none
  | some b =>
      if 0 ≤ (M.blockSize * b : ℕ) + off ∧
          (M.blockSize * b : ℕ) + off + 8 ≤ (M.blockSize * M.blocks : ℕ) then
        some ((M.blockSize * b : ℕ) + off).toNat
      else none

/-- Store a word at a flat address. -/
def storeFlat (M : Mapping) (m : Image) (a : ℕ) (v : UInt64) : Image := fun b o =>
  if o < M.blockSize then Bytes.store64 (M.flat m) a v (M.blockSize * b + o) else m b o

end Mapping

namespace BlockProg

variable {α β σ : Type}

/-- Run a program on the device blocks themselves; `none` is a crash. -/
def run (M : Mapping) : BlockProg α → Image → Option (α × Image)
  | done a, m => some (a, m)
  | crash, _ => none
  | getBlock _ _ k, m => run M k m
  | load p k, m =>
      match M.addr p with
      | none => none
      | some b => run M (k (m b)) m
  | store p f k, m =>
      match M.addr p with
      | none => none
      | some b => run M k (Function.update m b (f (m b)))
  | loadWord p off k, m =>
      match M.wordAddr p off with
      | none => none
      | some a => run M (k (Bytes.load64 (M.flat m) a)) m
  | storeWord p off v k, m =>
      match M.wordAddr p off with
      | none => none
      | some a => run M k (M.storeFlat m a v)
  | writeBlock _ _ k, m => run M k m

variable {M : Mapping} {m m' : Image}

@[simp] theorem run_pure (a : α) : run M (pure a) m = some (a, m) := rfl

@[simp] theorem run_crash : run M (crash : BlockProg α) m = none := rfl

attribute [local simp] andThen run forUp in
/-- Running a sequence runs its parts one after the other. -/
theorem run_bind (p : BlockProg α) (f : α → BlockProg β) :
    run M (p >>= f) m = (run M p m).bind fun r => run M (f r.1) r.2 := by
  show run M (andThen p f) m = _
  induction p generalizing m with
  | done a => rfl
  | crash => rfl
  | getBlock i p k ih => exact ih
  | writeBlock i p k ih => exact ih
  | load p k ih =>
      rw [andThen, run, run]
      cases M.addr p with
      | none => rfl
      | some b => exact ih (m b)
  | store p g k ih =>
      rw [andThen, run, run]
      cases M.addr p with
      | none => rfl
      | some b => exact ih
  | loadWord p off k ih =>
      rw [andThen, run, run]
      cases M.wordAddr p off with
      | none => rfl
      | some a => exact ih _
  | storeWord p off v k ih =>
      rw [andThen, run, run]
      cases M.wordAddr p off with
      | none => rfl
      | some a => exact ih

/-- Step over the first part of a sequence once its outcome is known. -/
theorem run_bind_of_eq {p : BlockProg α} {f : α → BlockProg β} {a : α}
    (h : run M p m = some (a, m')) : run M (p >>= f) m = run M (f a) m' := by
  rw [run_bind, h]
  rfl

/-- A sequence that crashes in its first part crashes. -/
theorem run_bind_of_none {p : BlockProg α} {f : α → BlockProg β} (h : run M p m = none) :
    run M (p >>= f) m = none := by
  rw [run_bind, h]
  rfl

/-- A sequence that returns did so by returning from both parts. -/
theorem run_bind_eq_some {p : BlockProg α} {f : α → BlockProg β} {r : β × Image} :
    run M (p >>= f) m = some r ↔ ∃ a m₁, run M p m = some (a, m₁) ∧ run M (f a) m₁ = some r := by
  rw [run_bind, Option.bind_eq_some_iff]
  exact ⟨fun ⟨x, hp, hf⟩ => ⟨x.1, x.2, hp, hf⟩, fun ⟨a, m₁, hp, hf⟩ => ⟨(a, m₁), hp, hf⟩⟩

@[simp] theorem run_fetch (i p : UInt64) : run M (fetch i p) m = some ((), m) := rfl

@[simp] theorem run_writeBack (i p : UInt64) : run M (writeBack i p) m = some ((), m) := rfl

theorem run_page {p : UInt64} {b : ℕ} (h : M.addr p = some b) :
    run M (page p) m = some (m b, m) := by
  rw [page, run, h]
  rfl

theorem run_page_of_none {p : UInt64} (h : M.addr p = none) : run M (page p) m = none := by
  rw [page, run, h]

theorem run_modify {p : UInt64} {b : ℕ} (f : Bytes → Bytes) (h : M.addr p = some b) :
    run M (modify p f) m = some ((), Function.update m b (f (m b))) := by
  rw [modify, run, h]
  rfl

theorem run_peek {p : UInt64} {off : ℤ} {a : ℕ} (h : M.wordAddr p off = some a) :
    run M (peek p off) m = some (Bytes.load64 (M.flat m) a, m) := by
  rw [peek, run, h]
  rfl

theorem run_poke {p : UInt64} {off : ℤ} {a : ℕ} (v : UInt64) (h : M.wordAddr p off = some a) :
    run M (poke p off v) m = some ((), M.storeFlat m a v) := by
  rw [poke, run, h]
  rfl

/-- The loop rule: an invariant that every iteration keeps holds after the loop. -/
theorem run_forUp {body : ℕ → σ → BlockProg σ} (Inv : ℕ → σ → Image → Prop) {n start : ℕ} {s : σ}
    (hinit : Inv start s m)
    (hstep : ∀ i s m, start ≤ i → i < start + n → Inv i s m →
      ∃ s' m', run M (body i s) m = some (s', m') ∧ Inv (i + 1) s' m') :
    ∃ s' m', run M (forUp body n start s) m = some (s', m') ∧ Inv (start + n) s' m' := by
  induction n generalizing start s m with
  | zero => exact ⟨s, m, rfl, hinit⟩
  | succ n ih =>
      obtain ⟨s₁, m₁, hrun₁, hinv₁⟩ := hstep start s m le_rfl (by omega) hinit
      obtain ⟨s₂, m₂, hrun₂, hinv₂⟩ := ih hinv₁
        (fun i s m hlo hhi => hstep i s m (by omega) (by omega))
      refine ⟨s₂, m₂, ?_, ?_⟩
      · rw [forUp, run_bind_of_eq hrun₁, hrun₂]
      · rwa [Nat.add_right_comm, Nat.add_assoc] at hinv₂

/-! ## What holds if a program returns -/

/-- Whenever the program returns, `Q` holds of its result and the image it leaves. -/
def Ensures (M : Mapping) (p : BlockProg α) (m : Image) (Q : α → Image → Prop) : Prop :=
  ∀ a m', run M p m = some (a, m') → Q a m'

theorem Ensures.mono {p : BlockProg α} {Q R : α → Image → Prop} (h : Ensures M p m Q)
    (himp : ∀ a m', Q a m' → R a m') : Ensures M p m R :=
  fun a m' hrun => himp a m' (h a m' hrun)

theorem ensures_of_run {p : BlockProg α} {Q : α → Image → Prop} {a : α}
    (h : run M p m = some (a, m')) (hQ : Q a m') : Ensures M p m Q := by
  intro b m'' hrun
  rw [h] at hrun
  obtain ⟨rfl, rfl⟩ := Prod.mk.inj (Option.some.inj hrun)
  exact hQ

theorem ensures_of_none {p : BlockProg α} {Q : α → Image → Prop} (h : run M p m = none) :
    Ensures M p m Q := by
  intro b m' hrun
  rw [h] at hrun
  cases hrun

theorem ensures_pure {a : α} {Q : α → Image → Prop} (h : Q a m) : Ensures M (pure a) m Q :=
  ensures_of_run (run_pure a) h

theorem ensures_crash {Q : α → Image → Prop} : Ensures M crash m Q :=
  ensures_of_none run_crash

theorem ensures_bind {p : BlockProg α} {f : α → BlockProg β} {Q : β → Image → Prop}
    (h : Ensures M p m fun a m' => Ensures M (f a) m' Q) : Ensures M (p >>= f) m Q := by
  intro b m' hrun
  obtain ⟨a, m₁, hp, hf⟩ := run_bind_eq_some.mp hrun
  exact h a m₁ hp b m' hf

theorem ensures_fetch_bind {i p : UInt64} {f : Unit → BlockProg β} {Q : β → Image → Prop}
    (h : Ensures M (f ()) m Q) : Ensures M (fetch i p >>= f) m Q :=
  ensures_bind (ensures_of_run (run_fetch i p) h)

theorem ensures_writeBack_bind {i p : UInt64} {f : Unit → BlockProg β} {Q : β → Image → Prop}
    (h : Ensures M (f ()) m Q) : Ensures M (writeBack i p >>= f) m Q :=
  ensures_bind (ensures_of_run (run_writeBack i p) h)

theorem ensures_page_bind {p : UInt64} {f : Bytes → BlockProg β} {Q : β → Image → Prop}
    (h : ∀ b, M.addr p = some b → Ensures M (f (m b)) m Q) : Ensures M (page p >>= f) m Q := by
  cases haddr : M.addr p with
  | none => exact ensures_bind (ensures_of_none (run_page_of_none haddr))
  | some b => exact ensures_bind (ensures_of_run (run_page haddr) (h b haddr))

theorem ensures_modify {p : UInt64} {g : Bytes → Bytes} {Q : Unit → Image → Prop}
    (h : ∀ b, M.addr p = some b → Q () (Function.update m b (g (m b)))) :
    Ensures M (modify p g) m Q := by
  cases haddr : M.addr p with
  | none => exact ensures_of_none (by rw [modify, run, haddr])
  | some b => exact ensures_of_run (run_modify g haddr) (h b haddr)

theorem ensures_peek_bind {p : UInt64} {off : ℤ} {f : UInt64 → BlockProg β} {Q : β → Image → Prop}
    (h : ∀ a, M.wordAddr p off = some a → Ensures M (f (Bytes.load64 (M.flat m) a)) m Q) :
    Ensures M (peek p off >>= f) m Q := by
  cases haddr : M.wordAddr p off with
  | none => exact ensures_bind (ensures_of_none (by rw [peek, run, haddr]))
  | some a => exact ensures_bind (ensures_of_run (run_peek haddr) (h a haddr))

theorem ensures_poke {p : UInt64} {off : ℤ} {v : UInt64} {Q : Unit → Image → Prop}
    (h : ∀ a, M.wordAddr p off = some a → Q () (M.storeFlat m a v)) :
    Ensures M (poke p off v) m Q := by
  cases haddr : M.wordAddr p off with
  | none => exact ensures_of_none (by rw [poke, run, haddr])
  | some a => exact ensures_of_run (run_poke v haddr) (h a haddr)

end BlockProg

namespace Mapping

variable {M : Mapping} {m : Image}

/-! ## Words anywhere -/

/-- The address of a word is its offset from the start of the block. -/
theorem wordAddr_eq_some {p : UInt64} {off : ℤ} {a : ℕ} (h : M.wordAddr p off = some a) :
    ∃ b, M.addr p = some b ∧ (a : ℤ) = (M.blockSize * b : ℕ) + off := by
  rw [wordAddr] at h
  cases haddr : M.addr p with
  | none =>
      rw [haddr] at h
      cases h
  | some b =>
      rw [haddr] at h
      simp only at h
      split at h
      next hin =>
        refine ⟨b, rfl, ?_⟩
        have ha := Option.some.inj h
        omega
      next => cases h

/-- A word that can be accessed lies on the device. -/
theorem lt_of_wordAddr {p : UInt64} {off : ℤ} {a : ℕ} (h : M.wordAddr p off = some a) :
    a + 8 ≤ M.blockSize * M.blocks := by
  rw [wordAddr] at h
  cases haddr : M.addr p with
  | none =>
      rw [haddr] at h
      cases h
  | some b =>
      rw [haddr] at h
      simp only at h
      split at h
      next hin =>
        have ha := Option.some.inj h
        omega
      next => cases h

/-- Writing a word leaves the bytes outside it alone. -/
theorem storeFlat_apply_ne {a b o : ℕ} {v : UInt64}
    (h : M.blockSize * b + o < a ∨ a + 8 ≤ M.blockSize * b + o) : M.storeFlat m a v b o = m b o := by
  rw [storeFlat]
  split
  next ho => rw [Bytes.store64_apply_ne h, flat, Nat.mul_add_div (by omega), Nat.mul_add_mod,
    Nat.mod_eq_of_lt ho, Nat.div_eq_of_lt ho, Nat.add_zero]
  next => rfl

/-! ## Words inside a page -/

/-- A word inside the page of an addressable block is on the device. -/
theorem wordAddr_of_lt {p : UInt64} {b off : ℕ} (haddr : M.addr p = some b) (hb : b < M.blocks)
    (hoff : off + 8 ≤ M.blockSize) : M.wordAddr p off = some (M.blockSize * b + off) := by
  have hle : M.blockSize * b + M.blockSize ≤ M.blockSize * M.blocks := by
    rw [← Nat.mul_succ]
    exact Nat.mul_le_mul_left _ hb
  have hin : 0 ≤ ((M.blockSize * b : ℕ) : ℤ) + (off : ℤ) ∧
      ((M.blockSize * b : ℕ) : ℤ) + (off : ℤ) + 8 ≤ ((M.blockSize * M.blocks : ℕ) : ℤ) := by
    omega
  simp only [wordAddr, haddr]
  rw [if_pos hin, ← Nat.cast_add, Int.toNat_natCast]

theorem flat_apply {b o : ℕ} (ho : o < M.blockSize) : M.flat m (M.blockSize * b + o) = m b o := by
  rw [flat, Nat.mul_add_div (by omega), Nat.mul_add_mod, Nat.mod_eq_of_lt ho,
    Nat.div_eq_of_lt ho, Nat.add_zero]

/-- Reading a word inside a page reads it from that page. -/
theorem load64_flat {b off : ℕ} (hoff : off + 8 ≤ M.blockSize) :
    Bytes.load64 (M.flat m) (M.blockSize * b + off) = Bytes.load64 (m b) off := by
  apply Bytes.load64_congr
  intro i hi
  rw [Nat.add_assoc, flat_apply (by omega)]

/-- Writing a word inside a page changes that page only. -/
theorem storeFlat_page {b off : ℕ} (v : UInt64) (hoff : off + 8 ≤ M.blockSize) :
    M.storeFlat m (M.blockSize * b + off) v =
      Function.update m b (Bytes.store64 (m b) off v) := by
  funext c o
  rw [storeFlat]
  by_cases ho : o < M.blockSize
  · rw [if_pos ho]
    by_cases hc : c = b
    · subst hc
      rw [Function.update_self]
      by_cases hmem : off ≤ o ∧ o < off + 8
      · rw [Bytes.store64, Bytes.store64, Bytes.leStore, Bytes.leStore, if_pos (by omega),
          if_pos hmem, Nat.add_sub_add_left]
      · rw [Bytes.store64, Bytes.store64, Bytes.leStore_apply_of_not_mem (by omega),
          Bytes.leStore_apply_of_not_mem (by omega), flat_apply ho]
    · have hfar : M.blockSize * c + o < M.blockSize * b + off ∨
          M.blockSize * b + off + 8 ≤ M.blockSize * c + o := by
        rcases Nat.lt_or_gt_of_ne hc with hlt | hgt
        · have := Nat.mul_le_mul_left M.blockSize hlt
          rw [Nat.mul_succ] at this
          omega
        · have := Nat.mul_le_mul_left M.blockSize hgt
          rw [Nat.mul_succ] at this
          omega
      rw [Function.update_of_ne hc, Bytes.store64, Bytes.leStore_apply_of_not_mem hfar,
        flat_apply ho]
  · rw [if_neg ho]
    by_cases hc : c = b
    · subst hc
      rw [Function.update_self, Bytes.store64, Bytes.leStore_apply_of_not_mem (by omega)]
    · rw [Function.update_of_ne hc]

end Mapping
