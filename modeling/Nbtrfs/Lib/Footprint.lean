import Nbtrfs.Lib.BlockProg

/-!
# The blocks a program looks at

`Within M K p m` says that a run of `p` on `m` touches blocks of `K` only. `Blind M S p` says that `p`
changes nothing and cannot tell pages apart that `S` relates: on an image whose pages in `K` are
related to those of `m` it returns what it returns on `m`. Both go through sequences, so a lookup is
blind as soon as its primitive reads are.
-/

namespace BlockProg

variable {α β : Type} {M : Mapping} {K : ℕ → Prop} {m m' : Image} {S : Bytes → Bytes → Prop}

/-- Every block that a run of the program touches is in `K`. -/
def Within (M : Mapping) (K : ℕ → Prop) : BlockProg α → Image → Prop
  | done _, _ => True
  | crash, _ => True
  | getBlock _ _ k, m => Within M K k m
  | load p k, m => ∀ b, M.addr p = some b → K b ∧ Within M K (k (m b)) m
  | store p f k, m =>
      ∀ b, M.addr p = some b → K b ∧ Within M K k (Function.update m b (f (m b)))
  | loadWord p off k, m => ∀ a, M.wordAddr p off = some a →
      (∀ i < 8, K ((a + i) / M.blockSize)) ∧ Within M K (k (Bytes.load64 (M.flat m) a)) m
  | storeWord p off v k, m => ∀ a, M.wordAddr p off = some a →
      (∀ i < 8, K ((a + i) / M.blockSize)) ∧ Within M K k (M.storeFlat m a v)
  | writeBlock _ _ k, m => Within M K k m

/-- Every program stays within all blocks. -/
theorem within_all (h : ∀ b, K b) (p : BlockProg α) : Within M K p m := by
  induction p generalizing m with
  | done a => trivial
  | crash => trivial
  | getBlock i p k ih => exact ih
  | load p k ih => exact fun b _ => ⟨h b, ih (m b)⟩
  | store p f k ih => exact fun b _ => ⟨h b, ih⟩
  | loadWord p off k ih => exact fun a _ => ⟨fun _ _ => h _, ih _⟩
  | storeWord p off v k ih => exact fun a _ => ⟨fun _ _ => h _, ih⟩
  | writeBlock i p k ih => exact ih

/-- Every program stays within the blocks of the device. -/
theorem within_device (haddr : ∀ p b, M.addr p = some b → b < M.blocks) (h : ∀ b < M.blocks, K b)
    (p : BlockProg α) : Within M K p m := by
  have hword : ∀ p off a, M.wordAddr p off = some a → ∀ i < 8, K ((a + i) / M.blockSize) := by
    intro p off a ha i hi
    refine h _ (Nat.div_lt_of_lt_mul ?_)
    have hlt := Mapping.lt_of_wordAddr ha
    omega
  induction p generalizing m with
  | done a => trivial
  | crash => trivial
  | getBlock i p k ih => exact ih
  | load p k ih => exact fun b hb => ⟨h b (haddr p b hb), ih (m b)⟩
  | store p f k ih => exact fun b hb => ⟨h b (haddr p b hb), ih⟩
  | loadWord p off k ih => exact fun a ha => ⟨hword p off a ha, ih _⟩
  | storeWord p off v k ih => exact fun a ha => ⟨hword p off a ha, ih⟩
  | writeBlock i p k ih => exact ih

theorem within_mono {K' : ℕ → Prop} (h : ∀ b, K b → K' b) {p : BlockProg α}
    (hin : Within M K p m) : Within M K' p m := by
  induction p generalizing m with
  | done a => trivial
  | crash => trivial
  | getBlock i p k ih => exact ih hin
  | load p k ih => exact fun b hb => ⟨h b (hin b hb).1, ih (m b) (hin b hb).2⟩
  | store p f k ih => exact fun b hb => ⟨h b (hin b hb).1, ih (hin b hb).2⟩
  | loadWord p off k ih => exact fun a ha => ⟨fun i hi => h _ ((hin a ha).1 i hi), ih _ (hin a ha).2⟩
  | storeWord p off v k ih => exact fun a ha => ⟨fun i hi => h _ ((hin a ha).1 i hi), ih (hin a ha).2⟩
  | writeBlock i p k ih => exact ih hin

attribute [local simp] andThen run in
/-- A sequence stays within the blocks that both parts stay within. -/
theorem within_bind {p : BlockProg α} {f : α → BlockProg β} : Within M K (p >>= f) m ↔
    Within M K p m ∧ ∀ a m₁, run M p m = some (a, m₁) → Within M K (f a) m₁ := by
  show Within M K (andThen p f) m ↔ _
  induction p generalizing m with
  | done a =>
      refine ⟨fun h => ⟨trivial, fun b m₁ hrun => ?_⟩, fun h => h.2 a m rfl⟩
      obtain ⟨rfl, rfl⟩ := Prod.mk.inj (Option.some.inj hrun)
      exact h
  | crash =>
      refine ⟨fun _ => ⟨trivial, fun a m₁ hrun => ?_⟩, fun _ => trivial⟩
      cases hrun
  | getBlock i p k ih => exact ih
  | writeBlock i p k ih => exact ih
  | load p k ih =>
      cases haddr : M.addr p with
      | none => simp [Within, haddr]
      | some b => simp [Within, haddr, ih, and_assoc]
  | store p g k ih =>
      cases haddr : M.addr p with
      | none => simp [Within, haddr]
      | some b => simp [Within, haddr, ih, and_assoc]
  | loadWord p off k ih =>
      cases haddr : M.wordAddr p off with
      | none => simp [Within, haddr]
      | some a => simp [Within, haddr, ih, and_assoc]
  | storeWord p off v k ih =>
      cases haddr : M.wordAddr p off with
      | none => simp [Within, haddr]
      | some a => simp [Within, haddr, ih, and_assoc]

/-- The program touches blocks of `K` only and changes nothing, and `Q` holds of what it returns. -/
def Looks (M : Mapping) (K : ℕ → Prop) (m : Image) (Q : α → Prop) (p : BlockProg α) : Prop :=
  Within M K p m ∧ ∀ a m', run M p m = some (a, m') → m' = m ∧ Q a

namespace Looks

variable {Q : α → Prop} {R : β → Prop}

theorem pure {a : α} (h : Q a) : Looks M K m Q (Pure.pure a) := by
  refine ⟨trivial, fun a' m' hrun => ?_⟩
  obtain ⟨rfl, rfl⟩ := Prod.mk.inj (Option.some.inj hrun)
  exact ⟨rfl, h⟩

theorem crash : Looks M K m Q BlockProg.crash :=
  ⟨trivial, fun _ _ hrun => by cases hrun⟩

theorem bind {p : BlockProg α} {f : α → BlockProg β} (hp : Looks M K m Q p)
    (hf : ∀ a, Q a → Looks M K m R (f a)) : Looks M K m R (p >>= f) := by
  refine ⟨within_bind.mpr ⟨hp.1, fun a m₁ hrun => ?_⟩, fun b m' hrun => ?_⟩
  · obtain ⟨rfl, hQ⟩ := hp.2 a m₁ hrun
    exact (hf a hQ).1
  · obtain ⟨a, m₁, hrun₁, hrun₂⟩ := run_bind_eq_some.mp hrun
    obtain ⟨rfl, hQ⟩ := hp.2 a m₁ hrun₁
    exact (hf a hQ).2 b m' hrun₂

theorem fetch_bind {i p : UInt64} {f : Unit → BlockProg β} (hf : Looks M K m R (f ())) :
    Looks M K m R (fetch i p >>= f) := hf

theorem page_bind {p : UInt64} {f : Bytes → BlockProg β}
    (h : ∀ b, M.addr p = some b → K b ∧ Looks M K m R (f (m b))) :
    Looks M K m R (page p >>= f) := by
  refine ⟨fun b haddr => ⟨(h b haddr).1, (h b haddr).2.1⟩, fun a m' hrun => ?_⟩
  cases haddr : M.addr p with
  | none =>
      rw [run_bind_of_none (run_page_of_none haddr)] at hrun
      cases hrun
  | some b =>
      rw [run_bind_of_eq (run_page haddr)] at hrun
      exact (h b haddr).2.2 a m' hrun

theorem ite {c : Prop} [Decidable c] {p q : BlockProg α} (hp : c → Looks M K m Q p)
    (hq : ¬c → Looks M K m Q q) : Looks M K m Q (if c then p else q) := by
  by_cases h : c
  · rw [if_pos h]
    exact hp h
  · rw [if_neg h]
    exact hq h

end Looks

/-- The program changes nothing and does not tell related pages apart. -/
def Blind (M : Mapping) (S : Bytes → Bytes → Prop) (p : BlockProg α) : Prop :=
  ∀ (K : ℕ → Prop) (m m' : Image), (∀ b, K b → S (m b) (m' b)) → Within M K p m →
    run M p m' = (run M p m).map fun r => (r.1, m')

namespace Blind

theorem pure (a : α) : Blind M S (Pure.pure a) := fun _ _ _ _ _ => rfl

theorem crash : Blind M S (BlockProg.crash : BlockProg α) := fun _ _ _ _ _ => rfl

/-- A blind program leaves the image as it is. -/
theorem image_eq {p : BlockProg α} (h : Blind M S p) (hrefl : ∀ pg, S pg pg) {a : α}
    (hrun : run M p m = some (a, m')) : m' = m := by
  have hsame := h (fun _ => True) m m (fun b _ => hrefl (m b)) (within_all (fun _ => trivial) p)
  rw [hrun] at hsame
  exact (Prod.mk.inj (Option.some.inj hsame)).2

/-- The result on a related image. -/
theorem run_eq {p : BlockProg α} (h : Blind M S p) (hrel : ∀ b, K b → S (m b) (m' b))
    (hin : Within M K p m) {a : α} {m₁ : Image} (hrun : run M p m = some (a, m₁)) :
    run M p m' = some (a, m') := by
  rw [h K m m' hrel hin, hrun]
  rfl

theorem bind {p : BlockProg α} {f : α → BlockProg β} (hrefl : ∀ pg, S pg pg) (hp : Blind M S p)
    (hf : ∀ a, Blind M S (f a)) : Blind M S (p >>= f) := by
  intro K m m' hrel hin
  obtain ⟨hinp, hinf⟩ := within_bind.mp hin
  rw [run_bind, run_bind, hp K m m' hrel hinp]
  cases hrun : run M p m with
  | none => rfl
  | some r =>
      obtain ⟨a, m₁⟩ := r
      obtain rfl := hp.image_eq hrefl hrun
      exact hf a K m₁ m' hrel (hinf a m₁ hrun)

theorem fetch_bind {i p : UInt64} {f : Unit → BlockProg β} (hf : Blind M S (f ())) :
    Blind M S (fetch i p >>= f) := fun K m m' hrel hin => hf K m m' hrel hin

/-- Reading a page is blind if what is done with it does not tell related pages apart. -/
theorem page_bind {p : UInt64} {f : Bytes → BlockProg β} (hf : ∀ pg, Blind M S (f pg))
    (hsame : ∀ pg pg', S pg pg' → f pg' = f pg) : Blind M S (page p >>= f) := by
  intro K m m' hrel hin
  cases haddr : M.addr p with
  | none => rw [run_bind_of_none (run_page_of_none haddr), run_bind_of_none (run_page_of_none haddr)]
            rfl
  | some b =>
      obtain ⟨hb, hinf⟩ : K b ∧ Within M K (f (m b)) m := hin b haddr
      rw [run_bind_of_eq (run_page haddr), run_bind_of_eq (run_page haddr), hsame _ _ (hrel b hb)]
      exact hf (m b) K m m' hrel hinf

theorem ite {c : Prop} [Decidable c] {p q : BlockProg α} (hp : Blind M S p) (hq : Blind M S q) :
    Blind M S (if c then p else q) := by
  by_cases h : c
  · rwa [if_pos h]
  · rwa [if_neg h]

end Blind

end BlockProg
