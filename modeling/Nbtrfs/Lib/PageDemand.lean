import Nbtrfs.Lib.PageLog

/-!
# What a run demands of a buffer pool

`Asks M top n p m` says that the run of `p` on `m` obtains only pages below `top` and announces at most
`n` pages. A pool with `top` slots that can count `n` announcements is large enough for it. The rules
follow the program: a sequence asks for what its parts ask for, the second one after what the first
one did.
-/

namespace BlockProg

variable {α β σ : Type}

/-- The run obtains only pages below `top` and announces at most `n`. -/
structure Asks (M : Mapping) (top n : ℕ) (p : BlockProg α) (m : Image) : Prop where
  below : ∀ q, .obtained q ∈ events M p m → q.toNat < top
  count : PageEvent.announcements (events M p m) ≤ n

namespace Asks

variable {M : Mapping} {m m' : Image} {top n n' : ℕ} {p q : BlockProg α} {f : α → BlockProg β}
  {b i : UInt64} {off : ℤ}

/-- A run without events asks for nothing. -/
theorem of_events_eq_nil (h : events M p m = []) : Asks M top n p m := by
  refine ⟨fun q hq => ?_, ?_⟩
  · rw [h] at hq
    exact (List.not_mem_nil hq).elim
  · rw [h]
    exact Nat.zero_le n

theorem pure {a : α} : Asks M top n (Pure.pure a) m := of_events_eq_nil rfl

theorem crash : Asks M top n (BlockProg.crash : BlockProg α) m := of_events_eq_nil rfl

/-- A sequence asks for what its parts ask for. -/
theorem bind (hp : Asks M top n p m)
    (hf : ∀ a m', run M p m = some (a, m') → Asks M top n' (f a) m') :
    Asks M top (n' + n) (p >>= f) m := by
  have hafter : (∀ q, .obtained q ∈ eventsAfter M f (run M p m) → q.toNat < top) ∧
      PageEvent.announcements (eventsAfter M f (run M p m)) ≤ n' := by
    cases hrun : run M p m with
    | none => exact ⟨fun _ hq => (List.not_mem_nil hq).elim, Nat.zero_le n'⟩
    | some r =>
        obtain ⟨a, m'⟩ := r
        have h := hf a m' hrun
        exact ⟨h.below, h.count⟩
  constructor
  · intro q hq
    rw [events_bind] at hq
    exact (List.mem_append.mp hq).elim (hp.below q) (hafter.1 q)
  · rw [events_bind, PageEvent.announcements, List.countP_append, Nat.add_comm n']
    exact Nat.add_le_add hp.count hafter.2

/-- What is made of the result asks for nothing. -/
theorem bind_pure (hp : Asks M top n p m) (g : α → β) :
    Asks M top n (p >>= fun a => Pure.pure (g a)) m := by
  have h : Asks M top (0 + n) (p >>= fun a => Pure.pure (g a)) m := hp.bind fun _ _ _ => pure
  rwa [Nat.zero_add] at h

/-- The first part announces nothing. -/
theorem quiet_bind (hp : Asks M top 0 p m)
    (hf : ∀ a m', run M p m = some (a, m') → Asks M top n (f a) m') : Asks M top n (p >>= f) m :=
  hp.bind hf

/-- What the first part does is known. -/
theorem bind_of_run {a : α} (hp : Asks M top n p m) (hrun : run M p m = some (a, m'))
    (hf : Asks M top n' (f a) m') : Asks M top (n' + n) (p >>= f) m := by
  refine hp.bind fun a₁ m₁ hrun₁ => ?_
  obtain ⟨rfl, rfl⟩ := Prod.mk.inj (Option.some.inj (hrun.symm.trans hrun₁))
  exact hf

/-- What the first part does is known, and it announces nothing. -/
theorem quiet_bind_of_run {a : α} (hp : Asks M top 0 p m) (hrun : run M p m = some (a, m'))
    (hf : Asks M top n (f a) m') : Asks M top n (p >>= f) m :=
  hp.bind_of_run hrun hf

/-- A page within reach may be obtained. -/
theorem fetch (hb : b.toNat < top) : Asks M top n (BlockProg.fetch i b) m := by
  refine ⟨fun q hq => ?_, Nat.zero_le n⟩
  obtain rfl : q = b := by simpa using hq
  exact hb

/-- Reading a page that was obtained asks nothing of the cache. -/
theorem page : Asks M top n (BlockProg.page b) m := of_events_eq_nil (events_page b)

/-- Changing one neither. -/
theorem modify {h : Bytes → Bytes} : Asks M top n (BlockProg.modify b h) m := by
  cases haddr : M.addr b with
  | none =>
      refine of_events_eq_nil ?_
      rw [BlockProg.modify, events, haddr]
  | some c =>
      have hevents := events_modify (m := m) h haddr
      refine ⟨fun q hq => ?_, ?_⟩
      · rw [hevents] at hq
        simp at hq
      · rw [hevents]
        exact Nat.zero_le n

theorem peek : Asks M top n (BlockProg.peek b off) m := by
  refine of_events_eq_nil ?_
  rw [BlockProg.peek, events]
  cases M.wordAddr b off <;> rfl

theorem poke {v : UInt64} : Asks M top n (BlockProg.poke b off v) m := by
  rw [BlockProg.poke]
  constructor
  · intro q hq
    rw [events] at hq
    cases haddr : M.wordAddr b off with
    | none => simp [haddr] at hq
    | some a => simp [haddr, events] at hq
  · rw [events]
    cases M.wordAddr b off with
    | none => exact Nat.zero_le n
    | some a => exact Nat.zero_le n

/-- An announcement counts once. -/
theorem writeBack : Asks M top (n + 1) (BlockProg.writeBack i b) m :=
  ⟨fun q hq => by simp at hq, by simp⟩

theorem fetch_bind {f : Unit → BlockProg β} (hb : b.toNat < top) (hf : Asks M top n (f ()) m) :
    Asks M top n (BlockProg.fetch i b >>= f) m :=
  (fetch hb).quiet_bind_of_run (run_fetch i b) hf

/-- The rest of a run may depend on what the page holds. -/
theorem page_bind {f : Bytes → BlockProg β} (hf : ∀ c, M.addr b = some c → Asks M top n (f (m c)) m) :
    Asks M top n (BlockProg.page b >>= f) m := by
  refine page.quiet_bind fun pg m' hrun => ?_
  cases haddr : M.addr b with
  | none =>
      rw [run_page_of_none haddr] at hrun
      cases hrun
  | some c =>
      rw [run_page haddr] at hrun
      obtain ⟨rfl, rfl⟩ := Prod.mk.inj (Option.some.inj hrun)
      exact hf c haddr

theorem writeBack_bind {f : Unit → BlockProg β} (hf : Asks M top n (f ()) m) :
    Asks M top (n + 1) (BlockProg.writeBack i b >>= f) m := by
  have hfirst : Asks M top (0 + 1) (BlockProg.writeBack i b) m := writeBack
  exact hfirst.bind_of_run (run_writeBack i b) hf

/-- A branch asks what the taken side asks. -/
theorem ite {c : Prop} [Decidable c] (hp : c → Asks M top n p m) (hq : ¬c → Asks M top n q m) :
    Asks M top n (if c then p else q) m := by
  by_cases h : c
  · rw [if_pos h]
    exact hp h
  · rw [if_neg h]
    exact hq h

/-- A loop whose iterations announce nothing, as long as `Inv` holds before each of them. -/
theorem forUp {body : ℕ → σ → BlockProg σ} (Inv : ℕ → σ → Image → Prop) {k start : ℕ} {s : σ}
    (hinit : Inv start s m)
    (hstep : ∀ i s m, start ≤ i → i < start + k → Inv i s m → Asks M top 0 (body i s) m ∧
      ∀ s' m', run M (body i s) m = some (s', m') → Inv (i + 1) s' m') :
    Asks M top 0 (BlockProg.forUp body k start s) m := by
  induction k generalizing start s m with
  | zero => exact pure
  | succ k ih =>
      obtain ⟨hasks, hinv⟩ := hstep start s m le_rfl (by omega) hinit
      exact hasks.quiet_bind fun s' m' hrun => ih (hinv s' m' hrun) fun i s m hlo hhi =>
        hstep i s m (by omega) (by omega)

end Asks

end BlockProg
