import Mathlib.Tactic

/-!
# Runs of a partial step function

A system takes steps `step op s`, where `none` is a crash. `SafeRun` says that a list of operations
goes through without a crash and that every step satisfies a two-state property; `Admits` says that
every step of it starts in a state that satisfies a condition. `SafeRun.of_invariant` and
`safeRun_iff_admits` package the induction over the run.
-/

variable {Op State : Type} (step : Op → State → Option State)

/-- The run goes through and every step satisfies `safe`. -/
def SafeRun (safe : Op → State → State → Prop) : List Op → State → Prop
  | [], _ => True
  | op :: ops, s => ∃ s', step op s = some s' ∧ safe op s s' ∧ SafeRun safe ops s'

/-- Every step of the run that is reached starts in a state satisfying `cond`. -/
def Admits (cond : Op → State → Prop) : List Op → State → Prop
  | [], _ => True
  | op :: ops, s => cond op s ∧ ∀ s', step op s = some s' → Admits cond ops s'

/-- The state a run ends in. -/
def runAll : List Op → State → Option State
  | [], s => some s
  | op :: ops, s => (step op s).bind (runAll ops)

variable {step}

/-- One step more in front. -/
theorem Admits.cons {cond : Op → State → Prop} {op : Op} {ops : List Op} {s s₁ : State}
    (hs : step op s = some s₁) (hcond : cond op s) (hrest : Admits step cond ops s₁) :
    Admits step cond (op :: ops) s := by
  refine ⟨hcond, fun s' hs' => ?_⟩
  obtain rfl := Option.some.inj (hs.symm.trans hs')
  exact hrest

theorem Admits.and {c d : Op → State → Prop} {ops : List Op} {s : State}
    (hc : Admits step c ops s) (hd : Admits step d ops s) :
    Admits step (fun op s => c op s ∧ d op s) ops s := by
  induction ops generalizing s with
  | nil => trivial
  | cons op ops ih => exact ⟨⟨hc.1, hd.1⟩, fun s' hs' => ih (hc.2 s' hs') (hd.2 s' hs')⟩

theorem Admits.of_forall {cond : Op → State → Prop} {ops : List Op} {s : State}
    (h : ∀ op ∈ ops, ∀ s, cond op s) : Admits step cond ops s := by
  induction ops generalizing s with
  | nil => trivial
  | cons op ops ih =>
      exact ⟨h op List.mem_cons_self s,
        fun _ _ => ih fun op' hop' => h op' (List.mem_cons_of_mem _ hop')⟩

theorem Admits.mono {c d : Op → State → Prop} (hcd : ∀ op s, c op s → d op s) {ops : List Op}
    {s : State} (h : Admits step c ops s) : Admits step d ops s := by
  induction ops generalizing s with
  | nil => trivial
  | cons op ops ih => exact ⟨hcd op s h.1, fun s' hs' => ih (h.2 s' hs')⟩

/-- A condition that gives the step and keeps an invariant gives the whole run. -/
theorem SafeRun.of_invariant {safe : Op → State → State → Prop} {cond : Op → State → Prop}
    (Inv : State → Prop)
    (hstep : ∀ op s, Inv s → cond op s → ∃ s', step op s = some s' ∧ safe op s s' ∧ Inv s')
    {ops : List Op} {s : State} (hinv : Inv s) (hadm : Admits step cond ops s) :
    SafeRun step safe ops s := by
  induction ops generalizing s with
  | nil => trivial
  | cons op ops ih =>
      obtain ⟨hcond, hrest⟩ := hadm
      obtain ⟨s', hs', hsafe, hinv'⟩ := hstep op s hinv hcond
      exact ⟨s', hs', hsafe, ih hinv' (hrest s' hs')⟩

/-- When the condition is exactly what makes a step safe, a run is safe exactly when every step of
it meets the condition. -/
theorem safeRun_iff_admits {safe : Op → State → State → Prop} {valid cond : Op → State → Prop}
    (Inv : State → Prop)
    (hgood : ∀ op s, Inv s → valid op s → cond op s →
      ∃ s', step op s = some s' ∧ safe op s s' ∧ Inv s')
    (hbad : ∀ op s, Inv s → valid op s → ¬cond op s →
      ∀ s', step op s = some s' → ¬safe op s s')
    {ops : List Op} {s : State} (hinv : Inv s) (hvalid : Admits step valid ops s) :
    SafeRun step safe ops s ↔ Admits step cond ops s := by
  induction ops generalizing s with
  | nil => exact ⟨fun _ => trivial, fun _ => trivial⟩
  | cons op ops ih =>
      obtain ⟨hval, hrest⟩ := hvalid
      by_cases hcond : cond op s
      · obtain ⟨s', hs', hsafe, hinv'⟩ := hgood op s hinv hval hcond
        have hih := ih hinv' (hrest s' hs')
        constructor
        · rintro ⟨s'', hs'', -, hrun⟩
          obtain rfl : s'' = s' := Option.some.inj (hs''.symm.trans hs')
          refine ⟨hcond, fun t ht => ?_⟩
          obtain rfl : s'' = t := Option.some.inj (hs'.symm.trans ht)
          exact hih.mp hrun
        · rintro ⟨-, hadm⟩
          exact ⟨s', hs', hsafe, hih.mpr (hadm s' hs')⟩
      · constructor
        · rintro ⟨s', hs', hsafe, -⟩
          exact absurd hsafe (hbad op s hinv hval hcond s' hs')
        · rintro ⟨hc, -⟩
          exact absurd hc hcond

/-- The state property that a safe run guarantees after every step holds at its end. -/
theorem SafeRun.last {P : State → Prop} {ops : List Op} {s : State} (hinit : P s)
    (hrun : SafeRun step (fun _ _ s' => P s') ops s) : ∃ s', runAll step ops s = some s' ∧ P s' := by
  induction ops generalizing s with
  | nil => exact ⟨s, rfl, hinit⟩
  | cons op ops ih =>
      obtain ⟨s₁, hs₁, hP₁, hrest⟩ := hrun
      obtain ⟨s', hs', hP'⟩ := ih hP₁ hrest
      exact ⟨s', by rw [runAll, hs₁]; exact hs', hP'⟩

/-- A safe run ends in a state. -/
theorem SafeRun.ne_none {safe : Op → State → State → Prop} {ops : List Op} {s : State}
    (hrun : SafeRun step safe ops s) : runAll step ops s ≠ none := by
  induction ops generalizing s with
  | nil => simp [runAll]
  | cons op ops ih =>
      obtain ⟨s₁, hs₁, -, hrest⟩ := hrun
      rw [runAll, hs₁]
      exact ih hrest
