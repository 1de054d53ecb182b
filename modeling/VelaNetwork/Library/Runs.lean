import Mathlib.Data.List.Infix

namespace Library.Runs

variable {σ ε : Type*} (step : σ → ε → σ)

def run (s : σ) (es : List ε) : σ := es.foldl step s

def AllSteps (cond : σ → ε → Prop) : σ → List ε → Prop
  | _, [] => True
  | s, e :: es => cond s e ∧ AllSteps cond (step s e) es

def AllStates (p : σ → Prop) (s : σ) (es : List ε) : Prop :=
  ∀ es', es' <+: es → p (run step s es')

@[simp] theorem run_nil (s : σ) : run step s [] = s := rfl

@[simp] theorem run_cons (s : σ) (e : ε) (es : List ε) : run step s (e :: es) = run step (step s e) es := rfl

theorem run_append (s : σ) (es es' : List ε) : run step s (es ++ es') = run step (run step s es) es' :=
  List.foldl_append

variable {step}

@[simp] theorem allSteps_nil (cond : σ → ε → Prop) (s : σ) : AllSteps step cond s [] := trivial

@[simp] theorem allSteps_cons (cond : σ → ε → Prop) (s : σ) (e : ε) (es : List ε) :
    AllSteps step cond s (e :: es) ↔ cond s e ∧ AllSteps step cond (step s e) es := Iff.rfl

theorem allSteps_and {cond cond' : σ → ε → Prop} {s : σ} {es : List ε} :
    AllSteps step (fun s e => cond s e ∧ cond' s e) s es ↔
      AllSteps step cond s es ∧ AllSteps step cond' s es := by
  induction es generalizing s with
  | nil => simp
  | cons e es ih => simp only [allSteps_cons, ih]; tauto

theorem allSteps_append {cond : σ → ε → Prop} {s : σ} {es es' : List ε} :
    AllSteps step cond s (es ++ es') ↔ AllSteps step cond s es ∧ AllSteps step cond (run step s es) es' := by
  induction es generalizing s with
  | nil => simp
  | cons e es ih => simp only [List.cons_append, allSteps_cons, ih, run_cons, and_assoc]

theorem allSteps_congr {cond cond' : σ → ε → Prop} (h : ∀ s e, cond s e ↔ cond' s e) {s : σ} {es : List ε} :
    AllSteps step cond s es ↔ AllSteps step cond' s es := by
  induction es generalizing s with
  | nil => exact Iff.rfl
  | cons e es ih => exact and_congr (h s e) ih

theorem allSteps_of_forall {p : ε → Prop} {s : σ} {es : List ε} (h : ∀ e ∈ es, p e) :
    AllSteps step (fun _ e => p e) s es := by
  induction es generalizing s with
  | nil => trivial
  | cons e es ih => exact ⟨h e (by simp), ih (fun e he => h e (by simp [he]))⟩

theorem allStates_cons (p : σ → Prop) (s : σ) (e : ε) (es : List ε) :
    AllStates step p s (e :: es) ↔ p s ∧ AllStates step p (step s e) es := by
  constructor
  · intro h
    refine ⟨h [] (List.nil_prefix), fun es' hes => ?_⟩
    exact h (e :: es') ((List.prefix_cons_inj e).mpr hes)
  · rintro ⟨hs, h⟩ es' hes
    cases es' with
    | nil => exact hs
    | cons e' es' =>
      obtain ⟨rfl, hes'⟩ := List.cons_prefix_cons.mp hes
      exact h es' hes'

@[simp] theorem allStates_nil (p : σ → Prop) (s : σ) : AllStates step p s [] ↔ p s := by
  simp [AllStates]

instance {cond : σ → ε → Prop} [∀ s e, Decidable (cond s e)] (s : σ) (es : List ε) :
    Decidable (AllSteps step cond s es) :=
  decideAllSteps s es
where
  decideAllSteps : (s : σ) → (es : List ε) → Decidable (AllSteps step cond s es)
    | _, [] => inferInstanceAs (Decidable True)
    | s, e :: es =>
      have := decideAllSteps (step s e) es
      inferInstanceAs (Decidable (cond s e ∧ AllSteps step cond (step s e) es))

theorem allStates_map {τ : Type*} {step' : τ → ε → τ} {f : τ → σ} (hf : ∀ t e, f (step' t e) = step (f t) e)
    (p : σ → Prop) (t : τ) (es : List ε) :
    AllStates step' (fun t => p (f t)) t es ↔ AllStates step p (f t) es := by
  induction es generalizing t with
  | nil => simp
  | cons e es ih => rw [allStates_cons, allStates_cons, ih, hf]

instance {p : σ → Prop} [DecidablePred p] (s : σ) (es : List ε) : Decidable (AllStates step p s es) :=
  decideAllStates s es
where
  decideAllStates : (s : σ) → (es : List ε) → Decidable (AllStates step p s es)
    | s, [] => decidable_of_iff (p s) (allStates_nil p s).symm
    | s, e :: es =>
      have := decideAllStates (step s e) es
      decidable_of_iff (p s ∧ AllStates step p (step s e) es) (allStates_cons p s e es).symm

theorem AllStates.first {p : σ → Prop} {s : σ} {es : List ε} (h : AllStates step p s es) : p s :=
  h [] List.nil_prefix

theorem AllStates.last {p : σ → Prop} {s : σ} {es : List ε} (h : AllStates step p s es) : p (run step s es) :=
  h es (List.prefix_refl es)

theorem AllStates.mono {p q : σ → Prop} (hpq : ∀ s, p s → q s) {s : σ} {es : List ε}
    (h : AllStates step p s es) : AllStates step q s es := fun es' hes => hpq _ (h es' hes)

theorem invariant {inv : σ → Prop} {cond : σ → ε → Prop} (hstep : ∀ s e, inv s → cond s e → inv (step s e))
    {s : σ} {es : List ε} (hs : inv s) (hes : AllSteps step cond s es) : AllStates step inv s es := by
  induction es generalizing s with
  | nil => simpa using hs
  | cons e es ih => exact (allStates_cons inv s e es).mpr ⟨hs, ih (hstep s e hs hes.1) hes.2⟩

theorem allStates_congr {inv p q : σ → Prop} (hstep : ∀ s e, inv s → inv (step s e))
    (hiff : ∀ s, inv s → (p s ↔ q s)) {s : σ} {es : List ε} (hs : inv s) :
    AllStates step p s es ↔ AllStates step q s es := by
  induction es generalizing s with
  | nil => simpa using hiff s hs
  | cons e es ih =>
    rw [allStates_cons, allStates_cons]
    exact and_congr (hiff s hs) (ih (hstep s e hs))

theorem allSteps_of_invariant {inv : σ → Prop} {cond cond' : σ → ε → Prop}
    (hstep : ∀ s e, inv s → cond s e → inv (step s e)) (hcond : ∀ s e, inv s → cond s e → cond' s e)
    {s : σ} {es : List ε} (hs : inv s) (hes : AllSteps step cond s es) : AllSteps step cond' s es := by
  induction es generalizing s with
  | nil => trivial
  | cons e es ih => exact ⟨hcond s e hs hes.1, ih (hstep s e hs hes.1) hes.2⟩

theorem allSteps_mono {cond cond' : σ → ε → Prop} (hcond : ∀ s e, cond s e → cond' s e) {s : σ} {es : List ε}
    (hes : AllSteps step cond s es) : AllSteps step cond' s es := by
  induction es generalizing s with
  | nil => trivial
  | cons e es ih => exact ⟨hcond s e hes.1, ih hes.2⟩

theorem allSteps_of_allStates {inv p : σ → Prop} {allowed cond : σ → ε → Prop}
    (hinv : ∀ s e, inv s → allowed s e → inv (step s e))
    (hcond : ∀ s e, inv s → allowed s e → p s → p (step s e) → cond s e)
    {s : σ} {es : List ε} (hs : inv s) (hes : AllSteps step allowed s es) (hp : AllStates step p s es) :
    AllSteps step cond s es := by
  induction es generalizing s with
  | nil => trivial
  | cons e es ih =>
    obtain ⟨hfirst, hrest⟩ := (allStates_cons p s e es).mp hp
    exact ⟨hcond s e hs hes.1 hfirst hrest.first, ih (hinv s e hs hes.1) hes.2 hrest⟩

theorem AllStates.allSteps {p : σ → Prop} {cond : σ → ε → Prop} (hcond : ∀ s e, p s → cond s e) {s : σ}
    {es : List ε} (h : AllStates step p s es) : AllSteps step cond s es := by
  have hanything : AllSteps step (fun _ _ => True) s es := allSteps_of_forall fun _ _ => trivial
  exact allSteps_of_allStates (fun _ _ _ _ => trivial)
    (fun s e (_ : True) _ hp _ => hcond s e hp) trivial hanything h

/-- When a step keeps `p` exactly if its condition is met, `p` holds all along a run exactly if all the
conditions are. The invariant `inv` may be used on both sides. -/
theorem allStates_iff_allSteps {inv p : σ → Prop} {allowed cond : σ → ε → Prop}
    (hinv : ∀ s e, inv s → allowed s e → inv (step s e))
    (hiff : ∀ s e, inv s → allowed s e → p s → (p (step s e) ↔ cond s e))
    {s : σ} {es : List ε} (hs : inv s) (hp : p s) (hes : AllSteps step allowed s es) :
    AllStates step p s es ↔ AllSteps step cond s es := by
  constructor
  · exact allSteps_of_allStates hinv (fun s e hs he hp => (hiff s e hs he hp).mp) hs hes
  · intro h
    have hboth : AllSteps step (fun s e => allowed s e ∧ cond s e) s es := allSteps_and.mpr ⟨hes, h⟩
    have hkeep : ∀ s e, inv s ∧ p s → allowed s e ∧ cond s e → inv (step s e) ∧ p (step s e) := by
      rintro s e ⟨hs, hp⟩ ⟨he, hc⟩
      exact ⟨hinv s e hs he, (hiff s e hs he hp).mpr hc⟩
    have hrun : AllStates step (fun s => inv s ∧ p s) s es := invariant hkeep ⟨hs, hp⟩ hboth
    exact hrun.mono fun _ h => h.2

theorem allStates_iff_of_step {p : σ → Prop} {cond : σ → ε → Prop}
    (hiff : ∀ s e, p s → (p (step s e) ↔ cond s e)) {s : σ} {es : List ε} (hp : p s) :
    AllStates step p s es ↔ AllSteps step cond s es := by
  have hanything : AllSteps step (fun _ _ => True) s es := allSteps_of_forall fun _ _ => trivial
  exact allStates_iff_allSteps (fun _ _ _ _ => trivial)
    (fun s e (_ : True) _ hp => hiff s e hp) trivial hp hanything

theorem allStates_iff_of_matched {τ : Type*} {step' : τ → ε → τ} {R : σ → τ → Prop} {p : σ → Prop}
    {q : τ → Prop} {cond : ε → Prop} (hmatch : ∀ s t, R s t → p s ∧ q t)
    (hstep : ∀ s t e, R s t → cond e → R (step s e) (step' t e) ∨ ¬ p (step s e) ∧ ¬ q (step' t e)) {s : σ}
    {t : τ} {es : List ε} (hst : R s t) (hes : ∀ e ∈ es, cond e) :
    AllStates step p s es ↔ AllStates step' q t es := by
  induction es generalizing s t with
  | nil => simpa using iff_of_true (hmatch s t hst).1 (hmatch s t hst).2
  | cons e es ih =>
    rw [allStates_cons, allStates_cons]
    apply and_congr (iff_of_true (hmatch s t hst).1 (hmatch s t hst).2)
    rcases hstep s t e hst (hes e List.mem_cons_self) with hnext | ⟨hp, hq⟩
    · exact ih hnext fun e he => hes e (List.mem_cons_of_mem _ he)
    · exact iff_of_false (fun h => hp h.first) (fun h => hq h.first)

end Library.Runs
