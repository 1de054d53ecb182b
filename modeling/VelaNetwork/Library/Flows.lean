import VelaNetwork.Library.Runs
import Mathlib.Data.List.Perm.Basic

namespace Library.Flows

open Library.Runs

variable {σ ε α : Type*} (step : σ → ε → σ)

def collect (flow : σ → ε → List α) : σ → List ε → List α
  | _, [] => []
  | s, e :: es => flow s e ++ collect flow (step s e) es

variable {step} {flow inflow outflow : σ → ε → List α} {held : σ → List α}

@[simp] theorem collect_nil (s : σ) : collect step flow s [] = [] := rfl

@[simp] theorem collect_cons (s : σ) (e : ε) (es : List ε) :
    collect step flow s (e :: es) = flow s e ++ collect step flow (step s e) es := rfl

theorem collect_eq_nil {s : σ} {es : List ε} (h : AllSteps step (fun s e => flow s e = []) s es) :
    collect step flow s es = [] := by
  induction es generalizing s with
  | nil => rfl
  | cons e es ih => rw [collect_cons, h.1, ih h.2, List.append_nil]

theorem collect_congr {flow' : σ → ε → List α} (h : ∀ s e, flow s e = flow' s e) (s : σ) (es : List ε) :
    collect step flow s es = collect step flow' s es := by
  induction es generalizing s with
  | nil => rfl
  | cons e es ih => rw [collect_cons, collect_cons, h, ih]

theorem collect_map {β : Type*} (f : α → β) (s : σ) (es : List ε) :
    (collect step flow s es).map f = collect step (fun s e => (flow s e).map f) s es := by
  induction es generalizing s with
  | nil => rfl
  | cons e es ih => rw [collect_cons, collect_cons, List.map_append, ih]

theorem collect_queue (hstep : ∀ s e, held s ++ inflow s e = outflow s e ++ held (step s e)) (s : σ)
    (es : List ε) : held s ++ collect step inflow s es = collect step outflow s es ++ held (run step s es) := by
  induction es generalizing s with
  | nil => exact List.append_nil _
  | cons e es ih =>
    calc held s ++ (inflow s e ++ collect step inflow (step s e) es)
        = outflow s e ++ (held (step s e) ++ collect step inflow (step s e) es) := by
          rw [← List.append_assoc, hstep, List.append_assoc]
      _ = outflow s e ++ (collect step outflow (step s e) es ++ held (run step (step s e) es)) := by rw [ih]
      _ = _ := (List.append_assoc _ _ _).symm

theorem collect_bag (hstep : ∀ s e, (held s ++ inflow s e).Perm (outflow s e ++ held (step s e))) (s : σ)
    (es : List ε) :
    (held s ++ collect step inflow s es).Perm (collect step outflow s es ++ held (run step s es)) := by
  induction es generalizing s with
  | nil => rw [collect_nil, List.append_nil]; exact List.Perm.refl _
  | cons e es ih =>
    have hfirst := (hstep s e).append_right (collect step inflow (step s e) es)
    have hrest := (ih (step s e)).append_left (outflow s e)
    rw [List.append_assoc, List.append_assoc] at hfirst
    rw [collect_cons, collect_cons, List.append_assoc]
    exact hfirst.trans hrest

theorem collect_append (s : σ) (es es' : List ε) :
    collect step flow s (es ++ es') = collect step flow s es ++ collect step flow (run step s es) es' := by
  induction es generalizing s with
  | nil => rfl
  | cons e es ih => rw [List.cons_append, collect_cons, collect_cons, ih, List.append_assoc, run_cons]

theorem collect_events (g : ε → List α) (s : σ) (es : List ε) :
    collect step (fun _ e => g e) s es = es.flatMap g := by
  induction es generalizing s with
  | nil => rfl
  | cons e es ih => rw [collect_cons, List.flatMap_cons, ih]

theorem refines_run {τ δ : Type*} {step' : τ → δ → τ} {R : σ → τ → Prop} {cond : τ → δ → Prop}
    {seen : σ → ε → List δ}
    (hstep : ∀ s t e, R s t → AllSteps step' cond t (seen s e) ∧ R (step s e) (run step' t (seen s e)))
    {s : σ} {t : τ} (h : R s t) (es : List ε) :
    AllSteps step' cond t (collect step seen s es) ∧
      R (run step s es) (run step' t (collect step seen s es)) := by
  induction es generalizing s t with
  | nil => exact ⟨trivial, h⟩
  | cons e es ih =>
    obtain ⟨hallowed, hnext⟩ := hstep s t e h
    obtain ⟨hrest, hend⟩ := ih hnext
    rw [collect_cons, run_append]
    exact ⟨allSteps_append.mpr ⟨hallowed, hrest⟩, hend⟩

theorem collect_refines {τ δ : Type*} {step' : τ → δ → τ} {flow' : τ → δ → List α} {R : σ → τ → Prop}
    {seen : σ → ε → List δ} (hstep : ∀ s t e, R s t → R (step s e) (run step' t (seen s e)))
    (hflow : ∀ s t e, R s t → collect step' flow' t (seen s e) = flow s e) {s : σ} {t : τ} (h : R s t)
    (es : List ε) :
    collect step' flow' t (collect step seen s es) = collect step flow s es := by
  induction es generalizing s t with
  | nil => rfl
  | cons e es ih => rw [collect_cons, collect_append, hflow s t e h, ih (hstep s t e h), collect_cons]

end Library.Flows
