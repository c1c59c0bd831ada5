import Mathlib.Logic.Basic

/-!
# Runs

The runs of a transition system: the labels of the steps taken, newest first, and the state they
lead to. An invariant of the labels and the state that every start has and every step keeps holds
of every run.
-/

variable {σ α : Type*}

/-- The runs from a start in `init` along `step`. -/
inductive Run (init : σ → Prop) (step : σ → α → σ → Prop) : List α → σ → Prop
  | start {s : σ} : init s → Run init step [] s
  | snoc {t : List α} {s s' : σ} {a : α} :
    Run init step t s → step s a s' → Run init step (a :: t) s'

namespace Run

variable {init : σ → Prop} {step : σ → α → σ → Prop}

theorem invariant {P : List α → σ → Prop} (h0 : ∀ s, init s → P [] s)
    (hs : ∀ t s a s', P t s → step s a s' → P (a :: t) s') {t : List α} {s : σ}
    (hr : Run init step t s) : P t s := by
  induction hr with
  | start h => exact h0 _ h
  | snoc _ h ih => exact hs _ _ _ _ ih h

/-- A run whose steps are all steps of another system is a run of it. -/
theorem mono {step' : σ → α → σ → Prop} (h : ∀ s a s', step s a s' → step' s a s')
    {t : List α} {s : σ} (hr : Run init step t s) : Run init step' t s := by
  induction hr with
  | start h0 => exact .start h0
  | snoc _ hs ih => exact .snoc ih (h _ _ _ hs)

/-- A run from fewer starts. -/
theorem mono_start {init' : σ → Prop} (h : ∀ s, init s → init' s) {t : List α} {s : σ}
    (hr : Run init step t s) : Run init' step t s := by
  induction hr with
  | start h0 => exact .start (h _ h0)
  | snoc _ hs ih => exact .snoc ih hs

/-- A run is one up to a state and one from there on. -/
theorem split : ∀ {t' t : List α} {s : σ}, Run init step (t' ++ t) s →
    ∃ s₁, Run init step t s₁ ∧ Run (· = s₁) step t' s
  | [], _, s, hr => ⟨s, hr, .start rfl⟩
  | a :: t', t, s, hr => by
    cases hr with
    | snoc hr hs =>
      obtain ⟨s₁, hr₁, hr₂⟩ := hr.split
      exact ⟨s₁, hr₁, .snoc hr₂ hs⟩

theorem append {t t' : List α} {s₁ s : σ} (hr : Run init step t s₁)
    (hr' : Run (· = s₁) step t' s) : Run init step (t' ++ t) s := by
  induction hr' with
  | start h =>
    subst h
    exact hr
  | snoc _ hs ih => exact .snoc ih hs

/-- The steps of a list, oldest first, taken one after the other. -/
def exec (f : σ → α → Option σ) : σ → List α → Option σ
  | s, [] => some s
  | s, a :: l => (f s a).bind fun s' => exec f s' l

/-- Steps that can be computed make a run. -/
theorem of_exec {f : σ → α → Option σ} {s' : σ} : ∀ {l t : List α} {s : σ},
    Run init (fun s a s' => f s a = some s') t s → exec f s l = some s' →
      Run init (fun s a s' => f s a = some s') (l.reverse ++ t) s'
  | [], _, _, hr, h => by
    obtain rfl := Option.some.inj h
    exact hr
  | a :: l, t, s, hr, h => by
    obtain ⟨s₁, h1, h2⟩ := Option.bind_eq_some_iff.1 h
    simpa using of_exec (.snoc hr h1) h2

end Run
