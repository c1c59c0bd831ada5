import Mathlib.Logic.Function.Iterate

/-!
# Loops

A loop with a test in front of its turns, over any states. It has fuel for a number of tests, and no
result where that is too little. A variant that each turn lowers, with an invariant, gives its
result; where the test never holds, it has none.
-/

namespace Loop

variable {σ : Type*}

/-- Turns, up to the state at which the loop stops. -/
def exec (stop : σ → Bool) (turn : σ → σ) : ℕ → σ → Option σ
  | 0, _ => none
  | fuel + 1, s => if stop s then some s else exec stop turn fuel (turn s)

variable {stop : σ → Bool} {turn : σ → σ} {R : ℕ → σ → Prop}

theorem exec_stop {fuel : ℕ} {s : σ} (h : stop s = true) :
    exec stop turn (fuel + 1) s = some s := by
  rw [exec, if_pos h]

theorem exec_turn {fuel : ℕ} {s : σ} (h : stop s = false) :
    exec stop turn (fuel + 1) s = exec stop turn fuel (turn s) := by
  rw [exec, if_neg (by rw [h]; exact Bool.false_ne_true)]

/-- The rule for a loop that ends: `R n` holds where `n` turns are left. -/
theorem exec_total (hstop : ∀ s, R 0 s → stop s = true)
    (hturn : ∀ n s, R (n + 1) s → stop s = false ∧ R n (turn s)) :
    ∀ {n fuel : ℕ} {s : σ}, R n s → n < fuel → ∃ s', exec stop turn fuel s = some s' ∧ R 0 s'
  | 0, fuel + 1, s, h, _ => ⟨s, exec_stop (hstop s h), h⟩
  | n + 1, fuel + 1, s, h, hf => by
    obtain ⟨hgo, hnext⟩ := hturn n s h
    rw [exec_turn hgo]
    exact exec_total hstop hturn hnext (Nat.lt_of_succ_lt_succ hf)

/-- What the turns keep holds at the end. -/
theorem exec_keeps {P : σ → Prop} (hturn : ∀ s, P s → P (turn s)) :
    ∀ {fuel : ℕ} {s s' : σ}, P s → exec stop turn fuel s = some s' → P s'
  | 0, _, s', _, h => absurd h (Option.some_ne_none s').symm
  | fuel + 1, s, s', hP, h => by
    cases hs : stop s with
    | true =>
      rw [exec_stop hs] at h
      exact Option.some.inj h ▸ hP
    | false =>
      rw [exec_turn hs] at h
      exact exec_keeps hturn (hturn s hP) h

/-- A loop ends just when a state of it stops. -/
theorem ends_iff {s : σ} : (∃ fuel s', exec stop turn fuel s = some s') ↔
    ∃ n, stop (turn^[n] s) = true := by
  constructor
  · rintro ⟨fuel, s', h⟩
    induction fuel generalizing s with
    | zero => exact absurd h (Option.some_ne_none s').symm
    | succ fuel ih =>
      cases hs : stop s with
      | true => exact ⟨0, hs⟩
      | false =>
        rw [exec_turn hs] at h
        obtain ⟨n, hn⟩ := ih h
        exact ⟨n + 1, hn⟩
  · rintro ⟨n, hn⟩
    induction n generalizing s with
    | zero => exact ⟨1, s, exec_stop hn⟩
    | succ n ih =>
      cases hs : stop s with
      | true => exact ⟨1, s, exec_stop hs⟩
      | false =>
        obtain ⟨fuel, s', h⟩ := ih hn
        exact ⟨fuel + 1, s', by rw [exec_turn hs, h]⟩

end Loop
