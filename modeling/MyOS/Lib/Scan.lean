import Mathlib.Data.Nat.Basic
import Mathlib.Data.Option.Basic

/-!
# Scans

A loop over numbers in a row that ends at the first one where something is decided. Nested loops,
over blocks and over the places of a block, decide what one loop over all places does.
-/

namespace Scan

variable {α : Type*} {f g : ℕ → Option α} {i k l : ℕ} {x : α}

/-- What `f` decides at the first of the `l` numbers from `i` on where it does. -/
def first (f : ℕ → Option α) (i l : ℕ) : Option α := (List.range' i l).findSome? f

@[simp] theorem first_zero (f : ℕ → Option α) (i : ℕ) : first f i 0 = none := rfl

theorem first_succ (f : ℕ → Option α) (i l : ℕ) :
    first f i (l + 1) = (f i).or (first f (i + 1) l) := by
  unfold first
  rw [List.range'_succ, List.findSome?_cons]
  cases f i <;> rfl

theorem first_add (f : ℕ → Option α) (l' : ℕ) : ∀ i l : ℕ,
    first f i (l + l') = (first f i l).or (first f (i + l) l')
  | i, 0 => by simp
  | i, l + 1 => by
    rw [Nat.add_right_comm, first_succ, first_succ, first_add f l' (i + 1) l, Option.or_assoc,
      Nat.add_right_comm i 1 l, Nat.add_assoc i l 1]

section Nested

variable {γ : Type*} (loop : List ℕ → ℕ → γ) (out : Option α → γ) (n : ℕ)
  (hnil : ∀ m, loop [] m = out none)
  (hcons : ∀ i l, loop (i :: l) (n * i) =
    match first f (n * i) n with
    | some x => out (some x)
    | none => loop l (n * (i + 1)))

include hnil hcons in
theorem nested_from : ∀ l i : ℕ, loop (List.range' i l) (n * i) = out (first f (n * i) (n * l))
  | 0, i => by
    rw [Nat.mul_zero, first_zero]
    exact hnil _
  | l + 1, i => by
    rw [List.range'_succ, hcons, Nat.mul_add n l, Nat.mul_one, Nat.add_comm (n * l), first_add]
    cases first f (n * i) n with
    | some x => rfl
    | none => rw [Option.none_or, nested_from l (i + 1), Nat.mul_add, Nat.mul_one]

include hnil hcons in
/-- A loop over blocks of `n` numbers that ends where something is decided within one: it has in
hand the first number of the block, and `out` says what it returns. -/
theorem nested (l : ℕ) : loop (List.range l) 0 = out (first f 0 (n * l)) := by
  have h := nested_from loop out n hnil hcons l 0
  rwa [Nat.mul_zero, ← List.range_eq_range'] at h

end Nested

theorem first_eq_some : first f i l = some x ↔
    ∃ k, i ≤ k ∧ k < i + l ∧ f k = some x ∧ ∀ j, i ≤ j → j < k → f j = none := by
  induction l generalizing i with
  | zero =>
    simp only [first_zero, reduceCtorEq, false_iff, not_exists]
    intro k hk
    omega
  | succ l ih =>
    rw [first_succ]
    cases hi : f i with
    | some y =>
      rw [Option.some_or]
      constructor
      · intro h
        exact ⟨i, le_rfl, by omega, hi.trans h, fun j hj hlt => absurd hj (by omega)⟩
      · rintro ⟨k, hk, -, hx, hbefore⟩
        rcases Nat.lt_or_eq_of_le hk with hlt | rfl
        · simp [hbefore i le_rfl hlt] at hi
        · rw [← hi, hx]
    | none =>
      rw [Option.none_or, ih]
      constructor
      · rintro ⟨k, hk, hlt, hx, hbefore⟩
        refine ⟨k, by omega, by omega, hx, fun j hj hjk => ?_⟩
        rcases Nat.lt_or_eq_of_le hj with hij | rfl
        · exact hbefore j hij hjk
        · exact hi
      · rintro ⟨k, hk, hlt, hx, hbefore⟩
        rcases Nat.lt_or_eq_of_le hk with hik | rfl
        · exact ⟨k, hik, by omega, hx, fun j hj hjk => hbefore j (by omega) hjk⟩
        · simp [hx] at hi

theorem first_eq_none : first f i l = none ↔ ∀ k, i ≤ k → k < i + l → f k = none := by
  rw [first, List.findSome?_eq_none_iff]
  simp [List.mem_range'_1]

end Scan
