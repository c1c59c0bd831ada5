import Mathlib.Data.List.Induction
import Mathlib.Data.Nat.Digits.Defs
import Mathlib.Data.Nat.Log

/-!
# Numerals by position

The digit of a number at a position is a remainder of a quotient. Where the highest position is not
zero, the digits of all positions are the numeral.
-/

namespace Numerals

variable {b k n : ℕ}

/-- The digits of `n` at the `k` lowest positions, the highest first. -/
def positional (b n : ℕ) : ℕ → List ℕ
  | 0 => []
  | k + 1 => n / b ^ k % b :: positional b n k

theorem positional_succ (b n : ℕ) : ∀ k,
    positional b n (k + 1) = positional b (n / b) k ++ [n % b]
  | 0 => by simp [positional]
  | k + 1 => by
    rw [positional, positional_succ b n k, positional, List.cons_append, Nat.div_div_eq_div_mul,
      ← Nat.pow_succ']

theorem toDigits_eq_positional (hb : 1 < b) : ∀ {k n : ℕ}, b ^ k ≤ n → n < b ^ (k + 1) →
    Nat.toDigits b n = (positional b n (k + 1)).map Nat.digitChar
  | 0, n, _, hlt => by
    rw [zero_add, pow_one] at hlt
    rw [Nat.toDigits_of_lt_base hlt]
    simp [positional, Nat.mod_eq_of_lt hlt]
  | k + 1, n, hle, hlt => by
    have hbn : b ≤ n := (Nat.le_self_pow (Nat.succ_ne_zero k) b).trans hle
    have hpos : 0 < b := by omega
    have ih := toDigits_eq_positional hb (k := k) (n := n / b)
      ((Nat.le_div_iff_mul_le hpos).2 (by rwa [← pow_succ]))
      ((Nat.div_lt_iff_lt_mul hpos).2 (by rwa [← pow_succ]))
    rw [Nat.toDigits_of_base_le hb hbn, ih, positional_succ b n (k + 1), List.map_append,
      List.map_singleton]

/-- A positive number has a highest position. -/
theorem exists_highest (hb : 1 < b) (hn : 0 < n) : ∃ k, b ^ k ≤ n ∧ n < b ^ (k + 1) :=
  ⟨Nat.log b n, Nat.pow_log_le_self b hn.ne', Nat.lt_pow_succ_log_self hb n⟩

/-! ## Canonical numerals -/

/-- What digits are worth, the highest first. -/
def value (b : ℕ) (l : List ℕ) : ℕ := l.foldl (fun v d => v * b + d) 0

/-- The digits of a number: none is as large as the base, and no zero stands in front but for the
number 0, which is one digit. -/
structure Canonical (b n : ℕ) (l : List ℕ) : Prop where
  lt : ∀ d ∈ l, d < b
  value : value b l = n
  zero : n = 0 → l = [0]
  head : n ≠ 0 → l.head? ≠ some 0

theorem value_snoc (b : ℕ) (l : List ℕ) (d : ℕ) : value b (l ++ [d]) = value b l * b + d := by
  rw [value, List.foldl_append]
  rfl

theorem Canonical.of_lt (h : n < b) : Canonical b n [n] := by
  refine ⟨fun d hd => ?_, ?_, fun h0 => by rw [h0], fun h0 hn => h0 (Option.some.inj hn)⟩
  · rw [List.mem_singleton.1 hd]
    exact h
  · exact (congrArg (· + n) (Nat.zero_mul b)).trans (Nat.zero_add n)

/-- The last digit behind the digits of the quotient. -/
theorem Canonical.snoc {l : List ℕ} (hb : 0 < b) (hn : b ≤ n) (h : Canonical b (n / b) l) :
    Canonical b n (l ++ [n % b]) := by
  have hq : n / b ≠ 0 := (Nat.div_pos hn hb).ne'
  constructor
  · intro d hd
    rcases List.mem_append.1 hd with hd | hd
    · exact h.lt d hd
    · rw [List.mem_singleton.1 hd]
      exact Nat.mod_lt n hb
  · rw [value_snoc, h.value]
    exact Nat.div_add_mod' n b
  · intro h0
    omega
  · intro _ hz
    cases l with
    | nil => exact hq h.value.symm
    | cons d l => exact h.head hq hz

theorem value_eq_ofDigits (b : ℕ) (l : List ℕ) : value b l = Nat.ofDigits b l.reverse := by
  induction l using List.reverseRecOn with
  | nil => rfl
  | append_singleton l d ih =>
    rw [value_snoc, ih, List.reverse_append, List.reverse_singleton, List.singleton_append,
      Nat.ofDigits_cons, Nat.mul_comm, Nat.add_comm]

/-- A number has no other digits. -/
theorem Canonical.unique {l l' : List ℕ} (hb : 1 < b) (h : Canonical b n l)
    (h' : Canonical b n l') : l = l' := by
  have hdigits {l : List ℕ} (hn : n ≠ 0) (h : Canonical b n l) : l.reverse = Nat.digits b n := by
    rw [← h.value, value_eq_ofDigits]
    refine (Nat.digits_ofDigits b hb _ (fun d hd => h.lt d (List.mem_reverse.1 hd)) ?_).symm
    intro hne hlast
    rw [List.getLast_reverse] at hlast
    exact h.head hn (hlast ▸ List.head?_eq_some_head _)
  rcases eq_or_ne n 0 with hn | hn
  · rw [h.zero hn, h'.zero hn]
  · exact List.reverse_inj.1 ((hdigits hn h).trans (hdigits hn h').symm)

end Numerals
