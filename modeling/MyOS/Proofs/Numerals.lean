import MyOS.Vsprintf
import MyOS.Lib.Numerals

/-!
# Numbers that are printed

`i2a` goes down the quotients and writes the remainders on its way back, which makes the numeral of
a number that is not negative. A remainder of a negative number is not positive, so its digits come
out below `'0'`: `%x` is right for the lower half of the words, and `%d`, which turns the number
round first, for all but the lowest. `itoa` goes over the positions, and is right for all words.
-/

namespace MyOS

open Memory

/-! ## Numerals -/

/-- The numeral in a base up to sixteen, with upper-case letters. -/
def numeral (b n : ℕ) : List Byte := (Nat.toDigits b n).map fun c => ascii c.toUpper

/-- The decimal numeral with its sign. -/
def signed (v : ℤ) : List Byte := if v < 0 then ascii '-' :: numeral 10 v.natAbs
  else numeral 10 v.natAbs

variable {val base : BitVec 32} {ps : List Byte}

/-- The digit `i2a` writes is that of a numeral. -/
theorem i2aDigit_eq : ∀ d < 16, i2aDigit (BitVec.ofNat 32 d) = ascii (Nat.digitChar d).toUpper := by
  decide

theorem numeral_of_lt {b n : ℕ} (h : n < b) : numeral b n = [ascii (Nat.digitChar n).toUpper] := by
  rw [numeral, Nat.toDigits_of_lt_base h]
  rfl

theorem numeral_of_le {b n : ℕ} (hb : 1 < b) (h : b ≤ n) :
    numeral b n = numeral b (n / b) ++ [ascii (Nat.digitChar (n % b)).toUpper] := by
  rw [numeral, Nat.toDigits_of_base_le hb h, List.map_append]
  rfl

theorem numeral_mem {b n : ℕ} (hb : 1 < b) (hb' : b ≤ 16) :
    ∀ c ∈ numeral b n, ∃ d < 16, c = ascii (Nat.digitChar d).toUpper := by
  induction n using Nat.strong_induction_on with
  | _ n ih =>
    rcases lt_or_ge n b with h | h
    · rw [numeral_of_lt h]
      simp only [List.mem_singleton, forall_eq]
      exact ⟨n, by omega, rfl⟩
    · rw [numeral_of_le hb h]
      intro c hc
      rcases List.mem_append.1 hc with hc | hc
      · exact ih _ (Nat.div_lt_self (by omega) hb) c hc
      · have := Nat.mod_lt n (show b > 0 by omega)
        exact ⟨n % b, by omega, List.mem_singleton.1 hc⟩

/-! ## The recursion of i2a -/

theorem toInt_ofNat_small {k : ℕ} (hk : k < 2 ^ 31) : (BitVec.ofNat 32 k).toInt = k := by
  rw [BitVec.toInt_ofNat', Int.bmod_eq_of_le (by omega) (by omega)]

/-- Words that are not negative are divided as natural numbers. -/
theorem ofNat_divMod {k b : ℕ} (hk : k < 2 ^ 31) (hb31 : b < 2 ^ 31) :
    (BitVec.ofNat 32 k).sdiv (BitVec.ofNat 32 b) = BitVec.ofNat 32 (k / b) ∧
      (BitVec.ofNat 32 k).srem (BitVec.ofNat 32 b) = BitVec.ofNat 32 (k % b) := by
  have hdiv : k / b < 2 ^ 31 := (Nat.div_le_self k b).trans_lt hk
  have hmod : k % b < 2 ^ 31 := (Nat.mod_le k b).trans_lt hk
  constructor
  · refine BitVec.eq_of_toInt_eq ?_
    rw [BitVec.toInt_sdiv, toInt_ofNat_small hk, toInt_ofNat_small hb31, toInt_ofNat_small hdiv,
      ← Int.ofNat_tdiv]
    generalize k / b = q at hdiv
    exact Int.bmod_eq_of_le (by omega) (by omega)
  · refine BitVec.eq_of_toInt_eq ?_
    rw [BitVec.toInt_srem, toInt_ofNat_small hk, toInt_ofNat_small hb31, toInt_ofNat_small hmod,
      ← Int.ofNat_tmod]

theorem i2aLoop_eq {b : ℕ} (hb : 1 < b) (hb' : b ≤ 16) : ∀ {n k : ℕ}, k < 2 ^ (n + 1) →
    k < 2 ^ 31 → i2aLoop (n + 1) (BitVec.ofNat 32 k) (BitVec.ofNat 32 b) ps =
      .ok (ps ++ numeral b k)
  | n, k, hn, hk => by
    obtain ⟨hdiv, hmod⟩ := ofNat_divMod hk (show b < 2 ^ 31 by omega)
    have hd : k % b < 16 := (Nat.mod_lt k (by omega)).trans_le hb'
    have hzero : BitVec.ofNat 32 (k / b) = 0 ↔ k < b := by
      have hlt : k / b < 2 ^ 32 := (Nat.div_le_self k b).trans_lt (by omega)
      rw [← BitVec.toNat_inj, BitVec.toNat_ofNat, Nat.mod_eq_of_lt hlt]
      exact Nat.div_eq_zero_iff_lt (by omega)
    rw [i2aLoop, hdiv, hmod, i2aDigit_eq _ hd]
    by_cases hkb : k < b
    · rw [if_neg (not_not.2 (hzero.2 hkb)), ok_bind, numeral_of_lt hkb, Nat.mod_eq_of_lt hkb]
    · cases n with
      | zero => omega
      | succ n =>
        have hle : k / b ≤ k / 2 := Nat.div_le_div_left (by omega) (by decide)
        rw [if_pos (mt hzero.1 hkb), i2aLoop_eq hb hb' (by omega) (by omega), ok_bind,
          numeral_of_le (n := k) hb (by omega), ← List.append_assoc]

theorem toNat_of_toInt {v : BitVec 32} (hv : 0 ≤ v.toInt) :
    v.toInt = v.toNat ∧ v.toNat < 2 ^ 31 := by
  rw [BitVec.toInt_eq_toNat_cond] at hv ⊢
  split_ifs at hv ⊢ <;> omega

theorem i2a_of_nonneg {v : BitVec 32} {b : ℕ} (hv : 0 ≤ v.toInt) (hb : 1 < b) (hb' : b ≤ 16) :
    i2a v (BitVec.ofNat 32 b) ps = .ok (ps ++ numeral b v.toNat) := by
  obtain ⟨-, hlt⟩ := toNat_of_toInt hv
  have hloop : i2aLoop 32 (BitVec.ofNat 32 v.toNat) (BitVec.ofNat 32 b) ps = _ :=
    i2aLoop_eq hb hb' (by omega) hlt
  rwa [BitVec.ofNat_toNat, BitVec.setWidth_eq] at hloop

/-! ## Negative numbers -/

theorem i2aDigit_neg : ∀ d : ℕ, d < 16 → 0 < d →
    i2aDigit (BitVec.ofInt 32 (-(d : ℤ))) < ascii '0' := by
  decide

/-- The first digit is made of a negative remainder. -/
theorem i2aLoop_neg {b : ℕ} (hb : 1 < b) (hb' : b ≤ 16) : ∀ {n k : ℕ} {val : BitVec 32},
    val.toInt = -(k : ℤ) → 0 < k → k < 2 ^ (n + 1) → ∃ c l, c < ascii '0' ∧
      i2aLoop (n + 1) val (BitVec.ofNat 32 b) ps = .ok (ps ++ c :: l)
  | n, k, val, hk, hpos, hn => by
    have hbase : (BitVec.ofNat 32 b).toInt = b := toInt_ofNat_small (by omega)
    have hmod : (val.srem (BitVec.ofNat 32 b)).toInt = -((k % b : ℕ) : ℤ) := by
      rw [BitVec.toInt_srem, hbase, hk, Int.neg_tmod, Int.ofNat_tmod]
    have hdiv : (val.sdiv (BitVec.ofNat 32 b)).toInt = -((k / b : ℕ) : ℤ) := by
      have hk31 : k ≤ 2 ^ 31 := by
        have := BitVec.le_toInt val
        omega
      have hle : k / b ≤ k := Nat.div_le_self k b
      rw [BitVec.toInt_sdiv, hbase, hk, Int.neg_tdiv, ← Int.ofNat_tdiv]
      generalize k / b = q at hle
      exact Int.bmod_eq_of_le (by omega) (by omega)
    have hle : k / b ≤ k / 2 := Nat.div_le_div_left hb (by decide)
    rw [i2aLoop]
    dsimp only
    by_cases hq : val.sdiv (BitVec.ofNat 32 b) = 0
    · rw [if_neg (not_not.2 hq), ok_bind]
      have hkb : k < b := by
        rw [hq] at hdiv
        have hzero : (0 : BitVec 32).toInt = 0 := rfl
        exact (Nat.div_eq_zero_iff_lt (by omega)).1 (by omega)
      have hrem : val.srem (BitVec.ofNat 32 b) = BitVec.ofInt 32 (-(k : ℤ)) := by
        refine BitVec.eq_of_toInt_eq ?_
        rw [hmod, Nat.mod_eq_of_lt hkb, BitVec.toInt_ofInt]
        exact (Int.bmod_eq_of_le (by omega) (by omega)).symm
      exact ⟨_, [], hrem ▸ i2aDigit_neg k (by omega) hpos, rfl⟩
    · have hqpos : 0 < k / b := by
        refine Nat.pos_of_ne_zero fun h0 => hq (BitVec.eq_of_toInt_eq ?_)
        rw [hdiv, h0]
        rfl
      cases n with
      | zero => omega
      | succ n =>
        obtain ⟨c, l, hc, hl⟩ := i2aLoop_neg hb hb' (n := n) hdiv hqpos (by omega)
        rw [if_pos hq, hl, ok_bind]
        exact ⟨c, l ++ [i2aDigit (val.srem (BitVec.ofNat 32 b))], hc, by simp⟩

theorem i2a_of_neg (ps : List Byte) {v : BitVec 32} {b : ℕ} (hv : v.toInt < 0) (hb : 1 < b)
    (hb' : b ≤ 16) :
    ∃ c l, c < ascii '0' ∧ i2a v (BitVec.ofNat 32 b) ps = .ok (ps ++ c :: l) := by
  have := BitVec.le_toInt v
  exact i2aLoop_neg hb hb' (n := 31) (k := v.toInt.natAbs) (by omega) (by omega) (by omega)

theorem ascii_digit_ge : ∀ d < 16, ¬ ascii (Nat.digitChar d).toUpper < ascii '0' := by
  decide

/-- No numeral starts with what `i2a` writes first for a negative number. -/
theorem numeral_ne_cons {b n : ℕ} (hb : 1 < b) (hb' : b ≤ 16) {c : Byte} (hc : c < ascii '0')
    (l : List Byte) : c :: l ≠ numeral b n := by
  intro he
  obtain ⟨d, hd, rfl⟩ := numeral_mem hb hb' c (he ▸ List.mem_cons_self)
  exact ascii_digit_ge d hd hc

/-! ## The positions of itoa -/

/-- Of the bits that are shifted in, none is kept. -/
theorem sshiftRight_nibble (num : BitVec 32) {k : ℕ} (hk : k < 8) :
    num.sshiftRight (4 * k) &&& 0xF = num >>> (4 * k) &&& 0xF := by
  refine BitVec.eq_of_getLsbD_eq fun i hi => ?_
  rw [BitVec.getLsbD_and, BitVec.getLsbD_and]
  by_cases hlow : i < 4
  · rw [BitVec.getLsbD_sshiftRight, BitVec.getLsbD_ushiftRight, if_pos (by omega),
      decide_eq_false (by omega : ¬ 32 ≤ i)]
    rfl
  · have hmask : (0xF : BitVec 32).getLsbD i = false :=
      Nat.testBit_lt_two_pow (show 15 < 2 ^ i from
        lt_of_lt_of_le (by decide) (Nat.pow_le_pow_right (by decide) (show 4 ≤ i by omega)))
    rw [hmask, Bool.and_false, Bool.and_false]

theorem nibble_toNat (num : BitVec 32) {k : ℕ} (hk : k < 8) :
    ((num.sshiftRight (4 * k) &&& 0xF).setWidth 8).toNat = num.toNat / 16 ^ k % 16 := by
  have hmask : (0xF : BitVec 32).toNat = 2 ^ 4 - 1 := rfl
  rw [sshiftRight_nibble num hk, BitVec.toNat_setWidth, BitVec.toNat_and, BitVec.toNat_ushiftRight,
    hmask, Nat.and_two_pow_sub_one_eq_mod, Nat.shiftRight_eq_div_pow, pow_mul]
  exact Nat.mod_eq_of_lt ((Nat.mod_lt _ (by decide)).trans (by decide))

theorem itoaDigit_eq : ∀ d : ℕ, d < 16 → (if ascii '9' < BitVec.ofNat 8 d + ascii '0' then
    BitVec.ofNat 8 d + ascii '0' + 7 else BitVec.ofNat 8 d + ascii '0') =
      ascii (Nat.digitChar d).toUpper := by
  decide

/-- From the first digit that is not zero on, `itoa` writes all positions. -/
theorem itoaLoop_positional (num : BitVec 32) : ∀ {k : ℕ} {flag : Bool}, k < 8 →
    (flag = true ∨ num.toNat / 16 ^ k % 16 ≠ 0) → itoaLoop num (k + 1) flag =
      (Numerals.positional 16 num.toNat (k + 1)).map fun d => ascii (Nat.digitChar d).toUpper
  | k, flag, hk, hflag => by
    have hn := nibble_toNat num hk
    have hd : num.toNat / 16 ^ k % 16 < 16 := Nat.mod_lt _ (by decide)
    have hch : (num.sshiftRight (4 * k) &&& 0xF).setWidth 8 =
        BitVec.ofNat 8 (num.toNat / 16 ^ k % 16) := by
      rw [← hn, BitVec.ofNat_toNat, BitVec.setWidth_eq]
    have hpos : flag = true ∨ (0 : Byte) < (num.sshiftRight (4 * k) &&& 0xF).setWidth 8 := by
      refine hflag.imp_right fun h0 => ?_
      rw [BitVec.lt_def, hn]
      exact Nat.pos_of_ne_zero h0
    rw [itoaLoop]
    dsimp only
    rw [if_pos hpos, hch, itoaDigit_eq _ hd, Numerals.positional, List.map_cons]
    cases k with
    | zero => rfl
    | succ k => rw [itoaLoop_positional num (by omega) (.inl rfl)]

/-- Zeros at the start are passed over. -/
theorem itoaLoop_skip {num : BitVec 32} {j : ℕ} (hj : num.toNat < 16 ^ (j + 1)) : ∀ {k : ℕ},
    j + 1 + k ≤ 8 → itoaLoop num (j + 1 + k) false = itoaLoop num (j + 1) false
  | 0, _ => rfl
  | k + 1, hk => by
    have hn := nibble_toNat num (show j + 1 + k < 8 by omega)
    have hzero : num.toNat / 16 ^ (j + 1 + k) = 0 :=
      Nat.div_eq_of_lt (hj.trans_le (Nat.pow_le_pow_right (by decide) (by omega)))
    rw [← Nat.add_assoc, itoaLoop]
    dsimp only
    rw [if_neg, itoaLoop_skip hj (by omega)]
    rintro (h | h)
    · cases h
    · rw [BitVec.lt_def, hn, hzero] at h
      exact absurd h (by decide)

/-- `itoa` writes the numeral of the word. -/
theorem itoa_eq (num : BitVec 32) :
    itoa num = [ascii '0', ascii 'x'] ++ numeral 16 num.toNat ++ [0] := by
  rw [itoa]
  by_cases h0 : num = 0
  · rw [if_pos h0, h0]
    rfl
  · have hpos : 0 < num.toNat := Nat.pos_of_ne_zero fun h => h0 (BitVec.eq_of_toNat_eq h)
    obtain ⟨j, hle, hlt⟩ := Numerals.exists_highest (show 1 < 16 by decide) hpos
    have hj : j < 8 := by
      by_contra hge
      have : (16 : ℕ) ^ 8 ≤ 16 ^ j := Nat.pow_le_pow_right (by decide) (by omega)
      have := num.isLt
      omega
    have htop : num.toNat / 16 ^ j % 16 ≠ 0 := by
      have hdpos : 0 < num.toNat / 16 ^ j := Nat.div_pos hle (by positivity)
      have hdlt : num.toNat / 16 ^ j < 16 := by
        rw [Nat.div_lt_iff_lt_mul (by positivity), ← Nat.pow_succ']
        exact hlt
      rw [Nat.mod_eq_of_lt hdlt]
      omega
    have hskip := itoaLoop_skip hlt (k := 7 - j) (by omega)
    rw [show j + 1 + (7 - j) = 8 by omega] at hskip
    rw [if_neg h0, hskip, itoaLoop_positional num hj (.inr htop), numeral,
      Numerals.toDigits_eq_positional (by decide) hle hlt, List.map_map]
    rfl

end MyOS
