import MyOS.Proofs.Numerals

/-!
# Numerals through a pointer

What `i2a` stores on the way back is one digit behind those of the quotient. So at the pointer there
is the canonical numeral, and the pointer is behind it.
-/

namespace MyOS

open Memory Numerals

/-! ## The pointer -/

/-- The bytes at the pointer are those that the recursion appends. -/
theorem i2aAt_of_loop {base : BitVec 32} : ∀ {n : ℕ} {val : BitVec 32} {ps q : List Byte},
    i2aLoop n val base ps = .ok q → ∃ l, l.length ≤ n ∧ q = ps ++ l ∧ ∀ mem a,
      i2aAt n val base mem a = .ok (putBytes mem a l, a + BitVec.ofNat 32 l.length)
  | 0, _, _, _, h => nomatch h
  | n + 1, val, ps, q, h => by
    rw [i2aLoop] at h
    by_cases hq : val.sdiv base = 0
    · rw [if_neg (not_not.2 hq), ok_bind] at h
      refine ⟨[i2aDigit (val.srem base)], Nat.succ_le_succ n.zero_le, (Except.ok.inj h).symm, ?_⟩
      intro mem a
      rw [i2aAt]
      dsimp only
      rw [if_neg (not_not.2 hq), ok_bind]
      rfl
    · rw [if_pos hq] at h
      obtain ⟨r, hr, h⟩ := bind_eq_ok.1 h
      obtain ⟨l, hlen, rfl, hat⟩ := i2aAt_of_loop hr
      obtain rfl := Except.ok.inj h
      refine ⟨l ++ [i2aDigit (val.srem base)], ?_, List.append_assoc _ _ _, fun mem a => ?_⟩
      · rw [List.length_append]
        exact Nat.succ_le_succ hlen
      · rw [i2aAt]
        dsimp only
        rw [if_pos hq, hat, ok_bind, putBytes_append, List.length_append, BitVec.ofNat_add,
          ← BitVec.add_assoc]
        rfl

/-! ## The digits -/

/-- The character of a digit. -/
def digitByte (d : ℕ) : Byte := ("0123456789ABCDEF".toList.map ascii).getD d 0

theorem digitByte_eq : ∀ d < 16, ascii (Nat.digitChar d).toUpper = digitByte d := by
  decide

/-- The numerals are canonical. -/
theorem numeral_canonical {b : ℕ} (hb : 1 < b) (hb' : b ≤ 16) (n : ℕ) :
    ∃ l, Canonical b n l ∧ numeral b n = l.map digitByte := by
  induction n using Nat.strong_induction_on with
  | _ n ih =>
    rcases lt_or_ge n b with h | h
    · refine ⟨[n], .of_lt h, ?_⟩
      rw [numeral_of_lt h, digitByte_eq n (by omega)]
      rfl
    · obtain ⟨l, hl, he⟩ := ih _ (Nat.div_lt_self (by omega) hb)
      have hd : n % b < 16 := (Nat.mod_lt n (by omega)).trans_le hb'
      refine ⟨l ++ [n % b], hl.snoc (by omega) h, ?_⟩
      rw [numeral_of_le hb h, he, digitByte_eq _ hd, List.map_append]
      rfl

/-- What `i2a` does: at the pointer there are the digits of the number, nothing else of the memory
is changed, and the pointer is behind them. So it is however many more calls it could make. -/
structure WritesNumeral (val base : BitVec 32) (l : List ℕ) : Prop where
  canonical : Canonical base.toNat val.toNat l
  only : ∀ l', Canonical base.toNat val.toNat l' → l' = l
  stores : ∀ n, 32 ≤ n → ∀ mem ps, i2aAt n val base mem ps =
    .ok (poke mem ps l.length fun i => (l.map digitByte).getD i 0, ps + BitVec.ofNat 32 l.length)
  appends : ∀ ps, i2a val base ps = .ok (ps ++ l.map digitByte)

/-- For every number that is not negative and every base from 2 to 16, `i2a` comes to an end and has
written the canonical numeral. -/
theorem i2a_canonical {val base : BitVec 32} (hval : 0 ≤ val.toInt) (hb : 2 ≤ base.toInt)
    (hb' : base.toInt ≤ 16) : ∃ l, WritesNumeral val base l := by
  obtain ⟨-, hlt⟩ := toNat_of_toInt hval
  obtain ⟨hbase, -⟩ := toNat_of_toInt (show 0 ≤ base.toInt by omega)
  have hb1 : 1 < base.toNat := by omega
  have hb16 : base.toNat ≤ 16 := by omega
  obtain ⟨l, hcan, hl⟩ := numeral_canonical hb1 hb16 val.toNat
  have hloop : ∀ n, 32 ≤ n → ∀ ps, i2aLoop n val base ps = .ok (ps ++ l.map digitByte) := by
    intro n hn ps
    have hfuel : val.toNat < 2 ^ (n - 1 + 1) :=
      hlt.trans_le (Nat.pow_le_pow_right (by decide) (by omega))
    have heq : i2aLoop (n - 1 + 1) _ _ ps = _ := i2aLoop_eq hb1 hb16 hfuel hlt
    rwa [Nat.sub_add_cancel (by omega), BitVec.ofNat_toNat, BitVec.ofNat_toNat, BitVec.setWidth_eq,
      BitVec.setWidth_eq, hl] at heq
  -- there are at most as many digits as calls
  have hlen : (l.map digitByte).length ≤ 2 ^ 32 := by
    obtain ⟨r, hr, heq, -⟩ := i2aAt_of_loop (hloop 32 le_rfl [])
    rw [List.nil_append, List.nil_append] at heq
    rw [heq]
    exact hr.trans (by decide)
  refine ⟨l, hcan, fun l' h => h.unique hb1 hcan, fun n hn mem ps => ?_, hloop 32 le_rfl⟩
  obtain ⟨r, -, heq, hstore⟩ := i2aAt_of_loop (hloop n hn [])
  rw [List.nil_append, List.nil_append] at heq
  rw [hstore, ← heq, putBytes_eq_poke _ _ _ hlen, List.length_map]

/-- The number 36 in base ten. -/
theorem i2a_canonical_36 :
    ∃ l, WritesNumeral 36 10 l ∧ l.map digitByte = "36".toList.map ascii := by
  obtain ⟨l, hl⟩ := i2a_canonical (show 0 ≤ (36 : BitVec 32).toInt by decide)
    (show 2 ≤ (10 : BitVec 32).toInt by decide) (by decide)
  have h36 : i2a 36 10 [] = .ok ("36".toList.map ascii) := by decide
  exact ⟨l, hl, (Except.ok.inj (h36.symm.trans (hl.appends []))).symm⟩

end MyOS
