import Mathlib.Algebra.Ring.Nat
import Mathlib.Logic.Function.Basic
import Mathlib.Tactic.SplitIfs

/-!
# Byte memory

A flat memory of bytes at 32-bit addresses, whose arithmetic wraps. A block is an address and a
length; `memcpy` copies byte by byte upwards, and between blocks that share no address it writes
the source's bytes to the destination and nothing else. A 32-bit word is four bytes, the lowest
first.
-/

namespace Memory

abbrev Addr := BitVec 32
abbrev Byte := BitVec 8
abbrev Mem := Addr → Byte

/-- `x` is one of the `n` bytes at `a`. -/
def Within (x a : Addr) (n : ℕ) : Prop := (x - a).toNat < n

instance (x a : Addr) (n : ℕ) : Decidable (Within x a n) :=
  inferInstanceAs (Decidable (_ < _))

/-- The `n` bytes at `a` and the `n'` bytes at `b` share no address. -/
def Apart (a : Addr) (n : ℕ) (b : Addr) (n' : ℕ) : Prop :=
  ∀ x, Within x a n → ¬ Within x b n'

theorem Apart.symm {a b : Addr} {n n' : ℕ} (h : Apart a n b n') : Apart b n' a n :=
  fun x hx hx' => h x hx' hx

/-- A block at an offset into another one lies in it just when its end does. -/
theorem within_subset_iff {a va : Addr} {n s : ℕ} (hn : n ≤ 2 ^ 32) (hs : s < 2 ^ 32) :
    (∀ x, Within x (a + va) n → Within x a s) ↔ n = 0 ∨ va.toNat + n ≤ s := by
  constructor
  · intro h
    by_contra hc
    have hva : va.toNat < s := by
      have := h (a + va) (by unfold Within; bv_omega)
      unfold Within at this
      bv_omega
    have := h (a + BitVec.ofNat 32 s) (by unfold Within; bv_omega)
    unfold Within at this
    bv_omega
  · rintro (rfl | h) x hx
    · exact absurd hx (Nat.not_lt_zero _)
    · unfold Within at hx ⊢
      bv_omega

/-- The memory with the `n` bytes at `a` replaced by `f 0, f 1, ..`. -/
def poke (mem : Mem) (a : Addr) (n : ℕ) (f : ℕ → Byte) : Mem := fun x =>
  if Within x a n then f (x - a).toNat else mem x

/-- Bytes are copied one at a time, upwards. -/
def memcpy (mem : Mem) (dst src : Addr) : ℕ → Mem
  | 0 => mem
  | n + 1 => memcpy (Function.update mem dst (mem src)) (dst + 1) (src + 1) n

theorem within_add_ofNat (a : Addr) {i n : ℕ} (hi : i < n) (hn : n ≤ 2 ^ 32) :
    Within (a + BitVec.ofNat 32 i) a n := by
  have : (a + BitVec.ofNat 32 i - a).toNat = i := by
    rw [BitVec.add_comm, BitVec.add_sub_cancel, BitVec.toNat_ofNat, Nat.mod_eq_of_lt (by omega)]
  unfold Within
  omega

theorem within_succ {x a : Addr} {n : ℕ} (hn : n + 1 ≤ 2 ^ 32) :
    Within x a (n + 1) ↔ x = a ∨ Within x (a + 1) n := by
  unfold Within
  bv_omega

theorem poke_of_not_within {mem : Mem} {a x : Addr} {n : ℕ} {f : ℕ → Byte} (h : ¬ Within x a n) :
    poke mem a n f x = mem x := by
  simp [poke, h]

theorem poke_add {mem : Mem} {a : Addr} {n i : ℕ} {f : ℕ → Byte} (hi : i < n) (hn : n ≤ 2 ^ 32) :
    poke mem a n f (a + BitVec.ofNat 32 i) = f i := by
  rw [poke, if_pos (within_add_ofNat a hi hn), BitVec.add_comm, BitVec.add_sub_cancel,
    BitVec.toNat_ofNat, Nat.mod_eq_of_lt (by omega)]

@[simp] theorem poke_zero (mem : Mem) (a : Addr) (f : ℕ → Byte) : poke mem a 0 f = mem := by
  funext x
  exact poke_of_not_within (Nat.not_lt_zero _)

theorem poke_congr {mem : Mem} {a : Addr} {n : ℕ} {f g : ℕ → Byte} (h : ∀ i < n, f i = g i) :
    poke mem a n f = poke mem a n g := by
  funext x
  unfold poke
  split_ifs with hx
  · exact h _ hx
  · rfl

/-- A block behind another one. -/
theorem within_add {x a : Addr} {n m : ℕ} (h : n + m ≤ 2 ^ 32) :
    Within x (a + BitVec.ofNat 32 n) m ↔ n ≤ (x - a).toNat ∧ (x - a).toNat < n + m := by
  unfold Within
  rw [show x - (a + BitVec.ofNat 32 n) = x - a - BitVec.ofNat 32 n by bv_omega]
  generalize x - a = y
  bv_omega

/-- Bytes put one behind the other are put at once. -/
theorem poke_poke (mem : Mem) (a : Addr) {n m : ℕ} (f : ℕ → Byte) (h : n + m ≤ 2 ^ 32) :
    poke (poke mem a n f) (a + BitVec.ofNat 32 n) m (fun i => f (n + i)) =
      poke mem a (n + m) f := by
  funext x
  by_cases hx : Within x (a + BitVec.ofNat 32 n) m
  · have hin := (within_add h).1 hx
    have hidx : n + (x - (a + BitVec.ofNat 32 n)).toNat = (x - a).toNat := by
      rw [show x - (a + BitVec.ofNat 32 n) = x - a - BitVec.ofNat 32 n by bv_omega]
      generalize x - a = y at hin
      bv_omega
    rw [poke, if_pos hx, poke, if_pos (show Within x a (n + m) from hin.2), hidx]
  · rw [poke_of_not_within hx]
    rw [within_add h] at hx
    by_cases hn : Within x a n
    · rw [poke, if_pos hn, poke, if_pos (show Within x a (n + m) from Nat.lt_add_right m hn)]
    · have hnm : ¬ Within x a (n + m) := by
        unfold Within at hn ⊢
        omega
      rw [poke_of_not_within hn, poke_of_not_within hnm]

/-- Between blocks that share no address, `memcpy` writes the source's bytes to the destination
and nothing else. -/
theorem memcpy_eq_poke : ∀ (n : ℕ) (mem : Mem) (dst src : Addr), n ≤ 2 ^ 32 →
    Apart dst n src n →
      memcpy mem dst src n = poke mem dst n fun i => mem (src + BitVec.ofNat 32 i)
  | 0, mem, dst, src, _, _ => by
    funext x
    simp [memcpy, poke, Within]
  | n + 1, mem, dst, src, hn, h => by
    have h' : Apart (dst + 1) n (src + 1) n := fun x hx hx' =>
      h x ((within_succ hn).2 (.inr hx)) ((within_succ hn).2 (.inr hx'))
    rw [memcpy, memcpy_eq_poke n _ _ _ (by omega) h']
    funext x
    by_cases hx : Within x (dst + 1) n
    · have hxd : Within x dst (n + 1) := (within_succ hn).2 (.inr hx)
      have hi : (x - (dst + 1)).toNat < n := hx
      have hsrc : src + 1 + BitVec.ofNat 32 (x - (dst + 1)).toNat = src + (x - dst) := by
        rw [BitVec.ofNat_toNat, BitVec.setWidth_eq]
        bv_omega
      have hne : src + (x - dst) ≠ dst := by
        have hs : Within (src + (x - dst)) src (n + 1) := by
          rw [← hsrc, within_succ hn]
          exact .inr (within_add_ofNat _ hi (by omega))
        exact fun he => h dst ((within_succ hn).2 (.inl rfl)) (he ▸ hs)
      rw [poke, if_pos hx, poke, if_pos hxd, hsrc, Function.update_of_ne hne,
        BitVec.ofNat_toNat, BitVec.setWidth_eq]
    · rw [poke_of_not_within hx]
      rcases eq_or_ne x dst with rfl | hxd
      · rw [Function.update_self, poke, if_pos ((within_succ hn).2 (.inl rfl))]
        simp
      · rw [Function.update_of_ne hxd, poke_of_not_within fun hw =>
          (within_succ hn).1 hw |>.elim hxd hx]

/-! ## Bytes stored through a pointer -/

/-- Each byte is stored at the pointer, which goes on to the next address. -/
def putBytes : Mem → Addr → List Byte → Mem
  | mem, _, [] => mem
  | mem, a, c :: l => putBytes (Function.update mem a c) (a + 1) l

theorem putBytes_append : ∀ (l l' : List Byte) (mem : Mem) (a : Addr), putBytes mem a (l ++ l') =
    putBytes (putBytes mem a l) (a + BitVec.ofNat 32 l.length) l'
  | [], l', mem, a => congrArg (putBytes mem · l') (BitVec.add_zero a).symm
  | c :: l, l', mem, a => by
    have haddr : a + 1 + BitVec.ofNat 32 l.length = a + BitVec.ofNat 32 (c :: l).length := by
      rw [List.length_cons, BitVec.ofNat_add, BitVec.add_assoc, BitVec.add_comm (1 : BitVec 32)]
      rfl
    rw [List.cons_append, putBytes, putBytes_append l l', haddr]
    rfl

/-- Where they do not go round the addresses, each byte is in its place and nothing else is
changed. -/
theorem putBytes_eq_poke : ∀ (l : List Byte) (mem : Mem) (a : Addr), l.length ≤ 2 ^ 32 →
    putBytes mem a l = poke mem a l.length fun i => l.getD i 0
  | [], mem, a, _ => (poke_zero mem a _).symm
  | c :: l, mem, a, h => by
    rw [List.length_cons] at h
    rw [putBytes, putBytes_eq_poke l _ _ (by omega)]
    funext x
    by_cases hx : Within x (a + 1) l.length
    · have hidx : (x - a).toNat = (x - (a + 1)).toNat + 1 := by
        unfold Within at hx
        bv_omega
      have hxa : Within x a (c :: l).length := (within_succ h).2 (.inr hx)
      rw [poke, if_pos hx, poke, if_pos hxa, hidx, List.getD_cons_succ]
    · rw [poke_of_not_within hx]
      rcases eq_or_ne x a with rfl | hxa
      · have hxx : Within x x (c :: l).length := (within_succ h).2 (.inl rfl)
        rw [Function.update_self, poke, if_pos hxx, BitVec.sub_self]
        rfl
      · rw [Function.update_of_ne hxa]
        exact (poke_of_not_within fun hw => ((within_succ h).1 hw).elim hxa hx).symm

/-! ## Words -/

def load16 (mem : Mem) (a : Addr) : BitVec 16 := mem (a + 1) ++ mem a

def load32 (mem : Mem) (a : Addr) : BitVec 32 :=
  mem (a + BitVec.ofNat 32 3) ++ mem (a + BitVec.ofNat 32 2) ++ mem (a + BitVec.ofNat 32 1)
    ++ mem (a + BitVec.ofNat 32 0)

/-- Byte `i` of a word, the lowest first. -/
def byteOf (v : BitVec 32) (i : ℕ) : Byte := v.extractLsb' (8 * i) 8

def store32 (mem : Mem) (a : Addr) (v : BitVec 32) : Mem := poke mem a 4 (byteOf v)

theorem append_bytes (v : BitVec 32) :
    (byteOf v 3 ++ byteOf v 2 ++ byteOf v 1 ++ byteOf v 0 : BitVec 32) = v := by
  ext i hi
  simp only [byteOf, BitVec.getLsbD_extractLsb', ← BitVec.getLsbD_eq_getElem,
    BitVec.getLsbD_append]
  split_ifs
  · rw [show 8 * 0 + i = i by omega]
    simp [*]
  · rw [show 8 * 1 + (i - 8) = i by omega]
    simp [*]
  · rw [show 8 * 2 + (i - 8 - 8) = i by omega]
    simp [*]
  · rw [show 8 * 3 + (i - 8 - 8 - 8) = i by omega, decide_eq_true (by omega), Bool.true_and]

theorem byteOf_append (g : ℕ → Byte) {i : ℕ} (hi : i < 4) :
    byteOf (g 3 ++ g 2 ++ g 1 ++ g 0) i = g i := by
  refine BitVec.eq_of_getLsbD_eq fun j hj => ?_
  simp only [byteOf, BitVec.getLsbD_extractLsb', BitVec.getLsbD_append, decide_eq_true hj,
    Bool.true_and]
  obtain rfl | rfl | rfl | rfl : i = 0 ∨ i = 1 ∨ i = 2 ∨ i = 3 := by omega
  · rw [if_pos (by omega), show 8 * 0 + j = j by omega]
  · rw [if_neg (by omega), if_pos (by omega), show 8 * 1 + j - 8 = j by omega]
  · rw [if_neg (by omega), if_neg (by omega), if_pos (by omega),
      show 8 * 2 + j - 8 - 8 = j by omega]
  · rw [if_neg (by omega), if_neg (by omega), if_neg (by omega),
      show 8 * 3 + j - 8 - 8 - 8 = j by omega]

theorem byteOf_load32 (mem : Mem) (a : Addr) {i : ℕ} (hi : i < 4) :
    byteOf (load32 mem a) i = mem (a + BitVec.ofNat 32 i) :=
  byteOf_append (fun i => mem (a + BitVec.ofNat 32 i)) hi

theorem load16_congr {mem mem' : Mem} {a : Addr} (h : ∀ x, Within x a 2 → mem' x = mem x) :
    load16 mem' a = load16 mem a := by
  unfold load16
  rw [h a (by unfold Within; bv_omega), h (a + 1) (by unfold Within; bv_omega)]

theorem load32_congr {mem mem' : Mem} {a a' : Addr}
    (h : ∀ i < 4, mem (a + BitVec.ofNat 32 i) = mem' (a' + BitVec.ofNat 32 i)) :
    load32 mem a = load32 mem' a' := by
  simp only [load32, h 0 (by decide), h 1 (by decide), h 2 (by decide), h 3 (by decide)]

theorem load32_eq_iff {mem mem' : Mem} {a a' : Addr} : load32 mem a = load32 mem' a' ↔
    ∀ i < 4, mem (a + BitVec.ofNat 32 i) = mem' (a' + BitVec.ofNat 32 i) := by
  refine ⟨fun h i hi => ?_, load32_congr⟩
  rw [← byteOf_load32 mem a hi, h, byteOf_load32 mem' a' hi]

theorem load32_poke {mem : Mem} {a : Addr} {n k : ℕ} {f : ℕ → Byte} {v : BitVec 32}
    (hk : k + 4 ≤ n) (hn : n ≤ 2 ^ 32) (hv : ∀ i < 4, f (k + i) = byteOf v i) :
    load32 (poke mem a n f) (a + BitVec.ofNat 32 k) = v := by
  have hb : ∀ i < 4, poke mem a n f (a + BitVec.ofNat 32 k + BitVec.ofNat 32 i) = byteOf v i := by
    intro i hi
    rw [BitVec.add_assoc, ← BitVec.ofNat_add, poke_add (by omega) hn, hv i hi]
  simp only [load32, hb 0 (by decide), hb 1 (by decide), hb 2 (by decide), hb 3 (by decide)]
  exact append_bytes v

theorem load32_store32 (mem : Mem) (a : Addr) (v : BitVec 32) :
    load32 (store32 mem a v) a = v := by
  have h : load32 (poke mem a 4 (byteOf v)) (a + BitVec.ofNat 32 0) = v :=
    load32_poke (by decide) (by decide) (by simp)
  rwa [BitVec.add_zero] at h

/-! ## Copies -/

section

variable {mem : Mem} {dst x : Addr}

/-- Where memories agree on a set that has the source in it, copies in them agree on it. -/
theorem memcpy_congr {P : Addr → Prop} : ∀ {n : ℕ} {mem mem' : Mem} {dst src : Addr},
    n ≤ 2 ^ 32 → (∀ x, P x → mem' x = mem x) → (∀ x, Within x src n → P x) →
      ∀ x, P x → memcpy mem' dst src n x = memcpy mem dst src n x
  | 0, _, _, _, _, _, h, _, x, hx => h x hx
  | n + 1, mem, mem', dst, src, hn, h, hsrc, x, hx => by
    rw [memcpy, memcpy]
    refine memcpy_congr (P := P) (by omega) (fun y hy => ?_)
      (fun y hy => hsrc y ((within_succ hn).2 (.inr hy))) x hx
    have hfirst : mem' src = mem src := h src (hsrc src ((within_succ hn).2 (.inl rfl)))
    by_cases hyd : y = dst
    · rw [hyd, Function.update_self, Function.update_self, hfirst]
    · rw [Function.update_of_ne hyd, Function.update_of_ne hyd, h y hy]

/-- A byte and then the bytes behind it. -/
theorem poke_const_succ {n : ℕ} {c : Byte} (hn : n + 1 ≤ 2 ^ 32) :
    poke (Function.update mem dst c) (dst + 1) n (fun _ => c) =
      poke mem dst (n + 1) (fun _ => c) := by
  funext y
  by_cases hy : Within y (dst + 1) n
  · rw [poke, if_pos hy, poke, if_pos ((within_succ hn).2 (.inr hy))]
  · rw [poke_of_not_within hy]
    by_cases hyd : y = dst
    · rw [hyd, Function.update_self, poke, if_pos ((within_succ hn).2 (.inl rfl))]
    · have hy' : ¬ Within y dst (n + 1) := fun h => ((within_succ hn).1 h).elim hyd hy
      rw [Function.update_of_ne hyd, poke_of_not_within hy']

theorem poke_snoc {n : ℕ} {f : ℕ → Byte} (hn : n + 1 ≤ 2 ^ 32) :
    Function.update (poke mem dst n f) (dst + BitVec.ofNat 32 n) (f n) =
      poke mem dst (n + 1) f := by
  rw [← poke_poke mem dst f hn]
  funext y
  by_cases hy : y = dst + BitVec.ofNat 32 n
  · subst hy
    have hin : Within (dst + BitVec.ofNat 32 n) (dst + BitVec.ofNat 32 n) 1 := by
      unfold Within
      bv_omega
    rw [Function.update_self, poke, if_pos hin, BitVec.sub_self]
    rfl
  · have hout : ¬ Within y (dst + BitVec.ofNat 32 n) 1 := by
      unfold Within
      bv_omega
    rw [Function.update_of_ne hy, poke_of_not_within hout]

end

end Memory
