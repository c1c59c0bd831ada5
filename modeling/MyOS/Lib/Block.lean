import MyOS.Lib.Memory

/-!
# Blocks of bytes

Bytes by position: a buffer, or a disk. A write replaces the bytes from one position on; words lie
at four bytes, the lowest first, and bit `b` is bit `b % 8` of byte `b / 8`.
-/

namespace Block

open Memory

abbrev Bytes := ℕ → Byte

/-- The bytes from position `a` on. -/
def from_ (f : Bytes) (a : ℕ) : Bytes := fun i => f (a + i)

/-- `f` with the `n` bytes at `a` replaced by `g 0, g 1, ..`. -/
def blit (f : Bytes) (a n : ℕ) (g : Bytes) : Bytes := fun x =>
  if a ≤ x ∧ x < a + n then g (x - a) else f x

@[simp] theorem from_apply (f : Bytes) (a i : ℕ) : from_ f a i = f (a + i) := rfl

theorem blit_inside {f g : Bytes} {a n i : ℕ} (hi : i < n) : blit f a n g (a + i) = g i := by
  rw [blit, if_pos ⟨by omega, by omega⟩, Nat.add_sub_cancel_left]

theorem blit_outside {f g : Bytes} {a n x : ℕ} (h : x < a ∨ a + n ≤ x) : blit f a n g x = f x := by
  rw [blit, if_neg (by omega)]

@[simp] theorem blit_zero (f : Bytes) (a : ℕ) (g : Bytes) : blit f a 0 g = f := by
  funext x
  exact blit_outside (by omega)

/-- Bytes put one behind the other are put at once. -/
theorem blit_blit (f : Bytes) (a n m : ℕ) (g : Bytes) :
    blit (blit f a n g) (a + n) m (from_ g n) = blit f a (n + m) g := by
  funext x
  rcases Nat.lt_or_ge x (a + n) with hx | hx
  · rw [blit_outside (.inl hx)]
    unfold blit
    by_cases ha : a ≤ x
    · rw [if_pos ⟨ha, hx⟩, if_pos ⟨ha, by omega⟩]
    · rw [if_neg (by omega), if_neg (by omega)]
  · unfold blit
    by_cases ha : x < a + n + m
    · rw [if_pos ⟨hx, ha⟩, if_pos ⟨by omega, by omega⟩, from_apply]
      congr 1
      omega
    · rw [if_neg (by omega), if_neg (by omega), if_neg (by omega)]

/-- A block that is read, changed in part and written back. -/
theorem blit_from (f : Bytes) (s : ℕ) {n a m : ℕ} (g : Bytes) (h : a + m ≤ n) :
    blit f s n (blit (from_ f s) a m g) = blit f (s + a) m g := by
  funext x
  by_cases hx : s ≤ x ∧ x < s + n
  · unfold blit
    rw [if_pos hx]
    by_cases hin : s + a ≤ x ∧ x < s + a + m
    · rw [if_pos (by omega), if_pos hin]
      congr 1
      omega
    · rw [if_neg (by omega), if_neg hin, from_apply]
      congr 1
      omega
  · rw [blit_outside (by omega), blit_outside (by omega)]

/-- What is written behind `s`, seen from there. -/
theorem from_blit (f : Bytes) (s a n : ℕ) (g : Bytes) :
    from_ (blit f (s + a) n g) s = blit (from_ f s) a n g := by
  funext x
  rw [from_apply]
  by_cases hx : a ≤ x ∧ x < a + n
  · unfold blit
    rw [if_pos (by omega), if_pos hx]
    congr 1
    omega
  · rw [blit_outside (by omega), blit_outside (by omega), from_apply]

theorem from_blit_before {f : Bytes} {s a n : ℕ} {g : Bytes} (h : a + n ≤ s) :
    from_ (blit f a n g) s = from_ f s := by
  funext x
  rw [from_apply, blit_outside (by omega), from_apply]

/-- The `n` bytes at `a`, in order. -/
def bytesFrom (f : Bytes) (a n : ℕ) : List Byte := (List.range' a n).map f

theorem bytesFrom_add (f : Bytes) (a n m : ℕ) :
    bytesFrom f a (n + m) = bytesFrom f a n ++ bytesFrom f (a + n) m := by
  rw [bytesFrom, ← List.range'_append_1, List.map_append, bytesFrom, bytesFrom]

theorem bytesFrom_congr {f g : Bytes} {a n : ℕ} (h : ∀ x, a ≤ x → x < a + n → f x = g x) :
    bytesFrom f a n = bytesFrom g a n :=
  List.map_congr_left fun x hx => by
    obtain ⟨hlo, hhi⟩ := List.mem_range'_1.1 hx
    exact h x hlo hhi

/-- What was put there is read back. -/
theorem bytesFrom_blit {f : Bytes} {a n : ℕ} {p : List Byte} (h : n ≤ p.length) :
    bytesFrom (blit f a n fun i => p.getD i 0) a n = p.take n := by
  refine List.ext_getElem (by simp [bytesFrom, h]) fun i hi _ => ?_
  have hin : i < n := by simpa [bytesFrom] using hi
  simp only [bytesFrom, List.getElem_map, List.getElem_range', Nat.one_mul, List.getElem_take]
  rw [blit_inside hin, List.getD_eq_getElem?_getD, List.getElem?_eq_getElem (by omega),
    Option.getD_some]

/-! ## Words -/

def word (f : Bytes) (a : ℕ) : BitVec 32 := f (a + 3) ++ f (a + 2) ++ f (a + 1) ++ f a

def putWord (f : Bytes) (a : ℕ) (v : BitVec 32) : Bytes := blit f a 4 (byteOf v)

theorem word_congr {f g : Bytes} {a b : ℕ} (h : ∀ i < 4, f (a + i) = g (b + i)) :
    word f a = word g b := by
  have h0 := h 0 (by decide)
  simp only [Nat.add_zero] at h0
  rw [word, word, h0, h 1 (by decide), h 2 (by decide), h 3 (by decide)]

theorem word_putWord (f : Bytes) (a : ℕ) (v : BitVec 32) : word (putWord f a v) a = v := by
  have h (i : ℕ) (hi : i < 4) : putWord f a v (a + i) = byteOf v i := blit_inside hi
  have h0 := h 0 (by decide)
  simp only [Nat.add_zero] at h0
  rw [word, h0, h 1 (by decide), h 2 (by decide), h 3 (by decide)]
  exact append_bytes v

theorem byteOf_word (f : Bytes) (a : ℕ) {i : ℕ} (hi : i < 4) : byteOf (word f a) i = f (a + i) :=
  byteOf_append (from_ f a) hi

theorem putWord_word (f : Bytes) (a : ℕ) : putWord f a (word f a) = f := by
  funext x
  by_cases hx : a ≤ x ∧ x < a + 4
  · obtain ⟨i, rfl⟩ := Nat.exists_eq_add_of_le hx.1
    have hi : i < 4 := by omega
    rw [putWord, blit_inside hi, byteOf_word f a hi]
  · exact blit_outside (by omega)

theorem word_putWord_of_apart (f : Bytes) {a b : ℕ} (v : BitVec 32) (h : b + 4 ≤ a ∨ a + 4 ≤ b) :
    word (putWord f a v) b = word f b :=
  word_congr fun i hi => blit_outside (by omega)

theorem putWord_outside {f : Bytes} {a x : ℕ} {v : BitVec 32} (h : x < a ∨ a + 4 ≤ x) :
    putWord f a v x = f x :=
  blit_outside h

/-! ## Bits -/

def bit (f : Bytes) (b : ℕ) : Bool := (f (b / 8)).getLsbD (b % 8)

/-- `f[j] |= 1 << k` -/
def setBit (f : Bytes) (b : ℕ) : Bytes := fun x =>
  if x = b / 8 then f x ||| 1#8 <<< (b % 8) else f x

/-- `f[j] &= ~(1 << k)` -/
def clearBit (f : Bytes) (b : ℕ) : Bytes := fun x =>
  if x = b / 8 then f x &&& ~~~(1#8 <<< (b % 8)) else f x

/-- `f[j] = v` -/
def put (f : Bytes) (j : ℕ) (v : Byte) : Bytes := fun x => if x = j then v else f x

theorem getLsbD_one_shiftLeft {k i : ℕ} (hi : i < 8) :
    (1#8 <<< k).getLsbD i = decide (i = k) := by
  rw [BitVec.getLsbD_shiftLeft, BitVec.getLsbD_one]
  by_cases hik : i = k
  · simp [hik, show k < 8 by omega]
  · rcases Nat.lt_or_gt_of_ne hik with h | h
    · simp [hik, h]
    · simp [hik, show i - k ≠ 0 by omega]

theorem bit_setBit (f : Bytes) (b c : ℕ) : bit (setBit f b) c = (decide (c = b) || bit f c) := by
  unfold bit setBit
  by_cases hd : c / 8 = b / 8
  · rw [if_pos hd, BitVec.getLsbD_or, getLsbD_one_shiftLeft (Nat.mod_lt _ (by decide)),
      Bool.or_comm]
    congr 1
    exact decide_eq_decide.2 (by omega)
  · rw [if_neg hd, decide_eq_false (by rintro rfl; exact hd rfl), Bool.false_or]

theorem bit_clearBit (f : Bytes) (b c : ℕ) :
    bit (clearBit f b) c = (decide (c ≠ b) && bit f c) := by
  unfold bit clearBit
  by_cases hd : c / 8 = b / 8
  · have hc : c % 8 < 8 := Nat.mod_lt _ (by decide)
    rw [if_pos hd, BitVec.getLsbD_and, BitVec.getLsbD_not, getLsbD_one_shiftLeft hc,
      decide_eq_true hc, Bool.true_and, Bool.and_comm, ← decide_not]
    congr 1
    exact decide_eq_decide.2 (by omega)
  · rw [if_neg hd, decide_eq_true (by rintro rfl; exact hd rfl), Bool.true_and]

theorem bit_congr {f g : Bytes} {b c : ℕ} (h : f (b / 8) = g (c / 8)) (hbc : b % 8 = c % 8) :
    bit f b = bit g c := by
  rw [bit, bit, h, hbc]

/-- A byte of all ones has all its bits set. -/
theorem eq_ff_iff {f : Bytes} {j : ℕ} : f j = 0xFF ↔ ∀ k < 8, bit f (8 * j + k) = true := by
  have hb (k : ℕ) (hk : k < 8) : bit f (8 * j + k) = (f j).getLsbD k := by
    rw [bit, show (8 * j + k) / 8 = j by omega, show (8 * j + k) % 8 = k by omega]
  constructor
  · intro h k hk
    rw [hb k hk, h]
    have : ∀ k < 8, (0xFF#8).getLsbD k = true := by decide
    exact this k hk
  · intro h
    refine BitVec.eq_of_getLsbD_eq fun k hk => ?_
    rw [← hb k hk, h k hk]
    have : ∀ k < 8, (0xFF#8).getLsbD k = true := by decide
    exact (this k hk).symm

end Block
