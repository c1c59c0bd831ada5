import MyOS.Proofs.SmapAlloc

/-!
# What `do_unlink` gives back

The first byte, whole bytes and the last byte together are the bits from that of the first sector
on: where these are set no assertion fails, and just these are cleared.
-/

namespace MyOS

open Memory Block

variable {sb : SuperBlock} {disk disk' : Bytes} {b n : ℕ}

/-- The `c` bits from `lo` on are set. -/
def Full (f : Bytes) (lo c : ℕ) : Prop := ∀ x, lo ≤ x → x < lo + c → bit f x = true

theorem Full.sub {f : Bytes} {lo c lo' c' : ℕ} (h : Full f lo c) (hlo : lo ≤ lo')
    (hc : lo' + c' ≤ lo + c) : Full f lo' c' :=
  fun x hx hx' => h x (by omega) (by omega)

/-- Bits that are cleared elsewhere stay set. -/
theorem Full.unmarked {f f' : Bytes} {lo c lo' c' : ℕ} (h : Full f lo c)
    (hclear : Unmarked f f' lo' c') (hapart : lo' + c' ≤ lo) : Full f' lo c := by
  intro x hx hx'
  rw [hclear x, h x hx hx', decide_eq_false (by omega)]
  rfl

/-! ## The three phases -/

theorem clearBits_ok {j : ℕ} : ∀ {n k : ℕ} {f : Bytes}, Full f (8 * j + k) n →
    ∃ f', clearBits j (List.range' k n) f = .ok f' ∧ Unmarked f f' (8 * j + k) n
  | 0, k, f, _ => ⟨f, rfl, .refl _ _⟩
  | n + 1, k, f, h => by
    have hclear := Unmarked.clear f (8 * j + k)
    have hrest : Full (clearBit f (8 * j + k)) (8 * j + (k + 1)) n :=
      (h.sub (by omega) (by omega)).unmarked hclear (by omega)
    obtain ⟨f', hf, hunmark⟩ := clearBits_ok hrest
    refine ⟨f', ?_, ?_⟩
    · rw [List.range'_succ, clearBits, assert_of (h _ le_rfl (by omega)), ok_bind, hf]
    · rw [Nat.add_comm n 1]
      exact hclear.trans hunmark

/-- At byte `y` of the disk, which is in the sector in hand or follows it. -/
def SmapFree.At (st : SmapFree) (i y : ℕ) : Prop :=
  ∃ s : ℕ, st.s = s ∧ i ≤ 512 ∧ y = 512 * s + i

/-- The disk with the sector in hand written back. -/
def SmapFree.full (st : SmapFree) : Bytes := wrSect st.disk st.s st.fsbuf

/-- The byte at hand is then one of the sector in hand. -/
theorem nextByte_ok {st : SmapFree} {i y : ℕ} (hat : st.At i y) (hy : y + 512 < 2 ^ 31) :
    (nextByte st i).1.full = st.full ∧ (nextByte st i).1.At (nextByte st i).2 y ∧
      (nextByte st i).2 < 512 := by
  obtain ⟨s, hs, hi, rfl⟩ := hat
  unfold nextByte
  split_ifs with hend
  · have hend : i = 512 := hend
    have hnext : st.s + 1 = (s + 1 : ℕ) := by omega
    refine ⟨?_, ⟨s + 1, hnext, Nat.zero_le _, ?_⟩, Nat.zero_lt_succ _⟩
    swap
    · dsimp only
      omega
    unfold SmapFree.full
    rw [hnext]
    exact wrSect_rdSect (by omega) _
  · have hend : i ≠ 512 := hend
    exact ⟨rfl, ⟨s, hs, hi, rfl⟩, by omega⟩

theorem SmapFree.put_ok {st : SmapFree} {i y c : ℕ} (hat : st.At i y) (hi : i < 512)
    (hy : y < 2 ^ 31) (hc : c ≤ 8) {v : Byte} (hv : v = st.fsbuf i &&& ((0xFF <<< c : ℕ) : Byte)) :
    Unmarked st.full (wrSect st.disk st.s (put st.fsbuf i v)) (8 * y) c := by
  obtain ⟨s, hs, -, rfl⟩ := hat
  have hput := (Unmarked.put_and st.fsbuf i hc).wrSect st.disk (s := s) (by omega)
    (by omega)
  rw [← hv] at hput
  unfold SmapFree.full
  rw [hs, show 8 * (512 * s + i) = 4096 * s + 8 * i by omega]
  exact hput

/-- A byte of the sector in hand is one of the disk with the sector written back. -/
theorem SmapFree.full_byte {st : SmapFree} {i y : ℕ} (hat : st.At i y) (hi : i < 512)
    (hy : y < 2 ^ 31) : st.full y = st.fsbuf i := by
  obtain ⟨s, hs, -, rfl⟩ := hat
  rw [SmapFree.full, hs, wrSect_apply (by omega), if_pos (by omega)]
  congr 1
  omega

theorem SmapFree.fsbuf_bit {st : SmapFree} {i y k : ℕ} (hat : st.At i y) (hi : i < 512)
    (hy : y < 2 ^ 31) (hk : k < 8) : bit st.fsbuf (8 * i + k) = bit st.full (8 * y + k) := by
  refine bit_congr ?_ (by omega)
  rw [show (8 * i + k) / 8 = i by omega, show (8 * y + k) / 8 = y by omega,
    SmapFree.full_byte hat hi hy]

theorem clearBytes_ok {k i y : ℕ} {st : SmapFree} (hat : st.At i y) (hy : y + k + 512 < 2 ^ 31)
    (hset : Full st.full (8 * y) (8 * k)) : ∃ st' i', clearBytes k st i = .ok (st', i') ∧
      Unmarked st.full st'.full (8 * y) (8 * k) ∧ st'.At i' (y + k) := by
  induction k generalizing i y st with
  | zero => exact ⟨_, _, rfl, .refl _ _, hat⟩
  | succ k ih =>
    obtain ⟨hfull, hat₁, hi₁⟩ := nextByte_ok hat (by omega)
    rw [clearBytes]
    generalize nextByte st i = r at hfull hat₁ hi₁
    obtain ⟨st₁, i₁⟩ := r
    dsimp only at hfull hat₁ hi₁ ⊢
    have hbyte : st₁.fsbuf i₁ = 0xFF := eq_ff_iff.2 fun x hx => by
      rw [SmapFree.fsbuf_bit hat₁ hi₁ (by omega) hx, hfull]
      exact hset _ (by omega) (by omega)
    rw [assert_of hbyte, ok_bind]
    have hput := SmapFree.put_ok hat₁ hi₁ (by omega) (le_refl 8) (v := 0) (by simp)
    rw [hfull] at hput
    have hat₂ : SmapFree.At { st₁ with fsbuf := put st₁.fsbuf i₁ 0 } (i₁ + 1) (y + 1) := by
      obtain ⟨s, hs, -, hy₁⟩ := hat₁
      exact ⟨s, hs, hi₁, by omega⟩
    obtain ⟨st', i', hok, hrest, hat'⟩ :=
      ih hat₂ (by omega) ((hset.sub (by omega) (by omega)).unmarked hput (by omega))
    refine ⟨st', i', hok, ?_, by rwa [show y + (k + 1) = y + 1 + k by omega]⟩
    rw [show 8 * (k + 1) = 8 + 8 * k by omega]
    exact hput.trans hrest

/-- The bits below `c` of a byte are set. -/
theorem and_mask_eq {f : Bytes} {j c : ℕ} (hc : c ≤ 8) (h : Full f (8 * j) c) :
    f j &&& (~~~(((0xFF <<< c : ℕ) : Byte))) = ~~~(((0xFF <<< c : ℕ) : Byte)) := by
  have hmask : ∀ c ≤ 8, ∀ i < 8, (~~~(((0xFF <<< c : ℕ) : Byte))).getLsbD i = decide (i < c) := by
    decide
  refine BitVec.eq_of_getLsbD_eq fun i hi => ?_
  rw [BitVec.getLsbD_and, hmask c hc i hi]
  by_cases hic : i < c
  · have hbit := h (8 * j + i) (by omega) (by omega)
    rw [bit, show (8 * j + i) / 8 = j by omega, show (8 * j + i) % 8 = i by omega] at hbit
    rw [hbit, Bool.true_and]
  · rw [decide_eq_false hic, Bool.and_false]

theorem toNat_sub_tdiv (n k : ℕ) : (((n : Int) - k).tdiv 8).toNat = (n - k) / 8 := by
  rcases Nat.le_total k n with hk | hk
  · rw [Int.tdiv_eq_ediv_of_nonneg (by omega)]
    omega
  · have hneg : (n : Int) - k = -((k - n : ℕ) : Int) := by omega
    rw [hneg, Int.neg_tdiv, Int.tdiv_eq_ediv_of_nonneg (by omega)]
    omega

/-- Where the bits of the sectors, from bit `b` on, are set they are cleared. -/
theorem freeSmap_ok {startSect nrSects : BitVec 32} (hP : SmapPlaced sb)
    (hidx : (startSect - sb.n1stSect + 1).toInt = b) (hnr : nrSects.toNat = n)
    (hend : b + n ≤ 4096 * sb.nrSmapSects) (hset : Full disk (smapBase sb + b) n) :
    ∃ disk', freeSmap sb disk startSect nrSects = .ok disk' ∧
      Unmarked disk disk' (smapBase sb + b) n := by
  have hreach := hP.reach
  have hsect : sectorSize = 512 := rfl
  unfold smapBase at hset ⊢
  unfold freeSmap
  dsimp only
  rw [hidx, if_neg (by omega), Int.toNat_natCast, hnr, toNat_sub_tdiv]
  have hs : (2 + sb.nrImapSects + ((b / 8 : ℕ) : Int) / sectorSize) =
      (2 + sb.nrImapSects + b / 8 / 512 : ℕ) := by
    rw [hsect]
    omega
  rw [hs, hsect, ← List.range'_eq_map_range]
  -- the bits of the first byte
  have hfirst : Full (rdSect disk (2 + sb.nrImapSects + b / 8 / 512 : ℕ))
    (8 * (b / 8 % 512) + b % 8)
      (min (8 - b % 8) n) := fun x hx hx' => by
    rw [← hset (4096 * (2 + sb.nrImapSects + b / 8 / 512) + x) (by omega) (by omega)]
    refine bit_congr ?_ (by omega)
    rw [rdSect_apply (by omega)]
    congr 1
    omega
  obtain ⟨f₁, hbits, hclear⟩ := clearBits_ok hfirst
  rw [hbits, ok_bind]
  have h₁ := hclear.wrSect disk (s := 2 + sb.nrImapSects + b / 8 / 512) (by omega) (by omega)
  rw [wrSect_rdSect (by omega)] at h₁
  have hat : SmapFree.At ⟨disk, (2 + sb.nrImapSects + b / 8 / 512 : ℕ), f₁⟩ (b / 8 % 512 + 1)
      (512 * (2 + sb.nrImapSects) + b / 8 + 1) :=
    ⟨2 + sb.nrImapSects + b / 8 / 512, rfl, by omega, by omega⟩
  -- whole bytes
  have hrest : Full (SmapFree.full ⟨disk, (2 + sb.nrImapSects + b / 8 / 512 : ℕ), f₁⟩)
      (8 * (512 * (2 + sb.nrImapSects) + b / 8 + 1)) (n - min (8 - b % 8) n) :=
    Full.unmarked (fun x hx hx' => hset x (by omega) (by omega)) h₁ (by omega)
  obtain ⟨st, i, hbytes, h₂, hat⟩ := clearBytes_ok (k := (n - (8 - b % 8)) / 8) hat (by omega)
    (hrest.sub le_rfl (by omega))
  rw [hbytes, ok_bind]
  -- the bits of the last byte
  obtain ⟨hfull, hat, hi⟩ := nextByte_ok hat (by omega)
  have hend' : Full st.full (8 * (512 * (2 + sb.nrImapSects) + b / 8 + 1 + (n - (8 - b % 8)) / 8))
      (n - min (8 - b % 8) n - 8 * ((n - (8 - b % 8)) / 8)) :=
    (hrest.sub (by omega) (by omega)).unmarked h₂ (by omega)
  have hlast : Full (nextByte st i).1.fsbuf (8 * (nextByte st i).2)
      (n - min (8 - b % 8) n - 8 * ((n - (8 - b % 8)) / 8)) := fun x hx hx' => by
    obtain ⟨k, rfl⟩ := Nat.exists_eq_add_of_le hx
    rw [SmapFree.fsbuf_bit hat hi (by omega) (by omega), hfull]
    exact hend' _ (by omega) (by omega)
  rw [assert_of (and_mask_eq (by omega) hlast), ok_bind]
  have h₃ := SmapFree.put_ok hat hi (by omega)
    (show n - min (8 - b % 8) n - 8 * ((n - (8 - b % 8)) / 8) ≤ 8 by omega) rfl
  rw [hfull] at h₃
  refine ⟨_, rfl, fun x => ?_⟩
  rw [h₃ x, h₂ x, SmapFree.full, h₁ x, Bool.and_assoc, Bool.and_assoc, ← Bool.not_or,
    ← Bool.not_or, ← Bool.decide_or, ← Bool.decide_or]
  congr 2
  exact decide_eq_decide.2 (by omega)

/-- The bit that the start of a file gives, where positions are small. -/
theorem bitIdx_of_layout {startSect : BitVec 32} (hL : Layout sb)
    (hstart : startSect.toNat + 1 = b + sb.n1stSect) (hend : b ≤ 4096 * sb.nrSmapSects) :
    (startSect - sb.n1stSect + 1).toInt = b := by
  have himap := hL.imap
  have hfirst := hL.first
  have hsmall := hL.small
  have hn1 : (sb.n1stSect : BitVec 32).toNat = sb.n1stSect := by
    simp only [BitVec.natCast_eq_ofNat, BitVec.toNat_ofNat]
    omega
  have hnat : (startSect - sb.n1stSect + 1).toNat = b := by
    bv_omega
  rw [BitVec.toInt_eq_toNat_of_lt (by omega), hnat]

/-- Bits that were clear, set and cleared again. -/
theorem Marked.undone {f f' f'' : Bytes} {lo c : ℕ} (h : Marked f f' lo c)
    (hclear : Unmarked f' f'' lo c) : f'' = f := by
  funext y
  refine eq_of_bits fun x _ => ?_
  rw [hclear x, h.bit_eq x]
  by_cases hx : lo ≤ x ∧ x < lo + c
  · rw [h.clear x hx.1 hx.2, decide_eq_true hx]
    rfl
  · rw [decide_eq_false hx, Bool.or_false]
    exact Bool.and_true _

theorem Marked.full {f f' : Bytes} {lo c : ℕ} (h : Marked f f' lo c) : Full f' lo c := by
  intro x hx hx'
  rw [h.bit_eq x, decide_eq_true ⟨hx, hx'⟩, Bool.or_true]

/-- The bit of the sector that `alloc_smap_bit` returns. -/
theorem bitIdx_eq {n1st : ℕ} (hfirst : 2 ≤ n1st) :
    BitVec.ofNat 32 (b + n1st - 1) - (n1st : BitVec 32) + 1 = BitVec.ofNat 32 b := by
  obtain ⟨k, rfl⟩ := Nat.exists_eq_add_of_le' hfirst
  rw [show b + (k + 2) - 1 = b + (k + 1) by omega, BitVec.natCast_eq_ofNat, BitVec.ofNat_add b,
    show k + 2 = k + 1 + 1 by omega, BitVec.ofNat_add (k + 1)]
  generalize BitVec.ofNat 32 b = x
  generalize BitVec.ofNat 32 (k + 1) = y
  bv_omega

end MyOS
