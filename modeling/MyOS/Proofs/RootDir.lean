import MyOS.BootLoader
import MyOS.Lib.Masks
import MyOS.Proofs.Boot

/-!
# The search in the root directory

A sector holds sixteen entries, each at a multiple of 32 bytes, so that the mask leads back to the
entry from wherever the comparison has ended. The entry that is found is the first one with the
name, and where there is none the search ends for ever.
-/

namespace MyOS

open Memory Block

/-! ## The name -/

/-- The bytes at `a` are the name. -/
def NameAt (f : Bytes) (a : ℕ) (name : List Byte) : Prop := bytesFrom f a name.length = name

instance (f : Bytes) (a : ℕ) (name : List Byte) : Decidable (NameAt f a name) :=
  inferInstanceAs (Decidable (_ = _))

theorem nameAt_cons {f : Bytes} {a : ℕ} {al : Byte} {name : List Byte} :
    NameAt f a (al :: name) ↔ f a = al ∧ NameAt f (a + 1) name := by
  unfold NameAt bytesFrom
  rw [List.length_cons, List.range'_succ, List.map_cons, List.cons_eq_cons]

theorem linearAddr_add (es : BitVec 16) {di : BitVec 16} {k : ℕ} (h : di.toNat + k < 0x10000) :
    linearAddr es (di + BitVec.ofNat 16 k) = linearAddr es di + k := by
  rw [linearAddr, linearAddr, BitVec.toNat_add, BitVec.toNat_ofNat]
  omega

variable {mem : Bytes} {es : BitVec 16}

theorem cmpFilename_eq (mem : Bytes) (es : BitVec 16) : ∀ (name : List Byte) (di : BitVec 16),
    di.toNat + name.length < 0x10000 → ∃ k ≤ name.length,
      cmpFilename mem es name di =
        (decide (NameAt mem (linearAddr es di) name), di + BitVec.ofNat 16 k) ∧
      (NameAt mem (linearAddr es di) name → k = name.length)
  | [], di, _ => ⟨0, le_rfl, by rw [BitVec.add_zero]; rfl, fun _ => rfl⟩
  | al :: name, di, hdi => by
    have hcons : NameAt mem (linearAddr es di) (al :: name) ↔
        mem (linearAddr es di) = al ∧ NameAt mem (linearAddr es (di + 1)) name := by
      rw [nameAt_cons, ← linearAddr_add es (k := 1) (by rw [List.length_cons] at hdi; omega)]
      rfl
    rw [List.length_cons] at hdi
    rw [cmpFilename]
    by_cases hal : al = mem (linearAddr es di)
    · have hnext : (di + 1).toNat = di.toNat + 1 := by
        rw [BitVec.toNat_add]
        exact Nat.mod_eq_of_lt (by change di.toNat + 1 < _; omega)
      obtain ⟨k, hk, heq, hall⟩ := cmpFilename_eq mem es name (di + 1) (by omega)
      have hadd : di + 1 + BitVec.ofNat 16 k = di + BitVec.ofNat 16 (k + 1) := by
        rw [Nat.add_comm k, BitVec.ofNat_add, ← BitVec.add_assoc]
        rfl
      refine ⟨k + 1, Nat.succ_le_succ hk, ?_, fun h => congrArg Nat.succ (hall (hcons.1 h).2)⟩
      rw [if_pos hal, heq, hadd, decide_eq_decide.2 (hcons.trans (and_iff_right hal.symm))]
    · have hne : ¬ NameAt mem (linearAddr es di) (al :: name) := fun h => hal (hcons.1 h).1.symm
      refine ⟨0, Nat.zero_le _, ?_, fun h => absurd h hne⟩
      rw [if_neg hal, decide_eq_false hne, BitVec.add_zero]

/-- The mask leads back to the entry. -/
theorem and_entry {mask : BitVec 16} {b : ℕ} (hb : b ≤ 5)
    (hmask : ∀ i < 16, mask.getLsbD i = decide (b ≤ i)) {di : BitVec 16} {k : ℕ}
    (hdi : di.toNat % 32 = 0) (hk : k < 2 ^ b) : (di + BitVec.ofNat 16 k) &&& mask = di := by
  have hlt := di.isLt
  have hpow : 2 ^ b ∣ 32 := Nat.pow_dvd_pow 2 hb
  have hle : 2 ^ b ≤ 32 := Nat.le_of_dvd (by decide) hpow
  obtain ⟨q, hq⟩ := hpow.trans (Nat.dvd_of_mod_eq_zero hdi)
  have hsum : (di + BitVec.ofNat 16 k).toNat = 2 ^ b * q + k := by
    rw [BitVec.toNat_add, BitVec.toNat_ofNat]
    omega
  refine BitVec.eq_of_toNat_eq ?_
  rw [Mask.toNat_and_high hmask, hsum, hq, Nat.mul_add_div (Nat.two_pow_pos b),
    Nat.div_eq_of_lt hk, Nat.add_zero, Nat.mul_comm]

theorem boot_mask : ∀ i < 16, (0xFFE0 : BitVec 16).getLsbD i = decide (5 ≤ i) := by decide

theorem loader_mask : ∀ i < 16, (0xFFF0 : BitVec 16).getLsbD i = decide (4 ≤ i) := by decide

theorem bytesFrom_shift {f g : Bytes} {a b n : ℕ} (h : ∀ i < n, f (a + i) = g (b + i)) :
    bytesFrom f a n = bytesFrom g b n := by
  unfold bytesFrom
  rw [List.range'_eq_map_range, List.range'_eq_map_range, List.map_map, List.map_map]
  exact List.map_congr_left fun i hi => h i (List.mem_range.1 hi)

theorem nameAt_congr {f g : Bytes} {a b : ℕ} {name : List Byte}
    (h : ∀ i < name.length, f (a + i) = g (b + i)) : NameAt f a name ↔ NameAt g b name := by
  unfold NameAt
  rw [bytesFrom_shift h]

/-! ## A sector -/

/-- The entry `j` of those from `a` on is the first with the name. -/
structure FirstNamed (f : Bytes) (a : ℕ) (name : List Byte) (j : ℕ) : Prop where
  named : NameAt f (a + 32 * j) name
  first : ∀ i < j, ¬ NameAt f (a + 32 * i) name

theorem searchForFile_eq (mem : Bytes) (es : BitVec 16) {name : List Byte}
    (hname : name.length < 32) : ∀ (dx : ℕ) (di : BitVec 16),
    di.toNat % 32 = 0 → di.toNat + 32 * dx < 0x10000 →
      (∃ j < dx, FirstNamed mem (linearAddr es di) name j ∧ searchForFile mem es name dx di =
        some (di + BitVec.ofNat 16 (32 * j) + BitVec.ofNat 16 name.length)) ∨
      ((∀ j < dx, ¬ NameAt mem (linearAddr es di + 32 * j) name) ∧
        searchForFile mem es name dx di = none)
  | 0, di, _, _ => .inr ⟨fun j hj => absurd hj (Nat.not_lt_zero j), rfl⟩
  | dx + 1, di, hdi, hroom => by
    obtain ⟨k, hk, hcmp, hall⟩ := cmpFilename_eq mem es name di (by omega)
    by_cases hn : NameAt mem (linearAddr es di) name
    · refine .inl ⟨0, Nat.succ_pos dx, ⟨hn, fun i hi => absurd hi (Nat.not_lt_zero i)⟩, ?_⟩
      rw [searchForFile, hcmp, decide_eq_true hn, hall hn, Nat.mul_zero, BitVec.add_zero]
      rfl
    · have hback := and_entry le_rfl boot_mask hdi (show k < 2 ^ 5 by omega)
      have hstep : searchForFile mem es name (dx + 1) di =
          searchForFile mem es name dx (di + BitVec.ofNat 16 32) := by
        rw [searchForFile, hcmp, decide_eq_false hn]
        dsimp only
        rw [if_neg Bool.false_ne_true, hback]
        rfl
      have hnext : (di + BitVec.ofNat 16 32).toNat = di.toNat + 32 := by
        rw [BitVec.toNat_add]
        exact Nat.mod_eq_of_lt (by change di.toNat + 32 < _; omega)
      have haddr (j : ℕ) : linearAddr es (di + BitVec.ofNat 16 32) + 32 * j =
          linearAddr es di + 32 * (j + 1) := by
        rw [linearAddr_add es (by omega)]
        omega
      have hrest : ∀ n, (∀ j < n, ¬ NameAt mem (linearAddr es (di + BitVec.ofNat 16 32) + 32 * j)
          name) → ∀ j < n + 1, ¬ NameAt mem (linearAddr es di + 32 * j) name := by
        intro n hnone j hj
        cases j with
        | zero => exact hn
        | succ j =>
          rw [← haddr]
          exact hnone j (Nat.lt_of_succ_lt_succ hj)
      rcases searchForFile_eq mem es hname dx (di + BitVec.ofNat 16 32) (by omega) (by omega) with
        ⟨j, hj, hfirst, heq⟩ | ⟨hnone, heq⟩
      · refine .inl ⟨j + 1, Nat.succ_lt_succ hj, ⟨?_, hrest j hfirst.first⟩, ?_⟩
        · rw [← haddr]
          exact hfirst.named
        · rw [hstep, heq, Nat.mul_succ, Nat.add_comm (32 * j), BitVec.ofNat_add 32,
            ← BitVec.add_assoc]
      · exact .inr ⟨hrest dx hnone, hstep.trans heq⟩

/-! ## All sectors -/

/-- The sector `s` is what has been read. -/
structure SectorRead (disk : Bytes) (seg off : BitVec 16) (s : ℕ) (m m' : Boot) : Prop where
  es : m'.es = seg
  stack : m'.stack = m.stack
  sector : ∀ x < 512, m'.mem (linearAddr seg off + x) = disk (512 * s + x)

section Search

variable {bios : Bios} {disk : Bytes} {tries n : ℕ} {seg off : BitVec 16} {name : List Byte}
  (hb : BiosWorks bios disk tries) (hn : tries ≤ n)
  (hname : name.length < 32) (hoff : off.toNat % 32 = 0) (hroom : off.toNat + 512 < 0x10000)
  (hfit : linearAddr seg off % 0x10000 + 512 ≤ 0x10000)

include hb hn hname hoff hroom hfit

theorem searchInRootDir_succ {s : ℕ} (hs : s < totSec) (left : ℕ) (m : Boot) :
    ∃ m₁, SectorRead disk seg off s m m₁ ∧
      ((∃ j < 16, FirstNamed disk (512 * s) name j ∧
        searchInRootDir bios n seg off name (left + 1) (BitVec.ofNat 16 s) m =
          .ok (off + BitVec.ofNat 16 (32 * j) + BitVec.ofNat 16 name.length, m₁)) ∨
      ((∀ j < 16, ¬ NameAt disk (512 * s + 32 * j) name) ∧
        searchInRootDir bios n seg off name (left + 1) (BitVec.ofNat 16 s) m =
          searchInRootDir bios n seg off name left (BitVec.ofNat 16 (s + 1)) m₁)) := by
  have htot : totSec = 2880 := rfl
  have hone : (1 : Byte).toNat = 1 := rfl
  obtain ⟨ax, cx, dx, hread⟩ := readSector_ok (n := n) hb hn (s := s) (c := 1)
    (m := { m with ax := BitVec.ofNat 16 s, es := seg, bx := off }.setCl 1) rfl
    (Boot.setCl_low 1) (by decide) (by omega) hs (by rw [hone]; exact hfit)
  obtain ⟨m₁, hm₁, hdone⟩ : ∃ m₁, readSector bios n
      ({ m with ax := BitVec.ofNat 16 s, es := seg, bx := off }.setCl 1) = .ok m₁ ∧
        SectorRead disk seg off s m m₁ := by
    refine ⟨_, hread, rfl, rfl, fun x hx => ?_⟩
    dsimp only [Boot.setCl]
    rw [hone, Nat.mul_one, blit_inside hx, from_apply]
  have hentry (j : ℕ) (hj : j < 16) : NameAt m₁.mem (linearAddr m₁.es off + 32 * j) name ↔
      NameAt disk (512 * s + 32 * j) name := by
    rw [hdone.es]
    refine nameAt_congr fun i hi => ?_
    rw [Nat.add_assoc, Nat.add_assoc]
    exact hdone.sector _ (by omega)
  refine ⟨m₁, hdone, ?_⟩
  rw [searchInRootDir]
  dsimp only
  rw [hm₁, ok_bind]
  rcases searchForFile_eq m₁.mem m₁.es hname 16 off hoff (by omega) with
    ⟨j, hj, hfirst, heq⟩ | ⟨hnone, heq⟩
  · refine .inl ⟨j, hj, ⟨(hentry j hj).1 hfirst.named, fun i hi h => ?_⟩, by rw [heq]⟩
    exact hfirst.first i hi ((hentry i (by omega)).2 h)
  · refine .inr ⟨fun j hj h => hnone j hj ((hentry j hj).2 h), ?_⟩
    rw [heq, BitVec.ofNat_add]
    rfl

/-- The search ends with the first entry of the name, whose sector has been read, or not at all. -/
theorem searchInRootDir_eq : ∀ (left : ℕ) {s : ℕ} (m : Boot), s + left ≤ totSec →
    (∃ j < 16 * left, FirstNamed disk (512 * s) name j ∧
      ∃ m', SectorRead disk seg off (s + j / 16) m m' ∧
        searchInRootDir bios n seg off name left (BitVec.ofNat 16 s) m =
          .ok (off + BitVec.ofNat 16 (32 * (j % 16)) + BitVec.ofNat 16 name.length, m')) ∨
    ((∀ j < 16 * left, ¬ NameAt disk (512 * s + 32 * j) name) ∧
      searchInRootDir bios n seg off name left (BitVec.ofNat 16 s) m = .error .spin)
  | 0, _, _, _ => .inr ⟨fun j hj => absurd hj (Nat.not_lt_zero j), rfl⟩
  | left + 1, s, m, hs => by
    obtain ⟨m₁, hread, ⟨j, hj, hfirst, heq⟩ | ⟨hnone, heq⟩⟩ :=
      searchInRootDir_succ hb hn hname hoff hroom hfit (s := s) (by omega) left m
    · refine .inl ⟨j, by omega, hfirst, m₁, ?_, ?_⟩
      · rwa [Nat.div_eq_of_lt hj]
      · rwa [Nat.mod_eq_of_lt hj]
    · -- an entry of the sectors behind is sixteen entries further on
      have hnext (j : ℕ) : 512 * (s + 1) + 32 * j = 512 * s + 32 * (j + 16) := by omega
      have hrest : ∀ k, (∀ j < k, ¬ NameAt disk (512 * (s + 1) + 32 * j) name) →
          ∀ j < k + 16, ¬ NameAt disk (512 * s + 32 * j) name := by
        intro k hlater j hj
        rcases Nat.lt_or_ge j 16 with hlt | hge
        · exact hnone j hlt
        · have := hlater (j - 16) (by omega)
          rwa [hnext, Nat.sub_add_cancel hge] at this
      rcases searchInRootDir_eq left (s := s + 1) m₁ (by omega) with
        ⟨j, hj, hfirst, m', hread', heq'⟩ | ⟨hlater, heq'⟩
      · refine .inl ⟨j + 16, by omega, ⟨hnext j ▸ hfirst.named, hrest j hfirst.first⟩, m',
          ⟨hread'.es, hread'.stack.trans hread.stack, ?_⟩, ?_⟩
        · rw [show s + (j + 16) / 16 = s + 1 + j / 16 by omega]
          exact hread'.sector
        · rw [heq, heq', Nat.add_mod_right]
      · exact .inr ⟨hrest (16 * left) hlater, heq.trans heq'⟩

end Search

end MyOS
