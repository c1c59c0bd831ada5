import MyOS.BootLoader
import MyOS.Lib.Masks
import MyOS.Lib.Stack

/-!
# Paging leaves addresses as they are

The directory and the tables are filled word by word, each word a page further on. The tables lie
one behind the other, so that the entry for an address is found at its page number, which is what
the entry holds.
-/

namespace MyOS

open Memory

/-! ## The memory that is there -/

/-- `struct ARDS`, number `i`. -/
def ardsEnd (mem : Mem) (memChkBuf : Addr) (i : ℕ) : BitVec 32 :=
  let esi := memChkBuf + BitVec.ofNat 32 (20 * i)
  load32 mem esi + load32 mem (esi + 8)

/-- The range is one of memory. -/
def ArdsMemory (mem : Mem) (memChkBuf : Addr) (i : ℕ) : Prop :=
  load32 mem (memChkBuf + BitVec.ofNat 32 (20 * i) + 16) = 1

theorem ards_succ (a : Addr) (i : ℕ) :
    a + BitVec.ofNat 32 (20 * (i + 1)) = a + 20 + BitVec.ofNat 32 (20 * i) := by
  rw [Nat.mul_succ, BitVec.ofNat_add, BitVec.add_assoc, BitVec.add_comm (20 : BitVec 32)]
  rfl

theorem ards_zero (a : Addr) : a + BitVec.ofNat 32 (20 * 0) = a := BitVec.add_zero a

/-- `dwMemSize` is not below what it was, nor below the end of a range; and it is one of them. -/
theorem dispMemInfo_greatest (mem : Mem) : ∀ (n : ℕ) (esi : Addr) (size : BitVec 32),
    size ≤ dispMemInfo mem n esi size ∧
      (∀ i < n, ArdsMemory mem esi i → ardsEnd mem esi i ≤ dispMemInfo mem n esi size) ∧
      (dispMemInfo mem n esi size = size ∨
        ∃ i < n, ArdsMemory mem esi i ∧ dispMemInfo mem n esi size = ardsEnd mem esi i)
  | 0, esi, size => ⟨BitVec.le_refl _, fun i hi => absurd hi (Nat.not_lt_zero i), .inl rfl⟩
  | n + 1, esi, size => by
    have hshift : ∀ i, (ArdsMemory mem esi (i + 1) ↔ ArdsMemory mem (esi + 20) i) ∧
        ardsEnd mem esi (i + 1) = ardsEnd mem (esi + 20) i := fun i => by
      unfold ArdsMemory ardsEnd
      rw [ards_succ]
      exact ⟨Iff.rfl, rfl⟩
    obtain ⟨size', hnext, hle, hend, hone⟩ : ∃ size',
        dispMemInfo mem (n + 1) esi size = dispMemInfo mem n (esi + 20) size' ∧ size ≤ size' ∧
        (ArdsMemory mem esi 0 → ardsEnd mem esi 0 ≤ size') ∧
        (size' = size ∨ ArdsMemory mem esi 0 ∧ size' = ardsEnd mem esi 0) := by
      refine ⟨_, rfl, ?_⟩
      unfold ArdsMemory ardsEnd
      rw [ards_zero]
      dsimp only
      split_ifs with htype hlt
      · exact ⟨BitVec.le_refl _, fun _ => BitVec.le_of_lt hlt, .inl rfl⟩
      · exact ⟨BitVec.not_lt.1 hlt, fun _ => BitVec.le_refl _, .inr ⟨htype, rfl⟩⟩
      · exact ⟨BitVec.le_refl _, fun h => absurd h htype, .inl rfl⟩
    obtain ⟨ihle, ihend, ihone⟩ := dispMemInfo_greatest mem n (esi + 20) size'
    rw [hnext]
    refine ⟨BitVec.le_trans hle ihle, fun i hi hmem => ?_, ?_⟩
    · cases i with
      | zero => exact BitVec.le_trans (hend hmem) ihle
      | succ i =>
        rw [(hshift i).2]
        exact ihend i (Nat.lt_of_succ_lt_succ hi) ((hshift i).1.1 hmem)
    · rcases ihone with h | ⟨i, hi, hmem, h⟩
      · rw [h]
        exact hone.imp id fun hmem => ⟨0, Nat.succ_pos n, hmem⟩
      · refine .inr ⟨i + 1, Nat.succ_lt_succ hi, (hshift i).1.2 hmem, ?_⟩
        rw [h, (hshift i).2]

/-! ## The tables -/

/-- The words that `stosd` puts there. -/
def pageWords (eax : BitVec 32) (n : ℕ) : List (BitVec 32) :=
  (List.range n).map fun i => eax + BitVec.ofNat 32 (4096 * i)

theorem pageWords_succ (eax : BitVec 32) (n : ℕ) :
    pageWords eax (n + 1) = eax :: pageWords (eax + 4096) n := by
  unfold pageWords
  rw [List.range_succ_eq_map, List.map_cons, List.map_map]
  refine congrArg₂ _ (BitVec.add_zero eax) (List.map_congr_left fun i _ => ?_)
  change eax + BitVec.ofNat 32 (4096 * (i + 1)) = _
  rw [Nat.mul_succ, Nat.add_comm, BitVec.ofNat_add, ← BitVec.add_assoc]
  rfl

theorem stosPages_eq : ∀ (n : ℕ) (edi : Addr) (eax : BitVec 32) (mem : Mem),
    stosPages n edi eax mem = storeAll mem edi (pageWords eax n)
  | 0, _, _, _ => rfl
  | n + 1, edi, eax, mem => by
    rw [pageWords_succ, storeAll, ← stosPages_eq]
    rfl

theorem length_pageWords (eax : BitVec 32) (n : ℕ) : (pageWords eax n).length = n := by
  rw [pageWords, List.length_map, List.length_range]

theorem load32_stosPages {n i : ℕ} (hi : i < n) (hn : 4 * n ≤ 2 ^ 32) (edi : Addr)
    (eax : BitVec 32) (mem : Mem) : load32 (stosPages n edi eax mem)
      (edi + BitVec.ofNat 32 (4 * i)) = eax + BitVec.ofNat 32 (4096 * i) := by
  have hlen := length_pageWords eax n
  have hwords : WordsAt (storeAll mem edi (pageWords eax n)) edi (pageWords eax n) :=
    storeAll_wordsAt _ (by rw [hlen]; exact hn)
  rw [stosPages_eq, hwords.load (by rw [hlen]; exact hi)]
  unfold pageWords
  rw [List.getElem_map, List.getElem_range]

theorem stosPages_of_not_within {n : ℕ} (hn : 4 * n ≤ 2 ^ 32) {edi x : Addr}
    (hx : ¬ Within x edi (4 * n)) (eax : BitVec 32) (mem : Mem) :
    stosPages n edi eax mem x = mem x := by
  have hlen := length_pageWords eax n
  rw [stosPages_eq]
  exact storeAll_of_not_within _ (by rw [hlen]; exact hn) (by rw [hlen]; exact hx)

/-! ## The walk -/

theorem toNat_pageOf (x : BitVec 32) : (pageOf x).toNat = x.toNat / 4096 * 4096 :=
  Mask.toNat_and_high (k := 12) (by decide) x

theorem toNat_offset (x : BitVec 32) : (x &&& 0xFFF).toNat = x.toNat % 4096 :=
  Mask.toNat_and_low (k := 12) rfl x

theorem toNat_index (x : BitVec 32) : (x &&& 0x3FF).toNat = x.toNat % 1024 :=
  Mask.toNat_and_low (k := 10) rfl x

theorem pageTables_toNat (size : BitVec 32) :
    (pageTables size).toNat = (size.toNat + 0x3FFFFF) / 0x400000 := by
  have hdiv : (size / 0x400000).toNat = size.toNat / 0x400000 := BitVec.toNat_udiv
  have hmod : (size % 0x400000).toNat = size.toNat % 0x400000 := BitVec.toNat_umod
  have hsize := size.isLt
  unfold pageTables
  dsimp only
  split_ifs with h
  · rw [h] at hmod
    change 0 = _ at hmod
    omega
  · have hne : size.toNat % 0x400000 ≠ 0 := fun h0 => h (BitVec.eq_of_toNat_eq (hmod.trans h0))
    rw [BitVec.toNat_add, hdiv]
    change (_ + 1) % _ = _
    omega

/-- What `SetupPaging` fills, of `n` tables. -/
structure Tables (mem : Mem) (n : ℕ) : Prop where
  dir : ∀ i < n, load32 mem (pageDirBase + BitVec.ofNat 32 (4 * i)) =
    (pageTblBase ||| pgFlags) + BitVec.ofNat 32 (4096 * i)
  tbl : ∀ i < 1024 * n, load32 mem (pageTblBase + BitVec.ofNat 32 (4 * i)) =
    pgFlags + BitVec.ofNat 32 (4096 * i)

theorem loopCount_of_pos {ecx : BitVec 32} (h : 0 < ecx.toNat) : loopCount ecx = ecx.toNat :=
  if_neg fun h0 => by
    rw [h0] at h
    exact Nat.lt_irrefl 0 h

theorem setupPaging_eq {size : BitVec 32} (h : size ≠ 0) (mem : Mem) : setupPaging size mem =
    stosPages (1024 * (pageTables size).toNat) pageTblBase pgFlags
      (stosPages (pageTables size).toNat pageDirBase (pageTblBase ||| pgFlags) mem) := by
  have hn := pageTables_toNat size
  have hsize := size.isLt
  have hpos : 0 < size.toNat := by
    refine Nat.pos_of_ne_zero fun h0 => h (BitVec.eq_of_toNat_eq h0)
  have hmul : (pageTables size * 1024).toNat = 1024 * (pageTables size).toNat := by
    rw [BitVec.toNat_mul, Nat.mul_comm]
    exact Nat.mod_eq_of_lt (by change 1024 * _ < _; omega)
  unfold setupPaging
  dsimp only
  rw [loopCount_of_pos (by omega), loopCount_of_pos (by omega), hmul]

theorem setupPaging_tables {size : BitVec 32} (h : size ≠ 0) (mem : Mem) :
    Tables (setupPaging size mem) (pageTables size).toNat ∧
      ∀ x, ¬ Within x pageDirBase (4 * (pageTables size).toNat) →
        ¬ Within x pageTblBase (4096 * (pageTables size).toNat) →
          setupPaging size mem x = mem x := by
  have hn := pageTables_toNat size
  have hsize := size.isLt
  rw [setupPaging_eq h]
  generalize (pageTables size).toNat = n at hn
  refine ⟨⟨fun i hi => ?_, fun i hi => load32_stosPages hi (by omega) _ _ _⟩, fun x hx hx' => ?_⟩
  · rw [← load32_stosPages hi (by omega) pageDirBase (pageTblBase ||| pgFlags) mem]
    refine load32_congr fun j hj => stosPages_of_not_within (by omega) (fun hw => ?_) _ _
    unfold Within pageTblBase pageDirBase at hw
    bv_omega
  · rw [stosPages_of_not_within (by omega) (by rwa [show 4 * (1024 * n) = 4096 * n by omega]),
      stosPages_of_not_within (by omega) hx]

/-- An entry with all three bits is there, and lets user code and writes through. -/
theorem and_flags {x : BitVec 32} (h : x.toNat % 8 = 7) : x &&& 1 = 1 ∧ x &&& 6 = 6 := by
  have h7 : x &&& 7 = 7 := by
    refine BitVec.eq_of_toNat_eq ?_
    rw [BitVec.toNat_and]
    exact (Nat.and_two_pow_sub_one_eq_mod x.toNat 3).trans h
  constructor
  · rw [show (1 : BitVec 32) = 7 &&& 1 by decide, ← BitVec.and_assoc, h7]
  · rw [show (6 : BitVec 32) = 7 &&& 6 by decide, ← BitVec.and_assoc, h7]

/-- The number of its page leads to the entry for an address, which holds that number. -/
theorem Tables.walk {mem : Mem} {n : ℕ} (h : Tables mem n) {la : Addr}
    (hla : la.toNat < 0x400000 * n) : walk mem pageDirBase la = some (la, 6) := by
  have hdir := h.dir (la.toNat / 0x400000) (by omega)
  have htbl := h.tbl (la.toNat / 4096) (by omega)
  generalize hpde : (pageTblBase ||| pgFlags) +
    BitVec.ofNat 32 (4096 * (la.toNat / 0x400000)) = pde at hdir
  generalize hpte : pgFlags + BitVec.ofNat 32 (4096 * (la.toNat / 4096)) = pte at htbl
  have hpde' : pde.toNat = 0x101007 + 4096 * (la.toNat / 0x400000) := by
    rw [← hpde, BitVec.toNat_add, BitVec.toNat_ofNat]
    change (0x101007 + _) % _ = _
    omega
  have hpte' : pte.toNat = 7 + 4096 * (la.toNat / 4096) := by
    rw [← hpte, BitVec.toNat_add, BitVec.toNat_ofNat]
    change (7 + _) % _ = _
    omega
  have hdirAddr : pageOf pageDirBase + (la >>> 22) * 4 =
      pageDirBase + BitVec.ofNat 32 (4 * (la.toNat / 0x400000)) := by
    refine congrArg (pageDirBase + ·) (BitVec.eq_of_toNat_eq ?_)
    rw [BitVec.toNat_mul, BitVec.toNat_ushiftRight, Nat.shiftRight_eq_div_pow, BitVec.toNat_ofNat,
      Nat.mul_comm]
    rfl
  have htblAddr : pageOf pde + ((la >>> 12) &&& (0x3FF : BitVec 32)) * 4 =
      pageTblBase + BitVec.ofNat 32 (4 * (la.toNat / 4096)) := by
    refine BitVec.eq_of_toNat_eq ?_
    rw [BitVec.toNat_add, toNat_pageOf, BitVec.toNat_mul, toNat_index, BitVec.toNat_ushiftRight,
      Nat.shiftRight_eq_div_pow, hpde', BitVec.toNat_add, BitVec.toNat_ofNat]
    change (_ + _ * 4 % _) % _ = (0x101000 + _) % _
    omega
  obtain ⟨hpde1, hpde6⟩ := and_flags (x := pde) (by omega)
  obtain ⟨hpte1, hpte6⟩ := and_flags (x := pte) (by omega)
  have haddr : pageOf pte + (la &&& (0xFFF : BitVec 32)) = la := by
    refine BitVec.eq_of_toNat_eq ?_
    have := la.isLt
    rw [BitVec.toNat_add, toNat_pageOf, toNat_offset, hpte']
    omega
  unfold MyOS.walk
  dsimp only
  rw [hdirAddr, hdir, hpde1, if_neg (by decide), htblAddr, htbl, hpte1, if_neg (by decide), haddr,
    BitVec.and_assoc, hpte6, hpde6]

/-- With the size that the ranges give, all addresses up to the end of each range of memory are
translated to themselves, for user code and for writes too. Nothing but the tables is written. -/
theorem setupPaging_identity {mem : Mem} {n : ℕ} {memChkBuf : Addr}
    (h : dispMemInfo mem n memChkBuf 0 ≠ 0) :
    let size := dispMemInfo mem n memChkBuf 0
    let mem' := setupPaging size mem
    (∀ i < n, ArdsMemory mem memChkBuf i → ∀ la, la < ardsEnd mem memChkBuf i →
      walk mem' pageDirBase la = some (la, 6)) ∧
    (∀ la : Addr, la.toNat / 0x400000 < (size.toNat + 0x3FFFFF) / 0x400000 →
      walk mem' pageDirBase la = some (la, 6)) ∧
    ∀ x, ¬ Within x pageDirBase (4 * ((size.toNat + 0x3FFFFF) / 0x400000)) →
      ¬ Within x pageTblBase (4096 * ((size.toNat + 0x3FFFFF) / 0x400000)) → mem' x = mem x := by
  obtain ⟨htables, hframe⟩ := setupPaging_tables h mem
  obtain ⟨-, hends, -⟩ := dispMemInfo_greatest mem n memChkBuf 0
  rw [pageTables_toNat] at htables hframe
  refine ⟨fun i hi hmem la hla => htables.walk ?_, fun la hla => htables.walk ?_, hframe⟩
  · have hlt : la.toNat < (dispMemInfo mem n memChkBuf 0).toNat :=
      Nat.lt_of_lt_of_le hla (hends i hi hmem)
    omega
  · omega

/-- What the machine says about its memory: one range, from 0 on to the end of the first
megabyte. -/
def sampleRange : Mem := fun x => if x = 0x800A then 0x10 else if x = 0x8010 then 1 else 0

/-- That memory is all that is translated to itself. -/
theorem setupPaging_identity_sample : dispMemInfo sampleRange 1 0x8000 0 = 0x100000 ∧
    ∀ la : Addr, la < 0x100000 →
      walk (setupPaging (dispMemInfo sampleRange 1 0x8000 0) sampleRange) pageDirBase la =
        some (la, 6) := by
  have hsize : dispMemInfo sampleRange 1 0x8000 0 = 0x100000 := by decide
  have hfound : dispMemInfo sampleRange 1 0x8000 0 ≠ 0 := by
    rw [hsize]
    decide
  obtain ⟨hends, -⟩ := setupPaging_identity hfound
  exact ⟨hsize, hends 0 Nat.one_pos (by decide : load32 sampleRange 0x8010 = 1)⟩

end MyOS
