import MyOS.Fs.Main

/-!
# What `mkfs` leaves on the disk

Every sector number of `mkfs` is small enough for the position of its sector to be exact, so each
write replaces 512 bytes at 512 times its number. The sizes of partition for which the layout comes
out right are those between the reservation for the log, which the assert subtracts from the size,
and the size at which the maps push the root directory into `cmd.tar`.
-/

namespace MyOS

open Memory Block

/-! ## Sectors -/

theorem sectPos_of_lt {s : ℕ} (h : s < 2 ^ 22) : sectPos s = s * 512 := by
  unfold sectPos
  have hprod : BitVec.ofInt 32 ((s : Int) * sectorSize) = BitVec.ofNat 32 (s * 512) := by
    rw [show ((s : Int) * sectorSize) = ((s * 512 : ℕ) : Int) by simp [sectorSize],
      BitVec.ofInt_natCast]
  have hmsb : (BitVec.ofNat 32 (s * 512)).msb = false := by
    rw [BitVec.msb_eq_decide, BitVec.toNat_ofNat, Nat.mod_eq_of_lt (by omega)]
    exact decide_eq_false (by omega)
  rw [hprod, BitVec.signExtend_eq_setWidth_of_msb_false hmsb, BitVec.toNat_setWidth,
    BitVec.toNat_ushiftRight, BitVec.toNat_setWidth, BitVec.toNat_ofNat, Nat.shiftRight_eq_div_pow]
  simp only [sectorSize]
  omega

theorem wrSect_apply {s : ℕ} (h : s < 2 ^ 22) (disk fsbuf : Bytes) (x : ℕ) :
    wrSect disk s fsbuf x =
      if 512 * s ≤ x ∧ x < 512 * s + 512 then fsbuf (x - 512 * s) else disk x := by
  unfold wrSect blit
  rw [sectPos_of_lt h, Nat.mul_comm s 512]
  rfl

theorem rdSect_apply {s : ℕ} (h : s < 2 ^ 22) (disk : Bytes) (x : ℕ) :
    rdSect disk s x = disk (512 * s + x) := by
  unfold rdSect
  rw [sectPos_of_lt h, from_apply, Nat.mul_comm]

theorem bit_wrSect {s : ℕ} (h : s < 2 ^ 22) (disk fsbuf : Bytes) (b : ℕ) :
    bit (wrSect disk s fsbuf) b =
      if 4096 * s ≤ b ∧ b < 4096 * s + 4096 then bit fsbuf (b - 4096 * s) else bit disk b := by
  unfold bit
  rw [wrSect_apply h]
  by_cases hb : 4096 * s ≤ b ∧ b < 4096 * s + 4096
  · rw [if_pos hb, if_pos (by omega), show (b - 4096 * s) / 8 = b / 8 - 512 * s by omega,
      show (b - 4096 * s) % 8 = b % 8 by omega]
  · rw [if_neg hb, if_neg (by omega)]

/-- A sector that is written back as it was read. -/
theorem wrSect_rdSect {s : ℕ} (h : s < 2 ^ 22) (disk : Bytes) :
    wrSect disk s (rdSect disk s) = disk := by
  funext x
  rw [wrSect_apply h, rdSect_apply h]
  split_ifs
  · congr 1
    omega
  · rfl

namespace Device

@[simp] theorem wr_disk (d : Device) (s : Int) (f : Bytes) : (d.wr s f).disk = wrSect d.disk s f :=
  rfl

@[simp] theorem wr_written (d : Device) (s : Int) (f : Bytes) :
    (d.wr s f).written = s :: d.written := rfl

end Device

/-! ## The sector map -/

/-- The sectors of the map that are cleared. -/
theorem clearSects_written (m : ℕ) : ∀ (n i : ℕ) (d : Device) (s : Int),
    s ∈ ((List.range' i n).foldl (fun d i => d.wr (m + i : ℕ) fun _ => 0) d).written ↔
      s ∈ d.written ∨ (m + i : ℕ) ≤ s ∧ s < (m + i + n : ℕ)
  | 0, i, d, s => by
    rw [List.range'_zero, List.foldl_nil, or_iff_left (by omega)]
  | n + 1, i, d, s => by
    rw [List.range'_succ, List.foldl_cons, clearSects_written m n, Device.wr_written,
      List.mem_cons, or_comm (b := s ∈ d.written), or_assoc]
    exact or_congr_right (by omega)

theorem clearSects_bit (m : ℕ) : ∀ (n i : ℕ) (d : Device) (b : ℕ), m + i + n ≤ 2 ^ 22 →
    bit ((List.range' i n).foldl (fun d i => d.wr (m + i : ℕ) fun _ => 0) d).disk b =
      (bit d.disk b && ! decide (4096 * (m + i) ≤ b ∧ b < 4096 * (m + i + n)))
  | 0, i, d, b, h => by
    simp only [List.range'_zero, List.foldl_nil]
    rw [decide_eq_false (by omega)]
    simp
  | n + 1, i, d, b, h => by
    rw [List.range'_succ, List.foldl_cons, clearSects_bit m n _ _ _ (by omega), Device.wr_disk,
      bit_wrSect (by omega)]
    have hzero : bit (fun _ => 0) (b - 4096 * (m + i)) = false := by simp [bit]
    by_cases hb : 4096 * (m + i) ≤ b ∧ b < 4096 * (m + i) + 4096
    · rw [if_pos hb, hzero, decide_eq_true (p := 4096 * (m + i) ≤ b ∧ _) (by omega)]
      simp
    · rw [if_neg hb]
      congr 2
      exact decide_eq_decide.2 (by omega)

/-- The writes up to the maps are those of the super block, the inode map and the sector map. -/
theorem mkfsMaps_written {sb : SuperBlock} (himap : sb.nrImapSects = 1) (hsmap : 0 < sb.nrSmapSects)
    {d : Device} (s : Int) : s ∈ (mkfsMaps sb d).written ↔
      s ∈ d.written ∨ 1 ≤ s ∧ s < (3 + sb.nrSmapSects : ℕ) := by
  unfold mkfsMaps
  rw [clearSects_written, himap]
  simp only [Device.wr_written, List.mem_cons]
  by_cases hd : s ∈ d.written
  · simp [hd]
  · simp only [hd, or_false, false_or]
    omega

/-- The first bits of the sector map: the reserved one and those of the root directory. -/
theorem bit_rootBits (b : ℕ) :
    bit ((List.range ((nrDefaultFileSects + 1) % 8)).foldl
      (fun f j => setBit f (8 * ((nrDefaultFileSects + 1) / 8) + j))
      fun i => if i < (nrDefaultFileSects + 1) / 8 then 0xFF else 0) b = decide (b < 513) := by
  have hr : List.range ((nrDefaultFileSects + 1) % 8) = [0] := by decide
  have hn : (nrDefaultFileSects + 1) / 8 = 64 := by decide
  rw [hr, hn, List.foldl_cons, List.foldl_nil, bit_setBit]
  simp only [bit]
  have hff : ∀ k < 8, (0xFF : Byte).getLsbD k = true := by decide
  have hzero : ∀ k < 8, (0 : Byte).getLsbD k = false := by decide
  by_cases hb : b < 512
  · rw [if_pos (by omega), hff _ (Nat.mod_lt b (by decide)), Bool.or_true,
      decide_eq_true (by omega)]
  · rw [if_neg (by omega), hzero _ (Nat.mod_lt b (by decide)), Bool.or_false]
    exact decide_eq_decide.2 (by omega)

theorem mkfsMaps_bit {sb : SuperBlock} (himap : sb.nrImapSects = 1) (hsmap : 0 < sb.nrSmapSects)
    (hsmall : sb.nrSmapSects < 2 ^ 21) (d : Device) {b : ℕ} (hb : b < 4096 * sb.nrSmapSects) :
    bit (mkfsMaps sb d).disk (4096 * 3 + b) = decide (b < 513) := by
  unfold mkfsMaps
  rw [clearSects_bit _ _ _ _ _ (by omega), himap, Device.wr_disk, bit_wrSect (by omega)]
  by_cases hfirst : b < 4096
  · rw [if_pos (by omega), bit_rootBits, decide_eq_false (p := 4096 * (2 + 1 + 1) ≤ _ ∧ _)
      (by omega),
      Bool.not_false, Bool.and_true]
    exact decide_eq_decide.2 (by omega)
  · rw [decide_eq_true (p := 4096 * (2 + 1 + 1) ≤ _ ∧ _) (by omega), Bool.not_true, Bool.and_false,
      decide_eq_false (by omega)]

theorem mkfsMaps_imap {sb : SuperBlock} (himap : sb.nrImapSects = 1)
    (hsmall : sb.nrSmapSects < 2 ^ 21) (d : Device) {n : ℕ} (hn : n < 4096) :
    bit (mkfsMaps sb d).disk (4096 * 2 + n) = decide (n < 6) := by
  have hr : List.range (nrConsoles + 3) = [0, 1, 2, 3, 4, 5] := by decide
  have hzero : bit (fun _ => 0) n = false := by simp [bit]
  unfold mkfsMaps
  rw [clearSects_bit _ _ _ _ _ (by omega), himap, Device.wr_disk, bit_wrSect (by omega),
    if_neg (by omega), Device.wr_disk, show (2 : Int) = (2 : ℕ) from rfl, bit_wrSect (by omega),
    if_pos (by omega), decide_eq_false (p := 4096 * (2 + 1 + 1) ≤ _ ∧ _) (by omega), Bool.not_false,
    Bool.and_true, Nat.add_sub_cancel_left, hr]
  simp only [List.foldl_cons, List.foldl_nil, bit_setBit, hzero, Bool.or_false, ← Bool.decide_or]
  exact decide_eq_decide.2 (by omega)

/-! ## cmd.tar -/

/-- The bits are set one after the other, over as many sectors as they take. The disk is meant with
the sector in hand written back to it. -/
theorem markInstall_bit {sb : SuperBlock} {d' : Device} {fsbuf' : Bytes} {c' : ℕ} (b : ℕ) :
    ∀ {n off : ℕ} {d : Device} {fsbuf : Bytes} {c : ℕ},
    off < 4096 → 2 + sb.nrImapSects + c + n < 2 ^ 22 →
    markInstall sb n off d fsbuf c = (d', fsbuf', c') →
    bit (wrSect d'.disk (2 + sb.nrImapSects + c' : ℕ) fsbuf') b =
      (bit (wrSect d.disk (2 + sb.nrImapSects + c : ℕ) fsbuf) b ||
        decide (4096 * (2 + sb.nrImapSects + c) + off ≤ b ∧
          b < 4096 * (2 + sb.nrImapSects + c) + off + n))
  | 0, off, d, fsbuf, c, hoff, hn, h => by
    simp only [markInstall, Prod.mk.injEq] at h
    obtain ⟨rfl, rfl, rfl⟩ := h
    rw [decide_eq_false (by omega), Bool.or_false]
  | n + 1, off, d, fsbuf, c, hoff, hn, h => by
    have hset : bit (wrSect d.disk (2 + sb.nrImapSects + c : ℕ) (setBit fsbuf off)) b =
        (bit (wrSect d.disk (2 + sb.nrImapSects + c : ℕ) fsbuf) b ||
          decide (b = 4096 * (2 + sb.nrImapSects + c) + off)) := by
      rw [bit_wrSect (by omega), bit_wrSect (by omega), bit_setBit]
      by_cases hb : 4096 * (2 + sb.nrImapSects + c) ≤ b ∧ b < 4096 * (2 + sb.nrImapSects + c) + 4096
      · rw [if_pos hb, if_pos hb, Bool.or_comm]
        congr 1
        exact decide_eq_decide.2 (by omega)
      · rw [if_neg hb, if_neg hb, decide_eq_false (by omega), Bool.or_false]
    have hsect : sectorSize * 8 = 4096 := rfl
    simp only [markInstall] at h
    by_cases hlast : off + 1 = sectorSize * 8
    · rw [if_pos hlast] at h
      rw [markInstall_bit b (by omega) (by omega) h, wrSect_rdSect (by omega), Device.wr_disk, hset,
        Bool.or_assoc]
      congr 1
      rw [← Bool.decide_or]
      exact decide_eq_decide.2 (by omega)
    · rw [if_neg hlast] at h
      rw [markInstall_bit b (by omega) (by omega) h, hset, Bool.or_assoc]
      congr 1
      rw [← Bool.decide_or]
      exact decide_eq_decide.2 (by omega)

/-- The sectors written on the way, and the one in hand at the end. -/
theorem markInstall_written {sb : SuperBlock} {d' : Device} {fsbuf' : Bytes} {c' : ℕ} (s : Int) :
    ∀ {n off : ℕ} {d : Device} {fsbuf : Bytes} {c : ℕ}, off < 4096 →
    markInstall sb n off d fsbuf c = (d', fsbuf', c') →
    c' = c + (off + n) / 4096 ∧ (s ∈ d'.written ↔ s ∈ d.written ∨
      (2 + sb.nrImapSects + c : ℕ) ≤ s ∧ s < (2 + sb.nrImapSects + c' : ℕ))
  | 0, off, d, fsbuf, c, hoff, h => by
    simp only [markInstall, Prod.mk.injEq] at h
    obtain ⟨rfl, rfl, rfl⟩ := h
    refine ⟨by omega, ?_⟩
    rw [or_iff_left (by omega)]
  | n + 1, off, d, fsbuf, c, hoff, h => by
    have hsect : sectorSize * 8 = 4096 := rfl
    simp only [markInstall] at h
    by_cases hlast : off + 1 = sectorSize * 8
    · rw [if_pos hlast] at h
      obtain ⟨hc, hw⟩ := markInstall_written s (by omega) h
      refine ⟨hc.trans (by omega), hw.trans ?_⟩
      rw [Device.wr_written, List.mem_cons, or_comm (b := s ∈ d.written), or_assoc]
      exact or_congr_right (by omega)
    · rw [if_neg hlast] at h
      obtain ⟨hc, hw⟩ := markInstall_written s (by omega) h
      exact ⟨hc.trans (by omega), hw⟩

/-! ## The layout -/

/-- A region of a partition: its first sector and their number. -/
structure Region where
  start : Int
  len : Int

def Region.Apart (r r' : Region) : Prop := r.start + r.len ≤ r'.start ∨ r'.start + r'.len ≤ r.start

def Region.Inside (r : Region) (size : ℕ) : Prop := 0 ≤ r.start ∧ r.start + r.len ≤ size

/-- The sectors of the root directory and of `cmd.tar`. -/
def rootRegion (sb : SuperBlock) : Region := ⟨sb.n1stSect, nrDefaultFileSects⟩
def installRegion : Region := ⟨installStartSect, installNrSects⟩

/-- The boot sector, the super block, the maps, the inodes, the root directory, `cmd.tar` and the
log. -/
def mkfsRegions (sb : SuperBlock) : List Region :=
  [⟨0, 1⟩, ⟨1, 1⟩, ⟨2, sb.nrImapSects⟩, ⟨2 + sb.nrImapSects, sb.nrSmapSects⟩,
    ⟨2 + sb.nrImapSects + sb.nrSmapSects, sb.n1stSect - (2 + sb.nrImapSects + sb.nrSmapSects)⟩,
    rootRegion sb, installRegion, ⟨sb.nrSects - nrSectsForLog, nrSectsForLog⟩]

/-- A bit of the sector map stands for one of the sectors of a region. -/
def Region.HasBit (r : Region) (sb : SuperBlock) (b : ℕ) : Prop :=
  1 ≤ b ∧ r.start ≤ b - 1 + sb.n1stSect ∧ b - 1 + sb.n1stSect < r.start + r.len

instance (r : Region) (sb : SuperBlock) (b : ℕ) : Decidable (r.HasBit sb b) :=
  inferInstanceAs (Decidable (_ ∧ _ ∧ _))

/-- The bits of the map that are to be set: the reserved one and those of the root directory and of
`cmd.tar`. -/
def SmapLaidOut (sb : SuperBlock) (disk : Bytes) : Prop :=
  ∀ b < sectorSize * 8 * sb.nrSmapSects,
    bit disk (8 * sectorSize * (2 + sb.nrImapSects) + b) = true ↔
      b = 0 ∨ (rootRegion sb).HasBit sb b ∨ installRegion.HasBit sb b

/-- What `mkfs` is to do: stop at its assert with nothing written outside, or write inside, with the
regions disjoint and inside, and mark what they take. -/
def LaidOut (nrSects : ℕ) : Except (Fault × Device) Device → Prop
  | .error (e, d) => e = .assertion ∧ ∀ s ∈ d.written, 0 ≤ s ∧ s < nrSects
  | .ok d => (∀ s ∈ d.written, 0 ≤ s ∧ s < nrSects) ∧
    (mkfsRegions (mkfsSb nrSects)).Pairwise Region.Apart ∧
    (∀ r ∈ mkfsRegions (mkfsSb nrSects), r.Inside nrSects) ∧ SmapLaidOut (mkfsSb nrSects) d.disk

theorem mkfsSb_eq (nrSects : ℕ) : mkfsSb nrSects =
    ⟨nrSects, 1, nrSects / 4096 + 1, 259 + (nrSects / 4096 + 1)⟩ := by
  simp only [mkfsSb, sectorSize, inodeSize, SuperBlock.mk.injEq, true_and]
  omega

theorem installFits_iff {nrSects : ℕ} (h : nrSects < 2 ^ 32) :
    InstallFits (mkfsSb nrSects) ↔ nrSects < 512 ∨ 35328 < nrSects := by
  unfold InstallFits
  rw [mkfsSb_eq]
  simp only [installStartSect, installNrSects, nrSectsForLog, nrDefaultFileSects]
  bv_omega

/-- The regions are right only for the sizes in between. -/
theorem regions_bound {nrSects : ℕ}
    (hapart : (mkfsRegions (mkfsSb nrSects)).Pairwise Region.Apart)
    (hin : ∀ r ∈ mkfsRegions (mkfsSb nrSects), r.Inside nrSects)
    (hoff : 259 + (nrSects / 4096 + 1) ≤ 0x8001) : 512 ≤ nrSects ∧ nrSects < 131059712 := by
  rw [mkfsSb_eq] at hapart hin
  have hlog := hin ⟨nrSects - nrSectsForLog, nrSectsForLog⟩ (by simp [mkfsRegions])
  have hroot : (rootRegion (mkfsSb nrSects)).Apart installRegion := by
    rw [mkfsSb_eq]
    simp only [mkfsRegions, List.pairwise_cons, List.mem_cons, forall_eq_or_imp] at hapart
    exact hapart.2.2.2.2.2.1.1
  rw [mkfsSb_eq] at hroot
  simp only [Region.Inside, Region.Apart, rootRegion, installRegion, nrSectsForLog,
    nrDefaultFileSects, installStartSect, installNrSects] at hlog hroot
  omega

theorem regions_laidOut {nrSects : ℕ} (hlo : 35328 < nrSects) (hhi : nrSects < 131059712) :
    (mkfsRegions (mkfsSb nrSects)).Pairwise Region.Apart ∧
      ∀ r ∈ mkfsRegions (mkfsSb nrSects), r.Inside nrSects := by
  rw [mkfsSb_eq]
  constructor
  · simp only [mkfsRegions, List.pairwise_cons, List.mem_cons, forall_eq_or_imp, Region.Apart,
      rootRegion, installRegion, nrSectsForLog, nrDefaultFileSects, installStartSect,
      installNrSects, List.not_mem_nil, false_implies, implies_true, and_true,
      List.Pairwise.nil]
    omega
  · simp only [mkfsRegions, List.mem_cons, forall_eq_or_imp, Region.Inside,
      rootRegion, installRegion, nrSectsForLog, nrDefaultFileSects, installStartSect,
      installNrSects, List.not_mem_nil, false_implies, implies_true, and_true]
    omega

theorem mkfs_ok {nrSects : ℕ} (hfits : InstallFits (mkfsSb nrSects))
    (hoff : 0 ≤ installBitOffset (mkfsSb nrSects)) (d : Device) : mkfs d nrSects =
      .ok (mkfsFiles (mkfsSb nrSects) (markCmdTar (mkfsSb nrSects) (mkfsMaps (mkfsSb nrSects) d)
        (installBitOffset (mkfsSb nrSects)).toNat)) := by
  unfold mkfs
  rw [if_neg (not_not_intro hfits), if_neg (by omega)]

theorem markCmdTar_eq {sb : SuperBlock} {d d' : Device} {off c' : ℕ} {fsbuf' : Bytes}
    (h : markInstall sb installNrSects (off % 4096) d
      (rdSect d.disk (2 + sb.nrImapSects + off / 4096 : ℕ)) (off / 4096) = (d', fsbuf', c')) :
    markCmdTar sb d off = d'.wr (2 + sb.nrImapSects + c' : ℕ) fsbuf' := by
  simp only [markCmdTar, show sectorSize * 8 = 4096 from rfl, h]

theorem markCmdTar_written {sb : SuperBlock} (d : Device) (off : ℕ) (s : Int) :
    s ∈ (markCmdTar sb d off).written ↔ s ∈ d.written ∨
      (2 + sb.nrImapSects + off / 4096 : ℕ) ≤ s ∧
        s ≤ (2 + sb.nrImapSects + (off + installNrSects) / 4096 : ℕ) := by
  rcases hr : markInstall sb installNrSects (off % 4096) d
    (rdSect d.disk (2 + sb.nrImapSects + off / 4096 : ℕ)) (off / 4096) with ⟨d', fsbuf', c'⟩
  obtain ⟨hc, hw⟩ := markInstall_written s (Nat.mod_lt _ (by decide)) hr
  rw [markCmdTar_eq hr, Device.wr_written, List.mem_cons, hw, or_comm, or_assoc]
  exact or_congr_right (by omega)

theorem markCmdTar_bit {sb : SuperBlock} (d : Device) {off : ℕ}
    (hsmall : 2 + sb.nrImapSects + off / 4096 + installNrSects < 2 ^ 22) (b : ℕ) :
    bit (markCmdTar sb d off).disk b = (bit d.disk b ||
      decide (4096 * (2 + sb.nrImapSects) + off ≤ b ∧
        b < 4096 * (2 + sb.nrImapSects) + off + installNrSects)) := by
  rcases hr : markInstall sb installNrSects (off % 4096) d
    (rdSect d.disk (2 + sb.nrImapSects + off / 4096 : ℕ)) (off / 4096) with ⟨d', fsbuf', c'⟩
  rw [markCmdTar_eq hr, Device.wr_disk, markInstall_bit _ (Nat.mod_lt _ (by decide)) hsmall hr,
    wrSect_rdSect (by omega)]
  congr 1
  exact decide_eq_decide.2 (by omega)

/-- The map, once `cmd.tar` is marked. -/
theorem markCmdTar_mkfsMaps_bit {nrSects : ℕ} (hlo : 35328 < nrSects) (hhi : nrSects < 131059712)
    (d : Device) {b : ℕ} (hb : b < 4096 * (nrSects / 4096 + 1)) :
    bit (markCmdTar (mkfsSb nrSects) (mkfsMaps (mkfsSb nrSects) d)
        (installBitOffset (mkfsSb nrSects)).toNat).disk (4096 * 3 + b) = true ↔
      b = 0 ∨ (rootRegion (mkfsSb nrSects)).HasBit (mkfsSb nrSects) b ∨
        installRegion.HasBit (mkfsSb nrSects) b := by
  have hsb := mkfsSb_eq nrSects
  have himap : (mkfsSb nrSects).nrImapSects = 1 := by rw [hsb]
  have hsmap : (mkfsSb nrSects).nrSmapSects = nrSects / 4096 + 1 := by rw [hsb]
  have hfirst : (mkfsSb nrSects).n1stSect = 259 + (nrSects / 4096 + 1) := by rw [hsb]
  have hstart : installStartSect = 0x8000 := rfl
  have hn : installNrSects = 2048 := rfl
  unfold installBitOffset
  rw [markCmdTar_bit _ (by omega), mkfsMaps_bit himap (by omega) (by omega) _ (by omega),
    ← Bool.decide_or, decide_eq_true_iff, himap]
  simp only [Region.HasBit, rootRegion, installRegion, hfirst, nrDefaultFileSects, hstart, hn]
  omega

/-- The inodes and the root directory are written behind the map. -/
theorem mkfsFiles_smap {nrSects : ℕ} (hlo : 35328 < nrSects) (hhi : nrSects < 131059712)
    (d : Device) : SmapLaidOut (mkfsSb nrSects) (mkfsFiles (mkfsSb nrSects)
      (markCmdTar (mkfsSb nrSects) (mkfsMaps (mkfsSb nrSects) d)
        (installBitOffset (mkfsSb nrSects)).toNat)).disk := by
  intro b hb
  have hsb := mkfsSb_eq nrSects
  have hb' : b < 4096 * (nrSects / 4096 + 1) := by
    rw [hsb] at hb
    exact hb
  rw [← markCmdTar_mkfsMaps_bit hlo hhi d hb']
  simp only [mkfsFiles, Device.wr_disk]
  have hsect : 8 * sectorSize = 4096 := rfl
  have himap : (mkfsSb nrSects).nrImapSects = 1 := by rw [hsb]
  have hsmap : (mkfsSb nrSects).nrSmapSects = nrSects / 4096 + 1 := by rw [hsb]
  have hfirst : (mkfsSb nrSects).n1stSect = 259 + (nrSects / 4096 + 1) := by rw [hsb]
  rw [himap, hsmap, hfirst, hsect, bit_wrSect (by omega), bit_wrSect (by omega),
    if_neg (by omega), if_neg (by omega)]

/-- `mkfs` does what it is to do just on the sizes between the log and the root directory's way
into `cmd.tar`. -/
theorem mkfs_laidOut_iff (disk : Bytes) (size : BitVec 32) :
    LaidOut size.toNat (mkfs ⟨disk, []⟩ size.toNat) ↔
      512 ≤ size.toNat ∧ size.toNat < 131059712 := by
  generalize hn : size.toNat = nrSects
  have hlt : nrSects < 2 ^ 32 := hn ▸ size.isLt
  have hsb := mkfsSb_eq nrSects
  have hstart : installStartSect = 0x8000 := rfl
  have hoff : installBitOffset (mkfsSb nrSects) =
      0x8000 - (259 + (nrSects / 4096 + 1) : ℕ) + 1 := by
    rw [hsb]
    rfl
  by_cases hgood : 35328 < nrSects ∧ nrSects < 131059712
  · obtain ⟨hapart, hin⟩ := regions_laidOut hgood.1 hgood.2
    rw [mkfs_ok ((installFits_iff hlt).2 (.inr hgood.1)) (by omega)]
    refine iff_of_true ⟨?_, hapart, hin, ?_⟩ ⟨by omega, hgood.2⟩
    · intro s hs
      simp only [mkfsFiles, Device.wr_written, List.mem_cons, markCmdTar_written] at hs
      rw [mkfsMaps_written (by rw [hsb]) (by rw [hsb]; exact Nat.succ_pos _), hsb] at hs
      simp only [List.not_mem_nil, false_or, show installNrSects = 2048 from rfl] at hs
      rw [hsb] at hoff
      omega
    · exact mkfsFiles_smap hgood.1 hgood.2 ⟨disk, []⟩
  · by_cases hfits : InstallFits (mkfsSb nrSects)
    · have hbad : ¬ (512 ≤ nrSects ∧ nrSects < 131059712) := by
        rw [installFits_iff hlt] at hfits
        omega
      refine iff_of_false ?_ hbad
      by_cases hneg : installBitOffset (mkfsSb nrSects) < 0
      · unfold mkfs
        rw [if_neg (not_not_intro hfits), if_pos hneg]
        exact fun h => Fault.noConfusion h.1
      · rw [mkfs_ok hfits (by omega)]
        rintro ⟨-, hapart, hin, -⟩
        exact hbad (regions_bound hapart hin (by omega))
    · have hmid : 512 ≤ nrSects ∧ nrSects ≤ 35328 := by
        rw [installFits_iff hlt] at hfits
        omega
      refine iff_of_true ?_ ⟨hmid.1, by omega⟩
      unfold mkfs
      rw [if_pos hfits]
      refine ⟨rfl, fun s hs => ?_⟩
      rw [mkfsMaps_written (by rw [hsb]) (by rw [hsb]; exact Nat.succ_pos _), hsb] at hs
      simp only [List.not_mem_nil, false_or] at hs
      omega

/-- No partition: the size wraps below the log's, the assert holds, and nothing that is written is
inside. -/
theorem mkfs_absent : ¬ LaidOut 0 (mkfs ⟨fun _ => 0, []⟩ 0) := by
  rw [mkfs_ok (by decide) (by decide)]
  rintro ⟨-, hapart, hin, -⟩
  exact absurd (regions_bound hapart hin (by decide)) (by decide)

end MyOS
