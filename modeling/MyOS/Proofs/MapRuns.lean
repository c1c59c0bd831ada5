import Mathlib.Data.Nat.Find
import MyOS.Proofs.DeviceEnd
import MyOS.Proofs.SmapFree

/-!
# What is taken from the maps

What `alloc_smap_bit` takes, `do_unlink` gives back. But `alloc_smap_bit` stops where the first row
of clear bits is too short, and `alloc_imap_bit` looks at the first sector of the inode map only.
-/

namespace MyOS

open Memory Block

variable {sb : SuperBlock} {fs fs' : Fs} {disk disk' : Bytes} {b n : ℕ}

/-- What `alloc_smap_bit` takes are clear bits, and from a bit below `2 ^ 31` on the clearing phases
of `do_unlink` give them back. -/
theorem allocSmapBit_undone {start : ℕ} (hP : SmapPlaced fs.sb) (hn : 0 < n) (hint : n < 2 ^ 31)
    (h : allocSmapBit fs n = .ok (start, fs')) :
    ∃ b disk', start + 1 = b + fs.sb.n1stSect ∧ b + n ≤ 4096 * fs.sb.nrSmapSects ∧
      fs' = { fs with disk := disk' } ∧ Marked fs.disk disk' (smapBase fs.sb + b) n ∧
      (b < 2 ^ 31 →
        freeSmap fs.sb disk' (BitVec.ofNat 32 start) (BitVec.ofNat 32 n) = .ok fs.disk) := by
  obtain ⟨b, disk', hrun, rfl, hfs, hmark⟩ := allocSmapBit_run hP hn h
  have hfirst := hP.first
  refine ⟨b, disk', by omega, hrun.le, hfs, hmark, fun hb => ?_⟩
  have hlt : 2 * (BitVec.ofNat 32 b).toNat < 2 ^ 32 := by
    rw [BitVec.toNat_ofNat]
    omega
  have hidx : (BitVec.ofNat 32 (b + fs.sb.n1stSect - 1) - fs.sb.n1stSect + 1).toInt = b := by
    rw [bitIdx_eq hfirst, BitVec.toInt_eq_toNat_of_lt hlt, BitVec.toNat_ofNat]
    omega
  have hnr : (BitVec.ofNat 32 n).toNat = n := by
    rw [BitVec.toNat_ofNat]
    omega
  obtain ⟨disk'', hfree, hclear⟩ := freeSmap_ok hP hidx hnr hrun.le hmark.full
  obtain rfl := hmark.undone hclear
  exact hfree

/-- 21 sectors, whose bits are in two sectors of the map and end within a byte. -/
theorem allocSmapBit_undone_filled : ∃ start fs',
    allocSmapBit (filledFs (mkfsSb 40000) 510) 21 = .ok (start, fs') ∧
      freeSmap (mkfsSb 40000) fs'.disk (BitVec.ofNat 32 start) (BitVec.ofNat 32 21) =
        .ok (filledDisk (mkfsSb 40000) 510) := by
  have hP : SmapPlaced (mkfsSb 40000) := placed_mkfsSb (by omega)
  obtain ⟨fs', hok⟩ := allocSmapBit_filledFs (n := 510) hP (c := 21) (by decide)
    (by simp [mkfsSb_eq])
  obtain ⟨b, disk', hb, -, hfs, -, hfree⟩ :=
    @allocSmapBit_undone (filledFs (mkfsSb 40000) 510) _ _ _ hP (by decide) (by decide) hok
  rw [filledFs_sb] at hb
  have hfree := hfree (by omega)
  rw [filledFs_sb, filledFs_disk] at hfree
  obtain rfl := hfs
  exact ⟨_, _, hok, hfree⟩

/-- On a device of more than `2 ^ 31` sectors `bit_idx` overflows. -/
theorem freeSmap_overflow : ∃ start fs',
    allocSmapBit (filledFs (mkfsSb (2 ^ 31 + 2 ^ 20)) (2 ^ 28)) nrDefaultFileSects =
        .ok (start, fs') ∧
      freeSmap (mkfsSb (2 ^ 31 + 2 ^ 20)) fs'.disk (BitVec.ofNat 32 start)
        (BitVec.ofNat 32 nrDefaultFileSects) = .error .wild := by
  have hP : SmapPlaced (mkfsSb (2 ^ 31 + 2 ^ 20)) := placed_mkfsSb (by omega)
  obtain ⟨fs', hok⟩ := allocSmapBit_filledFs (n := 2 ^ 28) hP (c := nrDefaultFileSects) (by decide)
    (by simp [mkfsSb_eq, nrDefaultFileSects])
  refine ⟨_, fs', hok, ?_⟩
  unfold freeSmap
  dsimp only
  rw [bitIdx_eq hP.first, if_pos (by decide)]

/-! ## Runs behind the first clear bit -/

/-- `n` clear bits of the map in a row. -/
structure ClearRun (sb : SuperBlock) (disk : Bytes) (b n : ℕ) : Prop where
  clear : ∀ x, b ≤ x → x < b + n → smapBit sb disk x = false
  le : b + n ≤ 4096 * sb.nrSmapSects

/-- `alloc_smap_bit` returns the first sector of clear bits, and marks just these. -/
def AllocatesRun (fs : Fs) (n : ℕ) : Prop :=
  ∃ b disk', allocSmapBit fs n = .ok (b + fs.sb.n1stSect - 1, { fs with disk := disk' }) ∧
    ClearRun fs.sb fs.disk b n ∧ Marked fs.disk disk' (smapBase fs.sb + b) n

/-- The first clear bit of the map is followed by enough of them. -/
def FirstFits (sb : SuperBlock) (disk : Bytes) (n : ℕ) : Prop :=
  ∀ b, (∀ x < b, smapBit sb disk x = true) → smapBit sb disk b = false → ClearRun sb disk b n

theorem FreeRun.clearRun (h : FreeRun sb disk b n) : ClearRun sb disk b n := ⟨h.clear, h.le⟩

theorem FreeRun.eq_first {c : ℕ} (h : FreeRun sb disk b n) (hn : 0 < n)
    (hbefore : ∀ x < c, smapBit sb disk x = true) (hclear : smapBit sb disk c = false) : b = c := by
  have hb := h.clear b le_rfl (by omega)
  rcases Nat.lt_trichotomy b c with hlt | heq | hlt
  · exact absurd (hb.symm.trans (hbefore b hlt)) Bool.false_ne_true
  · exact heq
  · exact absurd (hclear.symm.trans (h.before c hlt)) Bool.false_ne_true

/-- The sectors of a file are found just where no shorter run of clear bits is in front of the first
one that is long enough. -/
theorem alloc_run_iff (hP : SmapPlaced fs.sb)
    (hrun : ∃ b, ClearRun fs.sb fs.disk b nrDefaultFileSects) :
    AllocatesRun fs nrDefaultFileSects ↔ FirstFits fs.sb fs.disk nrDefaultFileSects := by
  have hpos : 0 < nrDefaultFileSects := by decide
  constructor
  · rintro ⟨b, disk', hok, -⟩ c hbefore hclear
    obtain ⟨b', -, hfree, -⟩ := allocSmapBit_run hP hpos hok
    obtain rfl := hfree.eq_first hpos hbefore hclear
    exact hfree.clearRun
  · intro hfits
    obtain ⟨b, hb⟩ := hrun
    have hex : ∃ x, smapBit fs.sb fs.disk x = false := ⟨b, hb.clear b le_rfl (by omega)⟩
    have hbefore : ∀ x < Nat.find hex, smapBit fs.sb fs.disk x = true := fun x hx => by
      simpa using Nat.find_min hex hx
    have hfirst := hfits _ hbefore (Nat.find_spec hex)
    obtain ⟨disk', hok, hmark⟩ := allocSmapBit_total hP hpos ⟨hbefore, hfirst.clear, hfirst.le⟩
    exact ⟨_, disk', hok, hfirst, hmark⟩

/-- Behind 20000 sectors in use. -/
theorem alloc_run_iff_filled :
    AllocatesRun (filledFs (mkfsSb 40000) 2500) nrDefaultFileSects := by
  have hP : SmapPlaced (mkfsSb 40000) := placed_mkfsSb (by omega)
  have hfree : FreeRun (mkfsSb 40000) (filledDisk (mkfsSb 40000) 2500) (8 * 2500)
      nrDefaultFileSects := freeRun_filledDisk (by simp [mkfsSb_eq, nrDefaultFileSects])
  have hiff := @alloc_run_iff (filledFs (mkfsSb 40000) 2500)
  rw [filledFs_sb, filledFs_disk] at hiff
  refine (hiff hP ⟨_, hfree.clearRun⟩).2 fun b hbefore hclear => ?_
  obtain rfl := hfree.eq_first (by decide) hbefore hclear
  exact hfree.clearRun

/-- The map of a device of 40000 sectors with the 62 files that are put before `cmd.tar`: behind the
last of them are 243 clear bits, and behind `cmd.tar` more than 5000. -/
def gapDisk : Bytes := fun y =>
  let k := y - smapBase (mkfsSb 40000) / 8
  if k < 4032 then 0xFF else if k = 4032 then 0x01 else if k < 4062 then 0
  else if k = 4062 then 0xF0 else if k < 4318 then 0xFF else if k = 4318 then 0x0F else 0

theorem smapBit_gapDisk (b : ℕ) : smapBit (mkfsSb 40000) gapDisk b =
    decide (b < 32257 ∨ 32500 ≤ b ∧ b < 34548) := by
  have hbits : (∀ i < 8, (0xFF : Byte).getLsbD i = true) ∧
      (∀ i < 8, (0x01 : Byte).getLsbD i = decide (i < 1)) ∧
      (∀ i < 8, (0xF0 : Byte).getLsbD i = decide (4 ≤ i)) ∧
      (∀ i < 8, (0x0F : Byte).getLsbD i = decide (i < 4)) ∧
      ∀ i < 8, (0 : Byte).getLsbD i = false := by decide
  obtain ⟨hff, h01, hf0, h0f, h00⟩ := hbits
  have hlt : b % 8 < 8 := Nat.mod_lt _ (by decide)
  have hbyte : (smapBase (mkfsSb 40000) + b) / 8 - smapBase (mkfsSb 40000) / 8 = b / 8 := by
    unfold smapBase
    omega
  have hmod : (smapBase (mkfsSb 40000) + b) % 8 = b % 8 := by
    unfold smapBase
    omega
  rw [smapBit_base, bit, hmod]
  unfold gapDisk
  dsimp only
  rw [hbyte]
  split_ifs with h₁ h₂ h₃ h₄ h₅ h₆
  · rw [hff _ hlt, decide_eq_true (by omega)]
  · rw [h01 _ hlt]
    exact decide_eq_decide.2 (by omega)
  · rw [h00 _ hlt, decide_eq_false (by omega)]
  · rw [hf0 _ hlt]
    exact decide_eq_decide.2 (by omega)
  · rw [hff _ hlt, decide_eq_true (by omega)]
  · rw [h0f _ hlt]
    exact decide_eq_decide.2 (by omega)
  · rw [h00 _ hlt, decide_eq_false (by omega)]

/-- The file system on it, with no file open. -/
def gapFs : Fs := { filledFs (mkfsSb 40000) 0 with disk := gapDisk }

theorem gapFs_sb : gapFs.sb = mkfsSb 40000 := rfl

theorem gapFs_disk : gapFs.disk = gapDisk := by
  rw [gapFs]

/-- No file can be created there. -/
theorem alloc_gap : ClearRun gapFs.sb gapFs.disk 34548 nrDefaultFileSects ∧
    ¬ AllocatesRun gapFs nrDefaultFileSects := by
  have hP : SmapPlaced gapFs.sb := placed_mkfsSb (by omega)
  have hbit (b : ℕ) : smapBit gapFs.sb gapFs.disk b =
      decide (b < 32257 ∨ 32500 ≤ b ∧ b < 34548) := by
    rw [gapFs_sb, gapFs_disk, smapBit_gapDisk]
  have hnr : nrDefaultFileSects = 512 := rfl
  have hsects : gapFs.sb.nrSmapSects = 10 := by
    rw [gapFs_sb, mkfsSb_eq]
  constructor
  · refine ⟨fun x hx _ => ?_, by omega⟩
    rw [hbit, decide_eq_false (by omega)]
  · rintro ⟨b, disk', hok, -⟩
    obtain ⟨b', -, hfree, -⟩ := allocSmapBit_run hP (by decide) hok
    have hb : b' = 32257 := by
      refine hfree.eq_first (by decide) (fun x hx => ?_) ?_
      · rw [hbit, decide_eq_true (by omega)]
      · rw [hbit, decide_eq_false (by omega)]
    have hgap := hfree.clear 32500 (by omega) (by omega)
    rw [hbit, decide_eq_true (by omega)] at hgap
    exact Bool.false_ne_true hgap.symm

/-! ## Inode numbers -/

/-- The smallest number that is not in use is returned and marked; with all of them in use
`alloc_imap_bit` panics. -/
def TakesSmallest (fs : Fs) : Prop :=
  if ∀ k < 4096 * fs.sb.nrImapSects, imapBit fs.disk k = true then
    allocImapBit fs = .error .panic
  else ∃ n disk', allocImapBit fs = .ok (n, { fs with disk := disk' }) ∧
    n < 4096 * fs.sb.nrImapSects ∧ (∀ k < n, imapBit fs.disk k = true) ∧
    Marked fs.disk disk' (8 * sectorSize * 2 + n) 1

/-- A sector of the map that is full makes it return 0. -/
theorem not_takesSmallest (h0 : fs.sb.nrImapSects ≠ 0)
    (hset : ∀ k < 4096, imapBit fs.disk k = true) : ¬ TakesSmallest fs := by
  have hfull := allocImapBit_full h0 hset
  intro htakes
  unfold TakesSmallest at htakes
  rw [hfull] at htakes
  split_ifs at htakes with hall
  obtain ⟨n, disk', hok, -, -, hmark⟩ := htakes
  obtain ⟨rfl, -⟩ := Prod.mk.inj (Except.ok.inj hok)
  have hclear := hmark.clear (8 * sectorSize * 2 + 0) le_rfl (by omega)
  exact Bool.false_ne_true (hclear.symm.trans (hset 0 (by decide)))

/-- `alloc_imap_bit` does so just where the first sector of the map has a clear bit. -/
theorem allocImapBit_smallest_iff (fs : Fs) :
    TakesSmallest fs ↔ fs.sb.nrImapSects = 0 ∨ ∃ k < 4096, imapBit fs.disk k = false := by
  by_cases h0 : fs.sb.nrImapSects = 0
  · have hnone : allocImapBit fs = .error .panic := by
      unfold allocImapBit
      exact if_pos h0
    have htakes : TakesSmallest fs := by
      unfold TakesSmallest
      rw [if_pos (fun k hk => absurd hk (by omega))]
      exact hnone
    exact iff_of_true htakes (.inl h0)
  · rw [or_iff_right h0]
    constructor
    · intro htakes
      by_contra hnone
      simp only [not_exists, not_and, Bool.not_eq_false] at hnone
      exact not_takesSmallest h0 hnone htakes
    · rintro ⟨k, hk, hclear⟩
      obtain ⟨n, disk', hok, hle, hbefore, hmark⟩ := allocImapBit_first h0 hk hclear
      unfold TakesSmallest
      rw [if_neg fun hall => ?_]
      · exact ⟨n, disk', hok, by omega, hbefore, hmark⟩
      · rw [hall k (by omega)] at hclear
        exact Bool.false_ne_true hclear.symm

theorem imapBit_filledDisk (sb : SuperBlock) (n : ℕ) {k : ℕ} (hk : k < 4096 * sb.nrImapSects) :
    imapBit (filledDisk sb n) k = true := by
  have hsect : 8 * sectorSize * 2 = 8192 := rfl
  have hff : ∀ i < 8, (0xFF : Byte).getLsbD i = true := by decide
  unfold imapBit bit filledDisk smapBase
  rw [if_pos (by omega)]
  exact hff _ (Nat.mod_lt _ (by decide))

/-- On a device of 2 GiB with all of its inode numbers in use it returns 0. -/
theorem allocImapBit_out :
    (∀ k < 4096 * (mkfsSb (2 ^ 22)).nrImapSects,
      imapBit (filledFs (mkfsSb (2 ^ 22)) 262144).disk k = true) ∧
    allocImapBit (filledFs (mkfsSb (2 ^ 22)) 262144) =
      .ok (0, filledFs (mkfsSb (2 ^ 22)) 262144) ∧
    ¬ TakesSmallest (filledFs (mkfsSb (2 ^ 22)) 262144) := by
  have hsb : (mkfsSb (2 ^ 22)).nrImapSects = 1 := by
    rw [mkfsSb_eq]
  have hset : ∀ k < 4096 * (mkfsSb (2 ^ 22)).nrImapSects,
      imapBit (filledFs (mkfsSb (2 ^ 22)) 262144).disk k = true := fun k hk => by
    rw [filledFs_disk]
    exact imapBit_filledDisk _ _ hk
  have hne : (filledFs (mkfsSb (2 ^ 22)) 262144).sb.nrImapSects ≠ 0 := by
    rw [filledFs_sb]
    omega
  refine ⟨hset, ?_, ?_⟩
  · exact allocImapBit_full hne fun k hk => hset k (by omega)
  · exact not_takesSmallest hne fun k hk => hset k (by omega)

end MyOS
