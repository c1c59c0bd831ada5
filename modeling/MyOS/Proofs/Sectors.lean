import MyOS.Hd
import MyOS.Protect
import MyOS.Fs.State
import Mathlib.Tactic.IntervalCases

/-!
# Which sector a position is

The file system multiplies sector numbers by 512 in 32 bits, and the driver divides by 512 in 64
bits and gives the controller 28 bits of what it gets. Nothing on the way notices a wrap: the
driver's assert on the high bits holds of every position.
-/

namespace MyOS

variable {hdi : HdInfo} {part : PartInfo}

theorem posOk_iff {pos : BitVec 64} : PosOk pos ↔ pos.toNat % 512 = 0 := by
  have hlow : (pos &&& 0x1FF).toNat = pos.toNat % 512 := by
    rw [BitVec.toNat_and]
    exact Nat.and_two_pow_sub_one_eq_mod pos.toNat 9
  have hhigh : (pos >>> sectorSizeShift).toNat < ((1 <<< 31 : BitVec 32).signExtend 64).toNat := by
    have hbound : ((1 <<< 31 : BitVec 32).signExtend 64).toNat = 0xFFFFFFFF80000000 := by decide
    rw [hbound, BitVec.toNat_ushiftRight, Nat.shiftRight_eq_div_pow]
    have hpos := pos.isLt
    simp only [sectorSizeShift]
    omega
  unfold PosOk
  rw [← BitVec.toNat_inj, hlow]
  exact ⟨fun h => h.2, fun h => ⟨hhigh, h⟩⟩

theorem makeDeviceReg_low (x : BitVec 32) :
    makeDeviceReg 1 0 (x &&& 0xF) &&& 0xF = (x &&& 0xF).setWidth 8 := by
  apply BitVec.eq_of_getLsbD_eq
  intro i hi
  unfold makeDeviceReg
  interval_cases i <;> simp

/-- The registers of a command hold the low 28 bits of a sector. -/
theorem lba_registers (x : BitVec 32) (features count command : BitVec 8) :
    (HdCmd.mk features count ((x &&& 0xFF).setWidth 8) ((x >>> 8 &&& 0xFF).setWidth 8)
      ((x >>> 16 &&& 0xFF).setWidth 8) (makeDeviceReg 1 0 (x >>> 24 &&& 0xF)) command).lba =
        (x.setWidth 28).setWidth 32 := by
  simp only [HdCmd.lba, makeDeviceReg_low, setWidth_and_ff]
  apply BitVec.eq_of_getLsbD_eq
  intro i hi
  simp only [BitVec.getLsbD_or, BitVec.getLsbD_shiftLeft, BitVec.getLsbD_setWidth,
    BitVec.getLsbD_ushiftRight, BitVec.getLsbD_and]
  interval_cases i <;> simp

theorem drvOfDev_of_partInfo {device : Int} (h : partInfo hdi device = .ok part) :
    drvOfDev device = 0 := by
  by_contra hd
  simp [partInfo, hd] at h

/-- The command for a position that passes the asserts. -/
theorem hdRdwtCmd_lba (msg : Message) (hp : partInfo hdi msg.device.toInt = .ok part)
    (h : PosOk msg.position) : ∃ c, hdRdwtCmd hdi msg = .ok c ∧
      c.lba.toNat = (msg.position.toNat / 512 + part.base.toNat) % 2 ^ 28 := by
  unfold hdRdwtCmd
  simp only [assert_of h, hp, drvOfDev_of_partInfo hp]
  refine ⟨_, rfl, ?_⟩
  rw [show BitVec.ofInt 32 0 = 0 from rfl, lba_registers]
  simp only [BitVec.toNat_setWidth, BitVec.toNat_add, BitVec.toNat_ushiftRight,
    Nat.shiftRight_eq_div_pow, sectorSizeShift]
  omega

/-- The position of a sector, signs extended. -/
theorem sectPosition_toNat (isSigned : Bool) (sect : BitVec 32) :
    (sectPosition isSigned sect).toNat = sect.toNat * 512 % 2 ^ 32 +
      if isSigned = true ∧ 2 ^ 31 ≤ sect.toNat * 512 % 2 ^ 32 then 2 ^ 64 - 2 ^ 32 else 0 := by
  have hprod : (sect * 512).toNat = sect.toNat * 512 % 2 ^ 32 := by
    rw [BitVec.toNat_mul]
    rfl
  unfold sectPosition
  cases isSigned with
  | false =>
    simp only [Bool.false_eq_true, if_false, false_and, Nat.add_zero]
    rw [BitVec.toNat_setWidth, hprod]
    omega
  | true =>
    simp only [if_true, true_and]
    rw [BitVec.toNat_signExtend, BitVec.toNat_setWidth, BitVec.msb_eq_decide, hprod]
    simp only [decide_eq_true_eq]
    split_ifs <;> omega

theorem posOk_sectPosition (isSigned : Bool) (sect : BitVec 32) :
    PosOk (sectPosition isSigned sect) := by
  rw [posOk_iff, sectPosition_toNat]
  split_ifs <;> omega

/-- A sector whose product with 512 does not wrap, or wraps so often that the 28 bits of the
command do not show it. -/
def Addressable (isSigned : Bool) (sect : BitVec 32) : Prop :=
  if isSigned then sect.toNat < 2 ^ 22 ∨ 2 ^ 28 - 2 ^ 22 ≤ sect.toNat else sect.toNat < 2 ^ 23

instance (isSigned : Bool) (sect : BitVec 32) : Decidable (Addressable isSigned sect) := by
  unfold Addressable
  infer_instance

/-- The position the model of the disk uses is the one the driver finds. -/
theorem sectPos_eq (sect : Int) : sectPos sect =
    (sectPosition true (BitVec.ofInt 32 sect) >>> sectorSizeShift |>.setWidth 32).toNat *
      sectorSize := by
  have hprod : BitVec.ofInt 32 (sect * sectorSize) = BitVec.ofInt 32 sect * 512 :=
    BitVec.ofInt_mul sect sectorSize
  simp only [sectPos, sectPosition, if_true, hprod, sectorSizeShift]

/-- For every device of the drive: the command a sector of the partition leads to has exactly the
sector of the drive just when the product does not show in it; and a position past the 28 bits,
which the asserts let through, is never refused. -/
theorem sector_lba_iff (msg : Message) (hp : partInfo hdi msg.device.toInt = .ok part) :
    (∀ isSigned sect, sect.toNat < part.size.toNat → part.base.toNat + sect.toNat < 2 ^ 28 →
      ((∃ c, hdRdwtCmd hdi { msg with m3l1 := sectPosition isSigned sect } = .ok c ∧
        c.lba.toNat = part.base.toNat + sect.toNat) ↔ Addressable isSigned sect)) ∧
    ∀ pos, PosOk pos →
      ((2 ^ 28 ≤ part.base.toNat + pos.toNat / 512 →
        ∃ e, hdRdwtCmd hdi { msg with m3l1 := pos } = .error e) ↔
      part.base.toNat + pos.toNat / 512 < 2 ^ 28) := by
  constructor
  · intro isSigned sect hsize hbase
    obtain ⟨c, hc, hlba⟩ := hdRdwtCmd_lba { msg with m3l1 := sectPosition isSigned sect } hp
      (posOk_sectPosition isSigned sect)
    rw [show Message.position _ = sectPosition isSigned sect from rfl, sectPosition_toNat] at hlba
    have hex : (∃ c, hdRdwtCmd hdi { msg with m3l1 := sectPosition isSigned sect } = .ok c ∧
        c.lba.toNat = part.base.toNat + sect.toNat) ↔
          c.lba.toNat = part.base.toNat + sect.toNat := by
      rw [hc]
      simp
    rw [hex, hlba]
    unfold Addressable
    cases isSigned with
    | false =>
      simp only [Bool.false_eq_true, if_false, false_and]
      omega
    | true =>
      simp only [if_true, true_and]
      split_ifs <;> omega
  · intro pos hpos
    obtain ⟨c, hc, -⟩ := hdRdwtCmd_lba { msg with m3l1 := pos } hp hpos
    rw [hc]
    simp

/-- A drive whose second partition has 8 GB. -/
def hdInfo8G : HdInfo where
  primary := fun i => if i = 2 then ⟨0x4063, 0xF00000⟩ else ⟨0, 0x1000000⟩
  logical := fun _ => ⟨0, 0⟩

/-- A request for the second partition. -/
def reqPart2 : Message := ⟨3, MsgType.devRead.code, 0, 512, 3, 2, 0, 0, 0, 0x90000⟩

theorem sector_lba_iff_part2 :
    (∀ isSigned sect, sect.toNat < 0xF00000 → 0x4063 + sect.toNat < 2 ^ 28 →
      ((∃ c, hdRdwtCmd hdInfo8G { reqPart2 with m3l1 := sectPosition isSigned sect } = .ok c ∧
        c.lba.toNat = 0x4063 + sect.toNat) ↔ Addressable isSigned sect)) ∧
    ∀ pos, PosOk pos →
      ((2 ^ 28 ≤ 0x4063 + pos.toNat / 512 →
        ∃ e, hdRdwtCmd hdInfo8G { reqPart2 with m3l1 := pos } = .error e) ↔
      0x4063 + pos.toNat / 512 < 2 ^ 28) :=
  sector_lba_iff reqPart2 (show partInfo hdInfo8G 2 = .ok ⟨0x4063, 0xF00000⟩ by decide)

/-- Sector `0x400000` of the partition is 2 GB from its start: the product is negative, and the
command is for a sector 2 GB before the partition. -/
theorem sector_lba_wraps : ∃ c,
    hdRdwtCmd hdInfo8G { reqPart2 with m3l1 := sectPosition true 0x400000 } = .ok c ∧
      0x400000 < 0xF00000 ∧ 0x4063 + 0x400000 < 2 ^ 28 ∧ c.lba.toNat ≠ 0x4063 + 0x400000 := by
  refine ⟨_, rfl, by decide, by decide, by decide⟩

end MyOS
