import MyOS.Proofs.Sectors

/-!
# Which partitions are found

The tables of a drive say where its partitions are: the first sector has those of the primary ones,
and an extended one has its logical partitions in a chain of boot records, each with the place of a
partition from its own sector on and that of the next record from the first one's on. `partition`
takes every primary partition for an extended one, so that the slots of logical partitions hold what
the walk from it comes upon, whatever it is.
-/

namespace MyOS

open Memory Block

/-! ## The tables of a drive -/

/-- Entry `i` of the table in sector `s` of a drive, which has sectors of 28 bits. -/
def tableAt (disk : Bytes) (s : BitVec 32) (i : ℕ) : PartEnt :=
  partEnt (from_ disk (512 * (s.setWidth 28).toNat)) (0x1BE + 16 * i)

/-- The boot record behind the one in sector `s` of an extended partition from sector `ext` on. -/
def nextEbr (disk : Bytes) (ext s : BitVec 32) : Option (BitVec 32) :=
  if (tableAt disk s 1).sysId = noPart then none else some (ext + (tableAt disk s 1).startSect)

/-- The `i`-th boot record from that in sector `s` on. -/
def ebrSect (disk : Bytes) (ext : BitVec 32) : ℕ → BitVec 32 → Option (BitVec 32)
  | 0, s => some s
  | i + 1, s => (nextEbr disk ext s).bind (ebrSect disk ext i)

/-- Where the logical partition of a boot record is. -/
def ebrPart (disk : Bytes) (s : BitVec 32) : PartInfo :=
  ⟨s + (tableAt disk s 0).startSect, (tableAt disk s 0).nrSects⟩

def noInfo : PartInfo := ⟨0, 0⟩

/-- The `i`-th logical partition of an extended one, nothing behind the last. -/
def logicalPart (disk : Bytes) (ext : BitVec 32) (i : ℕ) : PartInfo :=
  ((ebrSect disk ext i ext).map (ebrPart disk)).getD noInfo

/-- The `k`-th entry of the first sector. -/
def mbr (disk : Bytes) (k : ℕ) : PartEnt := tableAt disk 0 k

/-- What `hd_info` is to hold of a drive. -/
structure Discovered (disk : Bytes) (hdi : HdInfo) : Prop where
  primary : ∀ k : Fin 4, (mbr disk k).sysId ≠ noPart →
    hdi.primary k.succ = ⟨(mbr disk k).startSect, (mbr disk k).nrSects⟩
  logical : ∀ (k : Fin 4) (i : Fin 16), hdi.logical ⟨16 * k + i, by omega⟩ =
    if (mbr disk k).sysId = extPart then logicalPart disk (mbr disk k).startSect i else noInfo

/-- The walk from a sector that is not of an extended partition comes upon nothing. -/
def WalkZero (disk : Bytes) (ext : BitVec 32) : Prop :=
  ∀ i < 16, ∀ s, ebrSect disk ext i ext = some s →
    (tableAt disk s 0).startSect = -s ∧ (tableAt disk s 0).nrSects = 0

variable {disk : Bytes} {hdi hdi' : HdInfo} {ext s : BitVec 32}

/-! ## The walk over the boot records -/

/-- A mask drops the signs that a shift has brought in. -/
theorem sshiftRight_and (x : BitVec 32) {m : BitVec 32} {k : ℕ} (hm : m.toNat < 2 ^ (32 - k)) :
    x.sshiftRight k &&& m = x >>> k &&& m := by
  apply BitVec.eq_of_getLsbD_eq
  intro i hi
  rw [BitVec.getLsbD_and, BitVec.getLsbD_and, BitVec.getLsbD_sshiftRight,
    BitVec.getLsbD_ushiftRight]
  by_cases hk : k + i < 32
  · simp [hk, Nat.not_le.2 hi]
  · have hbit : m.getLsbD i = false := by
      rw [← BitVec.testBit_toNat]
      exact Nat.testBit_lt_two_pow (hm.trans_le (Nat.pow_le_pow_right (by decide) (by omega)))
    rw [hbit, Bool.and_false, Bool.and_false]

theorem getPartTable_eq (disk : Bytes) (s : BitVec 32) :
    getPartTable disk 0 s = tableAt disk s := by
  have hlba : (partTableCmd 0 s).lba = (s.setWidth 28).setWidth 32 := by
    unfold partTableCmd
    rw [sshiftRight_and s (by decide), sshiftRight_and s (by decide), sshiftRight_and s (by decide),
      show BitVec.ofInt 32 0 = 0 from rfl, lba_registers]
  have hnat : (partTableCmd 0 s).lba.toNat = (s.setWidth 28).toNat := by
    rw [hlba, BitVec.toNat_setWidth, Nat.mod_eq_of_lt]
    exact (s.setWidth 28).isLt.trans (by decide)
  funext i
  unfold getPartTable tableAt
  rw [hnat]
  rfl

theorem ebrSect_succ (disk : Bytes) (ext s : BitVec 32) (i : ℕ) : ebrSect disk ext (i + 1) s =
    if (tableAt disk s 1).sysId = noPart then none
    else ebrSect disk ext i (ext + (tableAt disk s 1).startSect) := by
  rw [ebrSect, nextEbr]
  split <;> rfl

theorem setLogical_ok (hdi : HdInfo) {n : ℕ} (hn : n < 64) (p : PartInfo) :
    ∃ hdi', hdi.setLogical n p = .ok hdi' ∧ hdi'.primary = hdi.primary ∧
      ∀ x : Fin 64, hdi'.logical x = if (x : ℕ) = n then p else hdi.logical x := by
  unfold HdInfo.setLogical
  rw [dif_pos (by omega)]
  refine ⟨_, rfl, rfl, fun x => ?_⟩
  dsimp only
  simp only [Function.update_apply, Int.toNat_natCast, Fin.ext_iff]

/-- What the loop writes: the slots from that of turn `i` on, as far as there are boot records. -/
theorem extendedLoop_ok {k : ℕ} (hk : k < 4) : ∀ {l i : ℕ} (s : BitVec 32) (hdi : HdInfo),
    i + l = 16 → ∃ hdi', extendedLoop disk 0 ext (16 * k : ℕ) (List.range' i l) s hdi = .ok hdi' ∧
      hdi'.primary = hdi.primary ∧ ∀ x : Fin 64, hdi'.logical x =
        if 16 * k + i ≤ x ∧ x < 16 * k + 16 then
          ((ebrSect disk ext (x - (16 * k + i)) s).map (ebrPart disk)).getD (hdi.logical x)
        else hdi.logical x
  | 0, i, s, hdi, hi => by
    refine ⟨hdi, rfl, rfl, fun x => ?_⟩
    rw [if_neg (by omega)]
  | l + 1, i, s, hdi, hi => by
    obtain ⟨hdi₁, h₁, hprim₁, hlog₁⟩ :=
      setLogical_ok hdi (show 16 * k + i < 64 by omega) (ebrPart disk s)
    rw [List.range'_succ, extendedLoop, getPartTable_eq]
    change ∃ hdi', (hdi.setLogical ((16 * k + i : ℕ) : Int) (ebrPart disk s) >>= _) = .ok hdi' ∧ _
    rw [h₁, ok_bind]
    by_cases hend : (tableAt disk s 1).sysId = noPart
    · -- this was the last boot record
      rw [if_pos hend]
      refine ⟨hdi₁, rfl, hprim₁, fun x => ?_⟩
      rw [hlog₁]
      by_cases hx : (x : ℕ) = 16 * k + i
      · rw [if_pos hx, if_pos (by omega), hx, Nat.sub_self]
        rfl
      · rw [if_neg hx]
        split_ifs with hin
        · obtain ⟨m, hm⟩ : ∃ m, (x : ℕ) - (16 * k + i) = m + 1 := ⟨x - (16 * k + i) - 1, by omega⟩
          rw [hm, ebrSect_succ, if_pos hend]
          rfl
        · rfl
    · rw [if_neg hend]
      obtain ⟨hdi', h', hprim', hlog'⟩ := extendedLoop_ok hk
        (ext + (tableAt disk s 1).startSect) hdi₁ (show i + 1 + l = 16 by omega)
      refine ⟨hdi', h', hprim'.trans hprim₁, fun x => ?_⟩
      rw [hlog', hlog₁]
      by_cases hx : (x : ℕ) = 16 * k + i
      · rw [if_neg (by omega), if_pos hx, if_pos (by omega), hx, Nat.sub_self]
        rfl
      · rw [if_neg hx]
        by_cases hin : 16 * k + i ≤ x ∧ (x : ℕ) < 16 * k + 16
        · rw [if_pos (by omega), if_pos hin,
            show (x : ℕ) - (16 * k + i) = x - (16 * k + (i + 1)) + 1 by omega, ebrSect_succ,
            if_neg hend]
        · rw [if_neg (by omega), if_neg hin]

/-! ## The walk over the primary partitions -/

/-- An extended partition in entry `k` of the first sector, or what is taken for one. -/
theorem partitionExtended_ok (disk : Bytes) {k : ℕ} (hk : k < 4)
    (hbase : (hdi.primary ⟨k + 1, by omega⟩).base = ext) :
    ∃ hdi', partitionExtended disk (0 + (k + 1 : ℕ)) hdi = .ok hdi' ∧ hdi'.primary = hdi.primary ∧
      ∀ x : Fin 64, hdi'.logical x =
        if 16 * k ≤ x ∧ x < 16 * k + 16 then
          ((ebrSect disk ext (x - 16 * k) ext).map (ebrPart disk)).getD (hdi.logical x)
        else hdi.logical x := by
  have hdrv : drvOfDev (0 + (k + 1 : ℕ)) = 0 := by
    interval_cases k <;> rfl
  have hj : (0 + (k + 1 : ℕ) : Int).tmod nrPrimPerDrive = (k + 1 : ℕ) := by
    interval_cases k <;> rfl
  have hsub : (((k + 1 : ℕ) : Int) - 1) * nrSubPerPart = (16 * k : ℕ) := by
    simp only [nrSubPerPart]
    omega
  unfold partitionExtended
  simp only [hj, hsub, Int.toNat_natCast, hbase]
  rw [dif_pos ⟨hdrv, by omega, by omega⟩, hdrv]
  exact extendedLoop_ok hk ext hdi (Nat.zero_add 16)

/-- The state after the first `m` entries. -/
def Walked (disk : Bytes) (hdi₀ : HdInfo) (m : ℕ) (s : HdInfo × ℕ) : Prop :=
  (∀ k : Fin 4, k < m → (mbr disk k).sysId ≠ noPart →
    s.1.primary k.succ = ⟨(mbr disk k).startSect, (mbr disk k).nrSects⟩) ∧
  (∀ (k : Fin 4) (i : Fin 16), s.1.logical ⟨16 * k + i, by omega⟩ =
    if k < m ∧ (mbr disk k).sysId ≠ noPart then
      ((ebrSect disk (mbr disk k).startSect i (mbr disk k).startSect).map (ebrPart disk)).getD
        (hdi₀.logical ⟨16 * k + i, by omega⟩)
    else hdi₀.logical ⟨16 * k + i, by omega⟩) ∧
  (s.2 = 0 ↔ ∀ k < m, (mbr disk k).sysId = noPart)

theorem Walked.turn {hdi₀ : HdInfo} {m : ℕ} {a : HdInfo × ℕ} (hm : m < 4)
    (h : Walked disk hdi₀ m a) :
    ∃ a', primaryTurn disk 0 (mbr disk) a m = .ok a' ∧ Walked disk hdi₀ (m + 1) a' := by
  obtain ⟨hprim, hlog, hcnt⟩ := h
  unfold primaryTurn
  by_cases hno : (mbr disk m).sysId = noPart
  · dsimp only
    rw [if_pos hno]
    refine ⟨a, rfl, fun k hk hne => hprim k ?_ hne, fun k i => ?_, ?_⟩
    · have hkm : (k : ℕ) ≠ m := fun heq => hne (heq ▸ hno)
      omega
    · rw [hlog]
      refine if_congr (and_congr_left fun hne => ?_) rfl rfl
      have hkm : (k : ℕ) ≠ m := fun heq => hne (heq ▸ hno)
      omega
    · rw [hcnt]
      refine ⟨fun hall k hk => ?_, fun hall k hk => hall k (by omega)⟩
      rcases Nat.lt_succ_iff_lt_or_eq.1 hk with hk | rfl
      · exact hall k hk
      · exact hno
  · obtain ⟨hdi₁, h₁, hlog₁, hprim₁⟩ : ∃ hdi₁,
        a.1.setPrimary (m + 1) ⟨(mbr disk m).startSect, (mbr disk m).nrSects⟩ = .ok hdi₁ ∧
          hdi₁.logical = a.1.logical ∧ ∀ k : Fin 5, hdi₁.primary k =
            if (k : ℕ) = m + 1 then ⟨(mbr disk m).startSect, (mbr disk m).nrSects⟩
            else a.1.primary k := by
      unfold HdInfo.setPrimary
      rw [dif_pos (by omega)]
      refine ⟨_, rfl, rfl, fun k => ?_⟩
      simp only [Function.update_apply, Fin.ext_iff]
    have hbase : (hdi₁.primary ⟨m + 1, by omega⟩).base = (mbr disk m).startSect := by
      rw [hprim₁, if_pos rfl]
    obtain ⟨hdi', h', hprim', hlog'⟩ := partitionExtended_ok disk hm hbase
    refine ⟨(hdi', a.2 + 1), ?_, fun k hk hne => ?_, fun k i => ?_, ?_⟩
    · dsimp only
      rw [if_neg hno, h₁, ok_bind, if_pos (by decide), h', ok_bind]
    · dsimp only
      rw [hprim', hprim₁]
      by_cases hkm : (k : ℕ) = m
      · rw [if_pos (by rw [Fin.val_succ, hkm]), hkm]
      · rw [if_neg (by rw [Fin.val_succ]; omega)]
        exact hprim k (by omega) hne
    · dsimp only
      rw [hlog', hlog₁, hlog]
      by_cases hkm : (k : ℕ) = m
      · obtain rfl := hkm
        rw [if_pos (by dsimp only; omega), if_neg fun h => Nat.lt_irrefl _ h.1,
          if_pos ⟨Nat.lt_succ_self _, hno⟩, Nat.add_sub_cancel_left]
      · rw [if_neg (by dsimp only; omega)]
        exact if_congr (and_congr_left fun _ => by omega) rfl rfl
    · refine ⟨fun hzero => absurd hzero (Nat.succ_ne_zero _), fun hall => ?_⟩
      exact absurd (hall m (Nat.lt_succ_self m)) hno

theorem Walked.loop {hdi₀ : HdInfo} : ∀ {l m : ℕ} {a : HdInfo × ℕ}, m + l = 4 →
    Walked disk hdi₀ m a →
      ∃ a', (List.range' m l).foldlM (primaryTurn disk 0 (mbr disk)) a = .ok a' ∧
        Walked disk hdi₀ 4 a'
  | 0, m, a, hm, h => by
    obtain rfl : m = 4 := hm
    exact ⟨a, rfl, h⟩
  | l + 1, m, a, hm, h => by
    obtain ⟨a₁, h₁, hw₁⟩ := h.turn (by omega)
    obtain ⟨a', h', hw'⟩ := Walked.loop (show m + 1 + l = 4 by omega) hw₁
    refine ⟨a', ?_, hw'⟩
    rw [List.range'_succ, List.foldlM_cons, h₁, ok_bind, h']

/-- `partition` on a drive: unless its first sector has no partition it ends with all its tables
walked. -/
theorem partition_walked (disk : Bytes) (hdi : HdInfo) : ∃ a : HdInfo × ℕ, Walked disk hdi 4 a ∧
    partition disk 0 pPrimary hdi = if a.2 ≠ 0 then .ok a.1 else .error .assertion := by
  have hstart : Walked disk hdi 0 (hdi, 0) := by
    refine ⟨fun k hk => absurd hk (Nat.not_lt_zero _), fun k i => ?_, ?_⟩
    · rw [if_neg (by omega)]
    · exact ⟨fun _ k hk => absurd hk (Nat.not_lt_zero k), fun _ => rfl⟩
  obtain ⟨a, ha, hw⟩ := Walked.loop (Nat.zero_add 4) hstart
  refine ⟨a, hw, ?_⟩
  have hdrv : drvOfDev 0 = 0 := rfl
  have hloop : (List.range nrPartPerDrive).foldlM
      (primaryTurn disk 0 (getPartTable disk 0 (BitVec.ofInt 32 0))) (hdi, 0) = .ok a := by
    rw [getPartTable_eq]
    exact ha
  unfold partition partitionPrimary
  rw [if_pos rfl]
  dsimp only
  rw [hdrv, if_neg (by simp), hloop, ok_bind]
  unfold assert
  split_ifs <;> rfl

/-! ## What is found -/

theorem ebrPart_eq_noInfo : ebrPart disk s = noInfo ↔
    (tableAt disk s 0).startSect = -s ∧ (tableAt disk s 0).nrSects = 0 := by
  unfold ebrPart noInfo
  rw [PartInfo.mk.injEq]
  refine and_congr_left fun _ => ?_
  constructor
  · intro h
    bv_omega
  · intro h
    rw [h]
    bv_omega

theorem walkZero_iff : WalkZero disk ext ↔ ∀ i < 16, logicalPart disk ext i = noInfo := by
  unfold WalkZero logicalPart
  refine forall_congr' fun i => forall_congr' fun _ => ?_
  cases hs : ebrSect disk ext i ext with
  | none => simp
  | some s => simp [ebrPart_eq_noInfo]

/-- On a drive with a partition `partition` returns, and what it leaves in `hd_info` is right just
where there is nothing on the walk from any primary partition that is not extended. -/
theorem partition_discovers_iff (disk : Bytes) (hdi : HdInfo)
    (hzero : ∀ x, hdi.logical x = noInfo) :
    ((∃ k < 4, (mbr disk k).sysId ≠ noPart) → ∃ hdi', partition disk 0 pPrimary hdi = .ok hdi') ∧
    ((∀ hdi', partition disk 0 pPrimary hdi = .ok hdi' → Discovered disk hdi') ↔
      ∀ k < 4, (mbr disk k).sysId ≠ noPart → (mbr disk k).sysId ≠ extPart →
        WalkZero disk (mbr disk k).startSect) := by
  obtain ⟨a, ⟨hprim, hlog, hcnt⟩, hrun⟩ := partition_walked disk hdi
  have hok (huse : ∃ k < 4, (mbr disk k).sysId ≠ noPart) :
      partition disk 0 pPrimary hdi = .ok a.1 := by
    obtain ⟨k, hk, hne⟩ := huse
    rw [hrun, if_pos fun h => hne (hcnt.1 h k hk)]
  have hslot (k : Fin 4) (i : Fin 16) : a.1.logical ⟨16 * k + i, by omega⟩ =
      if (mbr disk k).sysId = noPart then noInfo
      else logicalPart disk (mbr disk k).startSect i := by
    rw [hlog, hzero]
    by_cases hno : (mbr disk k).sysId = noPart
    · rw [if_neg fun h => h.2 hno, if_pos hno]
    · rw [if_pos ⟨k.isLt, hno⟩, if_neg hno]
      rfl
  refine ⟨fun huse => ⟨_, hok huse⟩, fun hall k hk hne hext => ?_, fun hcond hdi' hdi'_ok => ?_⟩
  · rw [walkZero_iff]
    intro i hi
    have hfound := (hall _ (hok ⟨k, hk, hne⟩)).logical ⟨k, hk⟩ ⟨i, hi⟩
    rw [hslot, if_neg hne, if_neg hext] at hfound
    exact hfound
  · obtain rfl : a.1 = hdi' := by
      rw [hrun] at hdi'_ok
      split_ifs at hdi'_ok
      exact Except.ok.inj hdi'_ok
    refine ⟨fun k hne => hprim k k.isLt hne, fun k i => ?_⟩
    rw [hslot]
    by_cases hno : (mbr disk k).sysId = noPart
    · rw [if_pos hno, if_neg (by rw [hno]; decide)]
    · rw [if_neg hno]
      by_cases hext : (mbr disk k).sysId = extPart
      · rw [if_pos hext]
      · rw [if_neg hext]
        exact walkZero_iff.1 (hcond k k.isLt hno hext) i i.isLt

/-! ## A drive with one partition -/

/-- The first entry of the table is of type `sysId`, of 100 sectors from sector 63 on, and all else
is 0. -/
def onePart (sysId : Byte) : Bytes := fun y =>
  if y = 0x1BE + 4 then sysId else if y = 0x1BE + 8 then 63 else if y = 0x1BE + 12 then 100 else 0

def zeroInfo : HdInfo := ⟨fun _ => noInfo, fun _ => noInfo⟩

theorem mbr_onePart (sysId : Byte) : mbr (onePart sysId) 0 = ⟨sysId, 63, 100⟩ := by
  have hsect : ((0 : BitVec 32).setWidth 28).toNat = 0 := rfl
  unfold mbr tableAt partEnt word from_ onePart
  rw [hsect]
  simp

/-- There is nothing in the other entries and in other sectors. -/
theorem tableAt_onePart (sysId : Byte) {s : BitVec 32} {i : ℕ}
    (h : 0 < (s.setWidth 28).toNat ∨ 0 < i) :
    tableAt (onePart sysId) s i = ⟨0, 0, 0⟩ := by
  have hzero (y : ℕ) (hy : 462 ≤ y) : onePart sysId y = 0 := by
    unfold onePart
    rw [if_neg (by omega), if_neg (by omega), if_neg (by omega)]
  unfold tableAt partEnt word from_
  rw [hzero _ (by omega), hzero _ (by omega), hzero _ (by omega), hzero _ (by omega),
    hzero _ (by omega), hzero _ (by omega), hzero _ (by omega), hzero _ (by omega),
    hzero _ (by omega)]
  rfl

/-- A primary partition from sector 63 on is found as a logical one of no sectors too. -/
theorem primary_taken_for_extended : (mbr (onePart 0x83) 0).sysId ≠ extPart ∧
    ∃ hdi', partition (onePart 0x83) 0 pPrimary zeroInfo = .ok hdi' ∧
      hdi'.logical 0 = ⟨63, 0⟩ ∧ ¬ Discovered (onePart 0x83) hdi' := by
  have hmbr : mbr (onePart 0x83) (0 : Fin 4) = ⟨0x83, 63, 100⟩ := mbr_onePart 0x83
  have hebr : tableAt (onePart 0x83) 63 0 = ⟨0, 0, 0⟩ := tableAt_onePart 0x83 (.inl (by decide))
  obtain ⟨a, ⟨-, hlog, hcnt⟩, hrun⟩ := partition_walked (onePart 0x83) zeroInfo
  have hfirst : a.1.logical 0 = ⟨63, 0⟩ := by
    have h := hlog 0 0
    rw [hmbr, if_pos ⟨by decide, by decide⟩] at h
    refine h.trans ?_
    change ebrPart (onePart 0x83) 63 = ⟨63, 0⟩
    rw [ebrPart, hebr]
    rfl
  refine ⟨by rw [mbr_onePart]; decide, a.1, ?_, hfirst, fun hfound => ?_⟩
  · rw [hrun, if_pos fun h => absurd (hcnt.1 h 0 (by decide)) (by rw [mbr_onePart]; decide)]
  · have h := hfound.logical 0 0
    rw [hmbr, if_neg (by decide)] at h
    exact absurd (hfirst.symm.trans h) (by decide)

/-- An extended partition is found with its logical one. -/
theorem partition_discovers_iff_extended :
    ∃ hdi', partition (onePart extPart) 0 pPrimary zeroInfo = .ok hdi' ∧
      Discovered (onePart extPart) hdi' := by
  obtain ⟨hret, hiff⟩ := partition_discovers_iff (onePart extPart) zeroInfo fun _ => rfl
  obtain ⟨hdi', hok⟩ := hret ⟨0, by decide, by rw [mbr_onePart]; decide⟩
  refine ⟨hdi', hok, hiff.2 (fun k hk hne hext => ?_) hdi' hok⟩
  rcases Nat.eq_zero_or_pos k with rfl | hpos
  · exact absurd (by rw [mbr_onePart]) hext
  · -- the other entries are not in use
    exact absurd (by rw [mbr, tableAt_onePart extPart (.inr hpos)]; rfl) hne

end MyOS
