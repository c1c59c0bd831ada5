import MyOS.Proofs.SmapAlloc

/-!
# The end of the device and the end of its sector map

The map that `mkfs` lays out has a bit for every sector of the device and up to 4096 more, and its
bit `b` stands for sector `b + n_1st_sect - 1`, so that it goes on for more than `n_1st_sect`
sectors behind the end. `mkfs` leaves the bits of those clear and `alloc_smap_bit` goes by the map
alone: what it takes is on the device until the first clear bit is one of the last.
-/

namespace MyOS

open Memory Block

variable {fs : Fs} {disk : Bytes} {nrSects b : ℕ}

/-- The sectors of files end where the device ends. -/
def OnDevice (sb : SuperBlock) (start n : ℕ) : Prop := sb.n1stSect ≤ start ∧ start + n ≤ sb.nrSects

/-- The bits of sectors at or behind the end of the device are clear. -/
def ExcessClear (sb : SuperBlock) (disk : Bytes) : Prop :=
  ∀ b < 4096 * sb.nrSmapSects, sb.nrSects ≤ b + sb.n1stSect - 1 → smapBit sb disk b = false

/-- The first clear bit is the reserved one, or one of those with less than a file's sectors between
theirs and the end of the device, and the bits of the device are clear from there on. -/
structure RunsOver (sb : SuperBlock) (disk : Bytes) (b : ℕ) : Prop where
  before : ∀ x < b, smapBit sb disk x = true
  clear : ∀ x, b ≤ x → x < b + nrDefaultFileSects → x + sb.n1stSect - 1 < sb.nrSects →
    smapBit sb disk x = false
  room : b + nrDefaultFileSects ≤ 4096 * sb.nrSmapSects
  past : b = 0 ∨ sb.nrSects < b + sb.n1stSect - 1 + nrDefaultFileSects

theorem placed_mkfsSb (h : nrSects < 2 ^ 32) : SmapPlaced (mkfsSb nrSects) := by
  rw [mkfsSb_eq]
  exact ⟨by dsimp only; omega, by dsimp only; omega⟩

theorem RunsOver.freeRun {sb : SuperBlock} (hclear : ExcessClear sb disk) (h : RunsOver sb disk b) :
    FreeRun sb disk b nrDefaultFileSects where
  before := h.before
  clear x hx hlt := by
    by_cases hin : x + sb.n1stSect - 1 < sb.nrSects
    · exact h.clear x hx hlt hin
    · have hroom := h.room
      exact hclear x (by omega) (by omega)
  le := h.room

theorem FreeRun.onDevice_iff {sb : SuperBlock} (hfirst : 0 < sb.n1stSect)
    (h : FreeRun sb disk b nrDefaultFileSects) :
    OnDevice sb (b + sb.n1stSect - 1) nrDefaultFileSects ↔ ¬ RunsOver sb disk b := by
  constructor
  · intro hon hover
    obtain ⟨hge, hle⟩ := hon
    have hpast := hover.past
    omega
  · intro hover
    by_contra hoff
    refine hover ⟨h.before, fun x hx hlt _ => h.clear x hx hlt, h.le, ?_⟩
    unfold OnDevice at hoff
    omega

/-- On a device of any size, with any of its sectors in use, `create_file` is given sectors of files
on the device and no others, unless the first clear bit of the map has it run over the end. -/
theorem alloc_on_device_iff (hsize : nrSects < 2 ^ 32) (hsb : fs.sb = mkfsSb nrSects)
    (hclear : ExcessClear fs.sb fs.disk) :
    (∀ start fs', allocSmapBit fs nrDefaultFileSects = .ok (start, fs') →
        OnDevice fs.sb start nrDefaultFileSects) ↔
      ¬ ∃ b, RunsOver fs.sb fs.disk b := by
  have hP : SmapPlaced fs.sb := by
    rw [hsb]
    exact placed_mkfsSb hsize
  have hfirst : 0 < fs.sb.n1stSect := Nat.zero_lt_of_lt hP.first
  have hpos : 0 < nrDefaultFileSects := by decide
  constructor
  · intro hall hover
    obtain ⟨b, hover⟩ := hover
    have hrun := hover.freeRun hclear
    obtain ⟨disk', hok, -⟩ := allocSmapBit_total hP hpos hrun
    exact (hrun.onDevice_iff hfirst).1 (hall _ _ hok) hover
  · intro hover start fs' hok
    obtain ⟨b, disk', hrun, rfl, -⟩ := allocSmapBit_run hP hpos hok
    exact (hrun.onDevice_iff hfirst).2 fun h => hover ⟨b, h⟩

/-! ## A disk in use up to a byte of the map -/

/-- The first `n` bytes of the sector map are full and the rest of it is clear. -/
def filledDisk (sb : SuperBlock) (n : ℕ) : Bytes :=
  fun y => if y < smapBase sb / 8 + n then 0xFF else 0

theorem smapBit_filledDisk (sb : SuperBlock) (n b : ℕ) :
    smapBit sb (filledDisk sb n) b = decide (b < 8 * n) := by
  have hbase : smapBase sb = 8 * (smapBase sb / 8) := by
    unfold smapBase
    omega
  have hff : ∀ i < 8, (0xFF : Byte).getLsbD i = true := by decide
  rw [smapBit_base]
  unfold bit filledDisk
  by_cases hb : b < 8 * n
  · rw [if_pos (by omega), decide_eq_true hb]
    exact hff _ (Nat.mod_lt _ (by decide))
  · rw [if_neg (by omega), decide_eq_false hb]
    simp

theorem freeRun_filledDisk {sb : SuperBlock} {n c : ℕ} (h : 8 * n + c ≤ 4096 * sb.nrSmapSects) :
    FreeRun sb (filledDisk sb n) (8 * n) c where
  before x hx := by simpa [smapBit_filledDisk] using hx
  clear x hx _ := by simpa [smapBit_filledDisk] using hx
  le := h

theorem excessClear_filledDisk {sb : SuperBlock} {n : ℕ} (h : 8 * n + sb.n1stSect ≤ sb.nrSects) :
    ExcessClear sb (filledDisk sb n) := by
  intro b _ hend
  rw [smapBit_filledDisk, decide_eq_false (by omega)]

/-- The file system on it, with no file open. -/
def filledFs (sb : SuperBlock) (n : ℕ) : Fs where
  disk := filledDisk sb n
  sb := sb
  inodeTable _ := default
  fDescTable _ := default
  filp _ _ := none
  rootInode := 0

@[simp] theorem filledFs_sb (sb : SuperBlock) (n : ℕ) : (filledFs sb n).sb = sb := rfl

@[simp] theorem filledFs_disk (sb : SuperBlock) (n : ℕ) :
    (filledFs sb n).disk = filledDisk sb n := rfl

theorem allocSmapBit_filledFs {sb : SuperBlock} (hP : SmapPlaced sb) {n c : ℕ} (hc : 0 < c)
    (h : 8 * n + c ≤ 4096 * sb.nrSmapSects) :
    ∃ fs', allocSmapBit (filledFs sb n) c = .ok (8 * n + sb.n1stSect - 1, fs') := by
  have hrun : FreeRun (filledFs sb n).sb (filledFs sb n).disk (8 * n) c := freeRun_filledDisk h
  obtain ⟨disk', hok, -⟩ := allocSmapBit_total hP hc hrun
  exact ⟨_, hok⟩

/-- With the last 229 of 40000 sectors free, a file is put on the sectors from 39772 to 40283. -/
theorem alloc_past_device : ExcessClear (mkfsSb 40000) (filledDisk (mkfsSb 40000) 4938) ∧
    ∃ start fs', allocSmapBit (filledFs (mkfsSb 40000) 4938) nrDefaultFileSects = .ok (start, fs') ∧
      ¬ OnDevice (mkfsSb 40000) start nrDefaultFileSects := by
  have hP : SmapPlaced (mkfsSb 40000) := placed_mkfsSb (by omega)
  rw [mkfsSb_eq] at hP ⊢
  obtain ⟨fs', hok⟩ := allocSmapBit_filledFs (n := 4938) hP (c := nrDefaultFileSects) (by decide)
    (by decide)
  refine ⟨excessClear_filledDisk (by simp), _, fs', hok, fun hon => ?_⟩
  exact absurd hon.2 (by decide)

/-- With 20000 sectors in use it is put on the device. -/
theorem alloc_on_device_iff_filled : ∃ start fs',
    allocSmapBit (filledFs (mkfsSb 40000) 2500) nrDefaultFileSects = .ok (start, fs') ∧
      OnDevice (mkfsSb 40000) start nrDefaultFileSects := by
  have hsb := mkfsSb_eq 40000
  have hclear : ExcessClear (mkfsSb 40000) (filledDisk (mkfsSb 40000) 2500) := by
    refine excessClear_filledDisk ?_
    simp [hsb]
  have hiff := @alloc_on_device_iff (filledFs (mkfsSb 40000) 2500) 40000 (by omega) (by simp)
    (by simpa using hclear)
  rw [filledFs_sb, filledFs_disk] at hiff
  have hP : SmapPlaced (mkfsSb 40000) := placed_mkfsSb (by omega)
  obtain ⟨fs', hok⟩ := allocSmapBit_filledFs (n := 2500) hP (c := nrDefaultFileSects) (by decide)
    (by simp [hsb, nrDefaultFileSects])
  refine ⟨_, fs', hok, hiff.2 (fun hover => ?_) _ _ hok⟩
  obtain ⟨b, hover⟩ := hover
  have hpast := hover.past
  have hset (x : ℕ) (hx : x < b) : x < 8 * 2500 := by
    have := hover.before x hx
    simpa [smapBit_filledDisk] using this
  have hclear (hin : b + 268 < 40000) : ¬ b < 8 * 2500 := by
    have := hover.clear b le_rfl (by simp [nrDefaultFileSects]) (by simp [hsb]; omega)
    simpa [smapBit_filledDisk] using this
  simp only [hsb, nrDefaultFileSects] at hpast
  have := hset 20000
  omega

end MyOS
