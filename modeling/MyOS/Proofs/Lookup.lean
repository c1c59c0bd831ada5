import MyOS.Proofs.DirSlots
import MyOS.Proofs.FsStart
import MyOS.Proofs.FsRuns

/-!
# Paths and the entries that are looked at

`strip_path` stops copying after 12 characters, and with it stops looking for a slash. `search_file`
compares an entry with the name before it counts it, so that it goes one entry further than the
walk of `do_unlink` where the directory does not fill its last sector.
-/

namespace MyOS

open Memory Block Scan

/-! ## Names -/

/-- A path without the slash it may start with. -/
def component : List Byte → List Byte
  | [] => []
  | c :: s => if c = slash then s else c :: s

theorem stripPath_eq (path : List Byte) : stripPath path = stripLoop 0 (component path) := by
  cases path with
  | nil => rfl
  | cons c s =>
    rw [stripPath, component]
    split_ifs
    · rfl
    · rfl

/-- The loop sees as many characters as there is room for. -/
theorem stripLoop_eq : ∀ {n : ℕ} (s : List Byte), n < maxFilenameLen →
    stripLoop n s = if slash ∈ s.take (maxFilenameLen - n) then none
      else some (s.take (maxFilenameLen - n))
  | n, [], _ => by simp [stripLoop]
  | n, c :: s, hn => by
    have htake : (c :: s).take (maxFilenameLen - n) = c :: s.take (maxFilenameLen - (n + 1)) := by
      rw [show maxFilenameLen - n = maxFilenameLen - (n + 1) + 1 by omega, List.take_succ_cons]
    rw [stripLoop, htake]
    by_cases hc : c = slash
    · simp [hc]
    · simp only [if_neg hc, List.mem_cons, Ne.symm hc, false_or]
      by_cases hlast : maxFilenameLen ≤ n + 1
      · rw [if_pos hlast, show maxFilenameLen - (n + 1) = 0 by omega]
        simp
      · rw [if_neg hlast, stripLoop_eq s (by omega)]
        split_ifs
        · rfl
        · rfl

theorem stripPath_take (path : List Byte) : stripPath path =
    if slash ∈ (component path).take maxFilenameLen then none
      else some ((component path).take maxFilenameLen) := by
  rw [stripPath_eq, stripLoop_eq _ (by decide), Nat.sub_zero]

/-- A path is accepted just where it has one component, and its name is the start of that. -/
def StripsExactly (path : List Byte) : Prop :=
  ((stripPath path).isSome ↔ slash ∉ component path) ∧
    ∀ filename, stripPath path = some filename → filename = (component path).take maxFilenameLen

/-- That is so unless the first slash in the way is behind the twelfth character. -/
theorem stripsExactly_iff (path : List Byte) : StripsExactly path ↔
    (slash ∈ component path → slash ∈ (component path).take maxFilenameLen) := by
  have hname (filename : List Byte) (h : stripPath path = some filename) :
      filename = (component path).take maxFilenameLen := by
    rw [stripPath_take] at h
    split_ifs at h
    exact (Option.some.inj h).symm
  have hsome : (stripPath path).isSome ↔ slash ∉ (component path).take maxFilenameLen := by
    rw [stripPath_take]
    split_ifs with hin
    · simp [hin]
    · simp [hin]
  unfold StripsExactly
  rw [and_iff_left hname, hsome]
  constructor
  · intro h hslash
    by_contra hnot
    exact h.1 hnot hslash
  · intro h
    exact ⟨fun hnot hslash => hnot (h hslash), fun hnot hin => hnot (List.mem_of_mem_take hin)⟩

/-- "/aaaaaaaaaaaa/b": it is taken for the file "aaaaaaaaaaaa". -/
theorem stripPath_second_slash :
    stripPath (slash :: List.replicate 12 0x61 ++ [slash, 0x62]) = some (List.replicate 12 0x61) ∧
      ¬ StripsExactly (slash :: List.replicate 12 0x61 ++ [slash, 0x62]) := by
  refine ⟨by decide, fun h => ?_⟩
  have haccepted := h.1.1 (by decide)
  exact haccepted (by decide)

/-! ## Entries -/

variable {fs fs' : Fs} {disk' : Bytes} {path filename : List Byte} {k : ℕ}

/-- The first sector of the root directory, -/
def rootBlk (fs : Fs) : ℕ := (fs.inodeTable fs.rootInode).iStartSect.toNat

@[simp] theorem rootBlk_disk (fs : Fs) (disk' : Bytes) :
    rootBlk { fs with disk := disk' } = rootBlk fs := rfl

/-- and how many entries its size has room for. -/
def nrEntries (fs : Fs) : ℕ := (fs.inodeTable fs.rootInode).iSize.toNat / dirEntrySize

/-- The same entries, whatever is behind them. -/
def SameEntries (fs : Fs) (disk' : Bytes) : Prop :=
  ∀ z < dirEntrySize * nrEntries fs, dirBytes disk' (rootBlk fs) z = dirBytes fs.disk (rootBlk fs) z

instance (fs : Fs) (disk' : Bytes) : Decidable (SameEntries fs disk') :=
  inferInstanceAs (Decidable (∀ z < _, _))

/-- What `search_file` returns is for the entries to say. -/
def SearchesEntries (fs : Fs) (path : List Byte) : Prop :=
  ∀ disk', SameEntries fs disk' → searchFile { fs with disk := disk' } path = searchFile fs path

/-- The inode of the number is that of a regular file. -/
def IsRegular (fs : Fs) (nr : BitVec 32) : Prop :=
  ∃ pin fs', getInode fs nr.toInt = .ok (some pin, fs') ∧ (fs'.inodeTable pin).iMode = iRegular

/-- The last walk of `do_unlink` finds the number, whatever the first part of it has done
elsewhere. -/
def UnlinkFinds (fs : Fs) (nr : BitVec 32) : Prop :=
  ∀ fs' : Fs, (fs'.inodeTable fs'.rootInode).toDiskInode =
      (fs.inodeTable fs.rootInode).toDiskInode → SameEntries fs fs'.disk →
    removeEntry fs' fs'.rootInode nr ≠ .error .assertion

/-- The name is none of the entries', and there are sectors with more entries to look at. -/
def LooksBehind (fs : Fs) (path : List Byte) : Prop :=
  (fs.inodeTable fs.rootInode).iSize.toNat % sectorSize ≠ 0 ∧
    (fs.inodeTable fs.rootInode).iSize.toNat + sectorSize ≤ 2 ^ 32 ∧
    ∃ filename, stripPath path = some filename ∧ filename ≠ [] ∧
      ∀ k < nrEntries fs, ¬ SameName filename (slotName fs.disk (rootBlk fs) k)

/-- The name is that of a regular file, and the walk of `do_unlink` has one sector too many for the
count of its bytes. -/
def WalkWraps (fs : Fs) (path : List Byte) : Prop :=
  (fs.inodeTable fs.rootInode).iSize.toNat + sectorSize = 2 ^ 32 ∧
    ∃ filename k, stripPath path = some filename ∧ filename ≠ [] ∧ k < nrEntries fs ∧
      SameName filename (slotName fs.disk (rootBlk fs) k) ∧
      (∀ j < k, ¬ SameName filename (slotName fs.disk (rootBlk fs) j)) ∧
      IsRegular fs (slotNr fs.disk (rootBlk fs) k)

/-- How many sectors `search_file` reads. -/
def searchBlks (fs : Fs) : ℕ :=
  ((fs.inodeTable fs.rootInode).iSize + sectorSize - 1).toNat / sectorSize

theorem searchFile_some (hname : stripPath path = some filename) (hne : filename ≠ []) :
    searchFile fs path = searchOut fs.disk (rootBlk fs)
      (first (searchEnd (nrEntries fs) fun k =>
        SameName filename (slotName fs.disk (rootBlk fs) k)) 0 (32 * searchBlks fs)) := by
  unfold searchFile
  rw [hname]
  obtain ⟨c, s, rfl⟩ := List.exists_cons_of_ne_nil hne
  exact searchLoop_eq _

theorem searchFile_eq_of_hit (hname : stripPath path = some filename) (hne : filename ≠ [])
    (hk : k ≤ nrEntries fs) (hread : k < 32 * searchBlks fs)
    (hhit : SameName filename (slotName fs.disk (rootBlk fs) k))
    (hbefore : ∀ j < k, ¬ SameName filename (slotName fs.disk (rootBlk fs) j)) :
    searchFile fs path = slotNr fs.disk (rootBlk fs) k := by
  rw [searchFile_some hname hne, searchEnd_true.2 ⟨hk, hread, hhit, hbefore⟩]
  rfl

theorem searchFile_cases (hname : stripPath path = some filename) (hne : filename ≠ []) :
    searchFile fs path = 0 ∨ ∃ k, k ≤ nrEntries fs ∧ k < 32 * searchBlks fs ∧
      SameName filename (slotName fs.disk (rootBlk fs) k) ∧
      (∀ j < k, ¬ SameName filename (slotName fs.disk (rootBlk fs) j)) ∧
      searchFile fs path = slotNr fs.disk (rootBlk fs) k := by
  rw [searchFile_some hname hne]
  rcases hend : first (searchEnd (nrEntries fs) fun k =>
      SameName filename (slotName fs.disk (rootBlk fs) k)) 0 (32 * searchBlks fs) with
    _ | ⟨k, _ | _⟩
  · exact .inl rfl
  · exact .inl rfl
  · obtain ⟨hk, hread, hhit, hbefore⟩ := searchEnd_true.1 hend
    exact .inr ⟨k, hk, hread, hhit, hbefore, rfl⟩

/-- A name that is none of the entries' is not found, where `search_file` reads no further. -/
theorem searchFile_none (hname : stripPath path = some filename) (hne : filename ≠ [])
    (hread : 32 * searchBlks fs ≤ nrEntries fs)
    (hnone : ∀ k < nrEntries fs, ¬ SameName filename (slotName fs.disk (rootBlk fs) k)) :
    searchFile fs path = 0 := by
  rcases searchFile_cases hname hne with h0 | ⟨k, -, hk, hhit, -⟩
  · exact h0
  · exact absurd hhit (hnone k (by omega))

/-! ### How many entries are read -/

theorem searchBlks_eq (fs : Fs) : searchBlks fs =
    ((fs.inodeTable fs.rootInode).iSize.toNat + 511) % 2 ^ 32 / 512 := by
  have hround (size : BitVec 32) : (size + 512#32 - 1).toNat = (size.toNat + 511) % 2 ^ 32 := by
    bv_omega
  exact congrArg (· / 512) (hround _)

/-- No further than the last entry, where the directory fills its last sector; else one further. -/
theorem searchBlks_le (hsize : dirEntrySize ∣ (fs.inodeTable fs.rootInode).iSize.toNat)
    (h : (fs.inodeTable fs.rootInode).iSize.toNat % sectorSize = 0 ∨
      2 ^ 32 < (fs.inodeTable fs.rootInode).iSize.toNat + sectorSize) :
    32 * searchBlks fs ≤ nrEntries fs := by
  have hlt := (fs.inodeTable fs.rootInode).iSize.isLt
  rw [searchBlks_eq, nrEntries]
  simp only [dirEntrySize, sectorSize] at hsize h ⊢
  omega

theorem lt_searchBlks (hne : (fs.inodeTable fs.rootInode).iSize.toNat % sectorSize ≠ 0)
    (hle : (fs.inodeTable fs.rootInode).iSize.toNat + sectorSize ≤ 2 ^ 32) :
    nrEntries fs < 32 * searchBlks fs := by
  rw [searchBlks_eq, nrEntries]
  simp only [dirEntrySize, sectorSize] at hne hle ⊢
  omega

/-- It reads all entries or none. -/
theorem searchBlks_all (hsize : dirEntrySize ∣ (fs.inodeTable fs.rootInode).iSize.toNat)
    (h : searchBlks fs ≠ 0) : nrEntries fs ≤ 32 * searchBlks fs ∧
      (fs.inodeTable fs.rootInode).iSize.toNat + sectorSize ≤ 2 ^ 32 := by
  have hlt := (fs.inodeTable fs.rootInode).iSize.isLt
  rw [searchBlks_eq] at h ⊢
  rw [nrEntries]
  simp only [dirEntrySize, sectorSize] at hsize ⊢
  omega

/-! ### Entries on two disks -/

theorem SameEntries.slotNr_eq (h : SameEntries fs disk') (hk : k < nrEntries fs) :
    slotNr disk' (rootBlk fs) k = slotNr fs.disk (rootBlk fs) k := by
  have hsize : dirEntrySize = 16 := rfl
  rw [MyOS.slotNr_eq, MyOS.slotNr_eq]
  exact word_congr fun i hi => h (16 * k + i) (by rw [hsize]; omega)

theorem SameEntries.sameName_iff (h : SameEntries fs disk') (hk : k < nrEntries fs) :
    SameName filename (slotName disk' (rootBlk fs) k) ↔
      SameName filename (slotName fs.disk (rootBlk fs) k) := by
  have hsize : dirEntrySize = 16 := rfl
  refine forall₂_congr fun i hi => ?_
  have hi : i < 12 := hi
  rw [slotName_eq _ _ _ hi, slotName_eq _ _ _ hi, h (16 * k + 4 + i) (by rw [hsize]; omega)]

/-- A name that is one of the entries' is found there, on any disk with these entries. -/
theorem searchFile_congr (hsize : dirEntrySize ∣ (fs.inodeTable fs.rootInode).iSize.toNat)
    (hname : stripPath path = some filename) (hne : filename ≠ []) (hk : k < nrEntries fs)
    (hhit : SameName filename (slotName fs.disk (rootBlk fs) k)) (h : SameEntries fs disk') :
    searchFile { fs with disk := disk' } path = searchFile fs path := by
  by_cases hread : searchBlks fs = 0
  · have hnone : ∀ gs : Fs, searchBlks gs = 0 → searchFile gs path = 0 := fun gs hgs => by
      rcases @searchFile_cases gs _ _ hname hne with h0 | ⟨k, -, hk, -⟩
      · exact h0
      · omega
    rw [hnone fs hread, hnone { fs with disk := disk' } hread]
  · obtain ⟨hall, -⟩ := searchBlks_all hsize hread
    have hex : ∃ k, k < nrEntries fs ∧ SameName filename (slotName fs.disk (rootBlk fs) k) :=
      ⟨k, hk, hhit⟩
    obtain ⟨hk', hhit'⟩ := Nat.find_spec hex
    have hbefore (j : ℕ) (hj : j < Nat.find hex) :
        ¬ SameName filename (slotName fs.disk (rootBlk fs) j) := fun hj' =>
      Nat.find_min hex hj ⟨by omega, hj'⟩
    rw [searchFile_eq_of_hit hname hne hk'.le (by omega) hhit' hbefore,
      @searchFile_eq_of_hit { fs with disk := disk' } _ _ _ hname hne hk'.le
        (show _ < 32 * searchBlks fs by omega) ((h.sameName_iff hk').2 hhit')
        fun j hj hj' => hbefore j hj ((h.sameName_iff (by omega)).1 hj')]
    exact h.slotNr_eq hk'

/-! ### The walk of `do_unlink` -/

theorem syncInode_ne_assertion (fs : Fs) (p : Entry) : syncInode fs p ≠ .error .assertion := by
  unfold syncInode
  dsimp only
  split_ifs
  · simp
  · simp

/-- How many sectors it goes through. -/
def unlinkBlks (size : BitVec 32) : ℕ := (size + sectorSize).toNat / sectorSize

theorem lt_unlinkBlks {size : BitVec 32} (h : size.toNat + sectorSize < 2 ^ 32) :
    size.toNat / dirEntrySize < 32 * unlinkBlks size := by
  have hround : (size + 512#32).toNat = (size.toNat + 512) % 2 ^ 32 := by bv_omega
  change size.toNat / 16 < 32 * ((size + 512#32).toNat / 512)
  simp only [sectorSize] at h
  omega

theorem unlinkBlks_wraps {size : BitVec 32} (h : size.toNat + sectorSize = 2 ^ 32) :
    unlinkBlks size = 0 := by
  have hround : (size + 512#32).toNat = (size.toNat + 512) % 2 ^ 32 := by bv_omega
  change (size + 512#32).toNat / 512 = 0
  simp only [sectorSize] at h
  omega

theorem removeEntry_assertion {dir : Entry} {nr : BitVec 32} :
    removeEntry fs dir nr = .error .assertion ↔
      findOut fs.disk (fs.inodeTable dir).iStartSect.toNat
        (first (scanEnd ((fs.inodeTable dir).iSize.toNat / dirEntrySize) fun k =>
          slotNr fs.disk (fs.inodeTable dir).iStartSect.toNat k = nr) 0
          (32 * unlinkBlks (fs.inodeTable dir).iSize)) = none := by
  rw [← findLoop_eq]
  unfold removeEntry unlinkBlks
  dsimp only
  generalize findLoop _ _ _ _ _ _ _ = r
  cases r with
  | none => simp
  | some r =>
    obtain ⟨i, j, m, dirSize⟩ := r
    dsimp only
    split_ifs
    · simp [syncInode_ne_assertion]
    · simp

/-- An entry of the directory with the number is found, or one before it. -/
theorem unlinkFinds {nr : BitVec 32} (hk : k < nrEntries fs)
    (hnr : slotNr fs.disk (rootBlk fs) k = nr)
    (hwrap : (fs.inodeTable fs.rootInode).iSize.toNat + sectorSize < 2 ^ 32) :
    UnlinkFinds fs nr := by
  intro fs' hroot hsame herr
  have hsize : (fs'.inodeTable fs'.rootInode).iSize = (fs.inodeTable fs.rootInode).iSize :=
    congrArg DiskInode.iSize hroot
  have hstart : (fs'.inodeTable fs'.rootInode).iStartSect =
      (fs.inodeTable fs.rootInode).iStartSect :=
    congrArg DiskInode.iStartSect hroot
  have hnr' : slotNr fs'.disk (rootBlk fs) k = nr := (hsame.slotNr_eq hk).trans hnr
  rw [removeEntry_assertion, hsize, hstart] at herr
  change findOut fs'.disk (rootBlk fs) (first (scanEnd (nrEntries fs) fun k =>
    slotNr fs'.disk (rootBlk fs) k = nr) 0 _) = none at herr
  have hlt : nrEntries fs < 32 * unlinkBlks (fs.inodeTable fs.rootInode).iSize :=
    lt_unlinkBlks hwrap
  rcases hend : first (scanEnd (nrEntries fs) fun k => slotNr fs'.disk (rootBlk fs) k = nr) 0
      (32 * unlinkBlks (fs.inodeTable fs.rootInode).iSize) with _ | ⟨k', _ | _⟩
  · have := first_eq_none.1 hend k (by omega) (by omega)
    rw [scanEnd, if_neg (by omega), if_pos hnr'] at this
    cases this
  · exact (scanEnd_false.1 hend).2.2 k hk hnr'
  · rw [hend] at herr
    cases herr

/-- An inode number is found, and is one of the directory's, unless the path names the directory
itself. -/
theorem found_entry (hsize : dirEntrySize ∣ (fs.inodeTable fs.rootInode).iSize.toNat)
    (hbehind : ¬ LooksBehind fs path) (hname : stripPath path = some filename) (hne : filename ≠ [])
    (hfound : searchFile fs path ≠ 0) : ∃ k < nrEntries fs,
      SameName filename (slotName fs.disk (rootBlk fs) k) ∧
      (∀ j < k, ¬ SameName filename (slotName fs.disk (rootBlk fs) j)) ∧
      searchFile fs path = slotNr fs.disk (rootBlk fs) k ∧
      (fs.inodeTable fs.rootInode).iSize.toNat + sectorSize ≤ 2 ^ 32 := by
  rcases searchFile_cases hname hne with h0 | ⟨k, hk, hread, hhit, hbefore, heq⟩
  · exact absurd h0 hfound
  · have hsome : searchBlks fs ≠ 0 := by omega
    obtain ⟨-, hwrap⟩ := searchBlks_all hsize hsome
    refine ⟨k, ?_, hhit, hbefore, heq, hwrap⟩
    by_contra hlast
    obtain rfl : k = nrEntries fs := by omega
    refine hbehind ⟨fun hfull => ?_, hwrap, filename, hname, hne, hbefore⟩
    have := searchBlks_le hsize (.inl hfull)
    omega

/-! ### The entry behind the last one -/

/-- An entry behind the last one with the name would be found, with any number. -/
theorem LooksBehind.not_searches (h : LooksBehind fs path) : ¬ SearchesEntries fs path := by
  obtain ⟨hpart, hwrap, filename, hname, hne, hnone⟩ := h
  intro hall
  have hread := lt_searchBlks hpart hwrap
  have hsize : dirEntrySize = 16 := rfl
  have hbytes (z : ℕ) (hz : z / 512 < nrEntries fs / 32 + 2 ^ 23)
      (hi : nrEntries fs / 32 < z / 512 + 2 ^ 23) :=
    dirBytes_blit fs.disk (rootBlk fs) (a := nrEntries fs % 32 * 16) (m := 16)
      (entryBytes (searchFile fs path + 1) filename) (by omega) hz hi
  rw [show min 16 (512 - nrEntries fs % 32 * 16) = 16 by omega,
    show 512 * (nrEntries fs / 32) + nrEntries fs % 32 * 16 = 16 * nrEntries fs by omega] at hbytes
  generalize wrSect _ _ _ = disk' at hbytes
  have hlt := (fs.inodeTable fs.rootInode).iSize.isLt
  have hn : nrEntries fs / 32 < 2 ^ 23 := by
    rw [nrEntries, hsize]
    omega
  have hsame : SameEntries fs disk' := fun z hz => by
    rw [hsize] at hz
    rw [hbytes z (by omega) (by omega), blit_outside (by omega)]
  obtain ⟨hnr, hhit⟩ := @entry_found disk' (rootBlk fs) (nrEntries fs) filename _ fun i hi => by
    rw [hbytes _ (by omega) (by omega), blit_inside hi]
  have hfound := @searchFile_eq_of_hit { fs with disk := disk' } _ _ _ hname hne
    (le_refl (nrEntries fs)) hread hhit fun j hj hj' => hnone j hj ((hsame.sameName_iff hj).1 hj')
  change searchFile { fs with disk := disk' } path =
    slotNr disk' (rootBlk fs) (nrEntries fs) at hfound
  rw [hall disk' hsame, hnr] at hfound
  generalize searchFile fs path = x at hfound
  bv_omega

/-- The root directory is not a regular file. -/
theorem root_not_regular (h : FsGood False noneHeld fs) :
    ¬ IsRegular fs (BitVec.ofInt 32 (fs.inodeTable fs.rootInode).iNum) := by
  rintro ⟨pin, fs', hget, hmode⟩
  rw [h.cache.root] at hget
  have hroot : (fs.inodeTable fs.rootInode).iMode = iDirectory :=
    (congrArg DiskInode.iMode h.rootDir).trans h.disk.rootMode
  cases getInode_ok hget with
  | hit _ _ hcnt hnum =>
    have hpin := h.cache.unique pin fs.rootInode hcnt h.rootCnt (by rw [hnum, h.cache.root]; rfl)
    rw [Fs.setInode_inodeTable, if_pos rfl, hpin] at hmode
    exact absurd (hroot.symm.trans hmode) (by decide)
  | miss _ _ hnone _ _ => exact hnone fs.rootInode h.rootCnt (by rw [h.cache.root]; rfl)

/-- A path without a name of its own has the number of the directory, or 0. -/
theorem searchFile_unnamed (h : FsGood False noneHeld fs) (gs : Fs)
    (hsame : (gs.inodeTable gs.rootInode).iNum = (fs.inodeTable fs.rootInode).iNum)
    (hname : ∀ filename, stripPath path = some filename → filename = []) :
    searchFile gs path = searchFile fs path ∧ ¬ IsRegular fs (searchFile fs path) := by
  unfold searchFile
  cases hs : stripPath path with
  | none => exact ⟨rfl, fun ⟨pin, fs', hget, _⟩ => nomatch hget⟩
  | some filename =>
    obtain rfl := hname filename hs
    exact ⟨congrArg (BitVec.ofInt 32) hsame, root_not_regular h⟩

/-- Where no entry behind the last one is looked at, the entries of the directory say what is
found. -/
theorem searches_of_not_behind (hsize : dirEntrySize ∣ (fs.inodeTable fs.rootInode).iSize.toNat)
    (hname : stripPath path = some filename) (hne : filename ≠ [])
    (hbehind : ¬ LooksBehind fs path) :
    SearchesEntries fs path := by
  intro disk' hsame
  by_cases hex : ∃ k < nrEntries fs, SameName filename (slotName fs.disk (rootBlk fs) k)
  · obtain ⟨k, hk, hhit⟩ := hex
    exact searchFile_congr hsize hname hne hk hhit hsame
  · have hnone : ∀ k < nrEntries fs, ¬ SameName filename (slotName fs.disk (rootBlk fs) k) :=
      fun k hk hhit => hex ⟨k, hk, hhit⟩
    have hread : 32 * searchBlks fs ≤ nrEntries fs := by
      refine searchBlks_le hsize ?_
      by_contra hpart
      rw [not_or, not_lt] at hpart
      exact hbehind ⟨hpart.1, hpart.2, filename, hname, hne, hnone⟩
    rw [searchFile_none hname hne hread hnone]
    exact @searchFile_none { fs with disk := disk' } _ _ hname hne hread
      fun k hk hhit => hnone k hk ((hsame.sameName_iff hk).1 hhit)

/-- Where the last walk has sectors it finds what the first one has found. -/
theorem unlinkFinds_of_regular (hsize : dirEntrySize ∣ (fs.inodeTable fs.rootInode).iSize.toNat)
    (hname : stripPath path = some filename) (hne : filename ≠ []) (hbehind : ¬ LooksBehind fs path)
    (hwraps : ¬ WalkWraps fs path) (hreg : IsRegular fs (searchFile fs path)) :
    UnlinkFinds fs (searchFile fs path) := by
  have hfound : searchFile fs path ≠ 0 := fun h0 => by
    rw [h0] at hreg
    obtain ⟨pin, fs', hget, -⟩ := hreg
    exact nomatch hget
  obtain ⟨k, hk, hhit, hbefore, heq, hwrap⟩ := found_entry hsize hbehind hname hne hfound
  refine unlinkFinds hk heq.symm (lt_of_le_of_ne hwrap fun hend => hwraps ?_)
  exact ⟨hend, filename, k, hname, hne, hk, hhit, hbefore, heq ▸ hreg⟩

/-- Where the last walk has no sectors it fails on the file that the first one has found. -/
theorem WalkWraps.not_finds (hwraps : WalkWraps fs path) : ¬ (IsRegular fs (searchFile fs path) →
    UnlinkFinds fs (searchFile fs path)) := by
  obtain ⟨hwrap, filename, k, hname, hne, hk, hhit, hbefore, hreg⟩ := hwraps
  have hread : nrEntries fs ≤ 32 * searchBlks fs := by
    rw [searchBlks_eq, nrEntries]
    simp only [sectorSize, dirEntrySize] at hwrap ⊢
    omega
  rw [searchFile_eq_of_hit hname hne hk.le (by omega) hhit hbefore]
  intro hunlink
  refine hunlink hreg fs rfl (fun z _ => rfl) ?_
  rw [removeEntry_assertion, unlinkBlks_wraps hwrap]
  rfl

/-- What `search_file` returns is for the entries of the directory to say, and where it is the
number of a regular file the last walk of `do_unlink` finds it, unless an entry behind the last one
is looked at, or the walk has no sectors. -/
theorem search_unlink_iff (h : FsGood False noneHeld fs)
    (hsize : dirEntrySize ∣ (fs.inodeTable fs.rootInode).iSize.toNat) (path : List Byte) :
    SearchesEntries fs path ∧
        (IsRegular fs (searchFile fs path) → UnlinkFinds fs (searchFile fs path)) ↔
      ¬ LooksBehind fs path ∧ ¬ WalkWraps fs path := by
  constructor
  · rintro ⟨hsearch, hunlink⟩
    exact ⟨fun hbehind => hbehind.not_searches hsearch, fun hwraps => hwraps.not_finds hunlink⟩
  · rintro ⟨hbehind, hwraps⟩
    by_cases hnamed : ∃ filename, stripPath path = some filename ∧ filename ≠ []
    · obtain ⟨filename, hname, hne⟩ := hnamed
      exact ⟨searches_of_not_behind hsize hname hne hbehind,
        unlinkFinds_of_regular hsize hname hne hbehind hwraps⟩
    · have hunnamed : ∀ filename, stripPath path = some filename → filename = [] :=
        fun filename hname => by_contra fun hne => hnamed ⟨filename, hname, hne⟩
      exact ⟨fun disk' _ => (searchFile_unnamed h { fs with disk := disk' } rfl hunnamed).1,
        fun hreg => absurd hreg (searchFile_unnamed h fs rfl hunnamed).2⟩

/-- On a disk that has just been made, "cmd.tar" is one of the five entries. -/
theorem search_unlink_cmdTar : ∃ fs, initFs (fun _ => 0) 40000 = .ok fs ∧
    SearchesEntries fs cmdTar ∧
      (IsRegular fs (searchFile fs cmdTar) → UnlinkFinds fs (searchFile fs cmdTar)) := by
  have hany : ((initFs (fun _ => 0) 40000).toOption.any fun fs =>
      decide ((fs.inodeTable fs.rootInode).iSize.toNat = 80 ∧
        SameName cmdTar (slotName fs.disk (rootBlk fs) 4))) = true := by decide +kernel
  obtain ⟨fs, hinit, hany⟩ := exists_ok_of_any hany
  obtain ⟨hsize, hhit⟩ := of_decide_eq_true hany
  refine ⟨fs, hinit, (search_unlink_iff (initFs_good regionsApart_40000 hinit).1
    (by rw [hsize]; decide) cmdTar).2 ⟨?_, fun hwraps => ?_⟩⟩
  · rintro ⟨-, -, filename, hname, -, hnone⟩
    have hstrip : stripPath cmdTar = some cmdTar := by decide
    rw [hstrip] at hname
    obtain rfl := Option.some.inj hname
    exact hnone 4 (by rw [nrEntries, hsize]; decide) hhit
  · rw [WalkWraps, hsize] at hwraps
    exact absurd hwraps.1 (by decide)

/-- The sixth entry of a directory that starts at sector 269, for inode 17 and the name "x". -/
def behindDisk (disk : Bytes) : Bytes :=
  wrSect disk 269 (blit (rdSect disk 269) 80 16 (entryBytes 17 [0x78]))

/-- With it, which is behind the five of a disk that has just been made, "x" is found and is a
regular file, and the last walk of `do_unlink` finds nothing. -/
theorem search_behind_end : ∃ fs, initFs usedDisk 40000 = .ok fs ∧
    SameEntries fs (behindDisk fs.disk) ∧ searchFile fs [0x78] = 0 ∧
    searchFile { fs with disk := behindDisk fs.disk } [0x78] = 17 ∧
    IsRegular { fs with disk := behindDisk fs.disk } 17 ∧
    removeEntry { fs with disk := behindDisk fs.disk } fs.rootInode 17 = .error .assertion := by
  have hany : ((initFs usedDisk 40000).toOption.any fun fs =>
      decide (SameEntries fs (behindDisk fs.disk) ∧ searchFile fs [0x78] = 0 ∧
          searchFile { fs with disk := behindDisk fs.disk } [0x78] = 17) &&
        ((getInode { fs with disk := behindDisk fs.disk } 17).toOption.any fun r =>
          r.1.any fun pin => decide ((r.2.inodeTable pin).iMode = iRegular)) &&
        match removeEntry { fs with disk := behindDisk fs.disk } fs.rootInode 17 with
        | .error .assertion => true
        | _ => false) = true := by decide +kernel
  obtain ⟨fs, hinit, hany⟩ := exists_ok_of_any hany
  rw [Bool.and_eq_true, Bool.and_eq_true] at hany
  obtain ⟨⟨hsearch, hreg⟩, hremove⟩ := hany
  obtain ⟨hsame, hbefore, hbehind⟩ := of_decide_eq_true hsearch
  obtain ⟨⟨o, fs'⟩, hget, hreg⟩ := exists_ok_of_any hreg
  obtain ⟨pin, rfl, hmode⟩ := (Option.any_eq_true _ _).1 hreg
  refine ⟨fs, hinit, hsame, hbefore, hbehind, ⟨pin, fs', hget, of_decide_eq_true hmode⟩, ?_⟩
  revert hremove
  cases removeEntry { fs with disk := behindDisk fs.disk } fs.rootInode 17 with
  | ok _ => exact nofun
  | error e =>
    cases e with
    | assertion => exact fun _ => rfl
    | _ => exact nofun

end MyOS
