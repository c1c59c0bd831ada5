import MyOS.Proofs.Lookup
import MyOS.Proofs.FsRequests

/-!
# Entries that come and go

`do_unlink` zeroes the entry of the file it removes, and where that is the last one it gives the
directory the size that the entries in use before it would have without the unused ones between
them. `new_dir_entry` copies a name with its null, whatever the length of the name is and whatever
is behind it in the entry.
-/

namespace MyOS

open Memory Block Scan

variable {fs fs' : Fs} {p : Entry} {k r : ℕ}

/-! ## What is left of a directory -/

/-- The entries where `P` holds are counted below their own number just where none without it is
before one with it. -/
theorem lt_count_iff {P : ℕ → Prop} [DecidablePred P] :
    (∀ k < r, P k → k < Nat.count P r) ↔ ∀ j k, j < k → k < r → P k → P j := by
  constructor
  · intro h j k hj hk hP
    have hsub : (Finset.range r).filter P ⊆ Finset.range (Nat.count P r) := fun x hx => by
      rw [Finset.mem_filter, Finset.mem_range] at hx
      exact Finset.mem_range.2 (h x hx.1 hx.2)
    have heq := Finset.eq_of_subset_of_card_le hsub (by
      rw [Finset.card_range, Nat.count_eq_card_filter_range])
    have hjmem : j ∈ (Finset.range r).filter P := by
      rw [heq, Finset.mem_range]
      exact hj.trans (h k hk hP)
    exact (Finset.mem_filter.1 hjmem).2
  · intro h k hk hP
    have hall : Nat.count P (k + 1) = k + 1 := Nat.count_iff_forall.2 fun j hj => by
      rcases Nat.lt_succ_iff_lt_or_eq.1 hj with hlt | rfl
      · exact h j k hlt hk hP
      · exact hP
    have hmono := Nat.count_monotone P (show k + 1 ≤ r by omega)
    omega

/-- The entry that `do_unlink` zeroes: the first one with the number. -/
def Removes (fs : Fs) (nr : BitVec 32) (r : ℕ) : Prop :=
  r < nrEntries fs ∧ slotNr fs.disk (rootBlk fs) r = nr ∧
    ∀ j < r, slotNr fs.disk (rootBlk fs) j ≠ nr

instance (fs : Fs) (nr : BitVec 32) (r : ℕ) : Decidable (Removes fs nr r) :=
  inferInstanceAs (Decidable (_ ∧ _ ∧ ∀ j < r, _))

theorem Removes.unique {nr : BitVec 32} (h : Removes fs nr r) (h' : Removes fs nr k) : r = k := by
  obtain ⟨-, hnr, hbefore⟩ := h
  obtain ⟨-, hnr', hbefore'⟩ := h'
  rcases Nat.lt_trichotomy r k with hlt | heq | hlt
  · exact absurd hnr (hbefore' r hlt)
  · exact heq
  · exact absurd hnr' (hbefore k hlt)

theorem syncInode_resized (size : Inode → BitVec 32)
    (hs : syncInode (fs.setInode p fun x => { x with iSize := size x }) p = .ok fs') :
    fs'.rootInode = fs.rootInode ∧ (fs'.inodeTable p).iSize = size (fs.inodeTable p) := by
  obtain ⟨disk, rfl⟩ := syncInode_ok hs
  refine ⟨rfl, ?_⟩
  dsimp only
  rw [Fs.setInode_inodeTable, if_pos rfl]

/-- An entry with the number has been zeroed, and the size set where it was the last one. -/
theorem removeEntry_ok {nr : BitVec 32} (hs : removeEntry fs fs.rootInode nr = .ok fs') :
    ∃ r gs, Removes fs nr r ∧
      gs = { fs with
        disk := wrSect fs.disk (rootBlk fs + (r / 32 : ℕ))
          (blit (rdSect fs.disk (rootBlk fs + (r / 32 : ℕ))) (r % 32 * 16) 16 fun _ => 0) } ∧
      if r + 1 = nrEntries fs then
        syncInode (gs.setInode gs.rootInode fun x => { x with
          iSize := BitVec.ofNat 32 (dirEntrySize * usedBefore fs.disk (rootBlk fs) r) })
          gs.rootInode = .ok fs'
      else fs' = gs := by
  unfold removeEntry at hs
  dsimp only at hs
  generalize hfound : findLoop _ _ _ _ _ _ _ = found at hs
  replace hfound : findOut fs.disk (rootBlk fs) (first (scanEnd (nrEntries fs) fun k =>
      slotNr fs.disk (rootBlk fs) k = nr) 0
        (32 * (((fs.inodeTable fs.rootInode).iSize + sectorSize).toNat / sectorSize))) = found :=
    (findLoop_eq _).symm.trans hfound
  rcases hend : first (scanEnd (nrEntries fs) fun k => slotNr fs.disk (rootBlk fs) k = nr) 0
      (32 * (((fs.inodeTable fs.rootInode).iSize + sectorSize).toNat / sectorSize)) with
    _ | ⟨r, _ | _⟩
  · rw [hend] at hfound
    subst hfound
    cases hs
  · rw [hend] at hfound
    subst hfound
    cases hs
  · obtain ⟨hr, -, hnr, hbefore⟩ := scanEnd_true.1 hend
    refine ⟨r, _, ⟨hr, hnr, hbefore⟩, rfl, ?_⟩
    rw [hend] at hfound
    subst hfound
    dsimp only [findOut] at hs
    change (if r + 1 = nrEntries fs then _ else _) = _ at hs
    split_ifs at hs ⊢ with hlast
    · exact hs
    · exact (Except.ok.inj hs).symm

theorem removeFile_marked {nr : BitVec 32} (hne : nr ≠ 0) (hs : removeFile fs p nr = .ok fs') :
    Allocated fs.disk nr.toNat ∧ nr.toInt = nr.toNat := by
  unfold removeFile at hs
  dsimp only at hs
  split_ifs at hs with hneg
  rw [assert_bind_eq_ok] at hs
  obtain ⟨hlt, hs⟩ := hs
  rw [assert_bind_eq_ok] at hs
  have hpos : nr.toNat ≠ 0 := fun h0 => hne (BitVec.eq_of_toNat_eq h0)
  have hsect : sectorSize = 512 := rfl
  refine ⟨⟨by omega, by omega, ?_⟩, ?_⟩
  · rw [← hs.1]
    refine bit_congr ?_ (by omega)
    rw [hsect]
    refine Eq.trans ?_ (rdSect_apply (s := 2) (by decide) fs.disk (nr.toNat / 8)).symm
    congr 1
    omega
  · have := BitVec.toInt_eq_toNat_cond nr
    split_ifs at this
    · exact this
    · omega

/-- A file that has been found is removed from the directory. -/
theorem removeEntry_total {nr : BitVec 32} (hnum : (fs.inodeTable fs.rootInode).iNum = 1)
    (hwrap : (fs.inodeTable fs.rootInode).iSize.toNat + sectorSize < 2 ^ 32)
    (hr : Removes fs nr r) : ∃ fs', removeEntry fs fs.rootInode nr = .ok fs' := by
  obtain ⟨hlt, hnr, hbefore⟩ := hr
  have hend : first (scanEnd (nrEntries fs) fun k => slotNr fs.disk (rootBlk fs) k = nr) 0
      (32 * unlinkBlks (fs.inodeTable fs.rootInode).iSize) = some (r, true) :=
    scanEnd_true.2 ⟨hlt, hlt.trans (lt_unlinkBlks hwrap), hnr, hbefore⟩
  have hwalk : findLoop fs.disk (rootBlk fs) (nrEntries fs) nr
      (List.range (unlinkBlks (fs.inodeTable fs.rootInode).iSize)) 0 0 =
        some (r / 32, r % 32, r + 1, 16 * usedBefore fs.disk (rootBlk fs) r) := by
    rw [findLoop_eq, hend]
    rfl
  unfold rootBlk nrEntries unlinkBlks at hwalk
  unfold removeEntry
  dsimp only
  rw [hwalk]
  dsimp only
  split_ifs
  · exact syncInode_total (n := 1) (by rw [Fs.setInode_inodeTable, if_pos rfl]; exact hnum) le_rfl
  · exact ⟨_, rfl⟩

/-- The root directory lies where positions have 32 bits. -/
def DirReach (fs : Fs) : Prop :=
  fs.sb.n1stSect + (fs.inodeTable fs.rootInode).iSize.toNat / sectorSize < 2 ^ 23

instance (fs : Fs) : Decidable (DirReach fs) := inferInstanceAs (Decidable (_ < _))

/-- `sync_inode` writes neither to the first map nor where files are. -/
theorem syncInode_outside {n y : ℕ} (hL : Layout fs.sb) (hnum : (fs.inodeTable p).iNum = n)
    (hn : 1 ≤ n) (hn' : n ≤ 4096) (hs : syncInode fs p = .ok fs')
    (hy : y < 512 * 3 ∨ 512 * fs.sb.n1stSect ≤ y) : fs'.disk y = fs.disk y := by
  obtain ⟨disk', rfl, -, hframe⟩ := syncInode_inode hL hnum hn hn' hs
  have hpos := inodePos_bounds hL hn hn'
  exact hframe y (by omega)

/-- The entry is all that `do_unlink` writes where files are. -/
theorem removeEntry_writes {nr : BitVec 32} (hL : Layout fs.sb)
    (hstart : rootBlk fs = fs.sb.n1stSect) (hnum : (fs.inodeTable fs.rootInode).iNum = (1 : ℕ))
    (hreach : DirReach fs) (hs : removeEntry fs fs.rootInode nr = .ok fs') :
    ∃ r, Removes fs nr r ∧ fs'.sb = fs.sb ∧ (∀ y < 512 * 3, fs'.disk y = fs.disk y) ∧
      (∀ z, rootBlk fs + z / 512 < 2 ^ 23 → dirBytes fs'.disk (rootBlk fs) z =
        blit (dirBytes fs.disk (rootBlk fs)) (16 * r) 16 (fun _ => 0) z) ∧
      (fs'.inodeTable fs'.rootInode).iSize =
        if r + 1 = nrEntries fs then
          BitVec.ofNat 32 (dirEntrySize * usedBefore fs.disk (rootBlk fs) r)
        else (fs.inodeTable fs.rootInode).iSize := by
  have hfirst := hL.first
  obtain ⟨r, gs, hr, hgs, hs⟩ := removeEntry_ok hs
  have hlt := hr.1
  simp only [DirReach, sectorSize, nrEntries, dirEntrySize] at hreach hlt
  have hmaps (y : ℕ) (hy : y < 512 * 3) : gs.disk y = fs.disk y := by
    rw [hgs, ← Int.natCast_add]
    exact wrSect_below (k := 3) (by omega) (by omega) hy
  have hbytes (z : ℕ) (hz : rootBlk fs + z / 512 < 2 ^ 23) : dirBytes gs.disk (rootBlk fs) z =
      blit (dirBytes fs.disk (rootBlk fs)) (16 * r) 16 (fun _ => 0) z := by
    rw [hgs, dirBytes_blit _ _ _ (by omega) (by omega) (by omega),
      show 512 * (r / 32) + r % 32 * 16 = 16 * r by omega,
      show min 16 (512 - r % 32 * 16) = 16 by omega]
  have hsb : gs.sb = fs.sb := by rw [hgs]
  refine ⟨r, hr, ?_⟩
  split_ifs at hs ⊢ with hlast
  · have hnum' : ((gs.setInode gs.rootInode fun x => { x with
        iSize := BitVec.ofNat 32 (dirEntrySize * usedBefore fs.disk (rootBlk fs) r) }).inodeTable
          gs.rootInode).iNum = (1 : ℕ) := by
      rw [Fs.setInode_inodeTable, if_pos rfl, hgs]
      exact hnum
    have hout := fun y => @syncInode_outside _ fs' gs.rootInode 1 y (hsb ▸ hL) hnum' le_rfl
      (by decide) hs
    obtain ⟨hroot, hsize⟩ := syncInode_resized _ hs
    refine ⟨?_, fun y hy => (hout y (.inl hy)).trans (hmaps y hy), fun z hz => ?_, hroot ▸ hsize⟩
    · obtain ⟨disk, rfl⟩ := syncInode_ok hs
      exact hsb
    · refine Eq.trans (dirBytes_congr (fun y hy => hout y (.inr ?_)) hz) (hbytes z hz)
      rw [Fs.setInode_sb, hsb, ← hstart]
      exact hy
  · subst hs
    exact ⟨hsb, hmaps, hbytes, by rw [hgs]⟩

/-- The root directory is as it was: its inode, and where files are. -/
structure SameDir (fs fs' : Fs) : Prop where
  sb : fs'.sb = fs.sb
  inode : (fs'.inodeTable fs'.rootInode).toDiskInode = (fs.inodeTable fs.rootInode).toDiskInode
  files : ∀ y, 512 * fs.sb.n1stSect ≤ y → fs'.disk y = fs.disk y

namespace SameDir

theorem trans {fs₁ : Fs} (h : SameDir fs fs₁) (h' : SameDir fs₁ fs') : SameDir fs fs' where
  sb := h'.sb.trans h.sb
  inode := h'.inode.trans h.inode
  files y hy := (h'.files y (by rw [h.sb]; exact hy)).trans (h.files y hy)

theorem blk (h : SameDir fs fs') : rootBlk fs' = rootBlk fs :=
  congrArg (fun x => x.iStartSect.toNat) h.inode

theorem entries (h : SameDir fs fs') : nrEntries fs' = nrEntries fs :=
  congrArg (fun x => x.iSize.toNat / dirEntrySize) h.inode

theorem reach (h : SameDir fs fs') (hreach : DirReach fs) : DirReach fs' := by
  unfold DirReach
  rw [h.sb, congrArg DiskInode.iSize h.inode]
  exact hreach

theorem slot {held : Entry → ℕ} (h : SameDir fs fs') (hgood : FsGood False held fs)
    (hreach : DirReach fs) (hk : k < nrEntries fs) :
    slotNr fs'.disk (rootBlk fs') k = slotNr fs.disk (rootBlk fs) k := by
  have hstart : rootBlk fs = fs.sb.n1stSect := hgood.rootStart
  rw [nrEntries] at hk
  simp only [DirReach, sectorSize, dirEntrySize] at hreach hk
  rw [h.blk]
  refine slotNr_congr (fun y hy => h.files y (hstart ▸ hy)) ?_
  rw [hstart]
  omega

theorem removes {held : Entry → ℕ} {nr : BitVec 32} (h : SameDir fs fs')
    (hgood : FsGood False held fs) (hreach : DirReach fs) : Removes fs' nr r ↔ Removes fs nr r := by
  unfold Removes
  rw [h.entries]
  refine and_congr_right fun hr => ?_
  rw [h.slot hgood hreach hr]
  refine and_congr_right fun _ => forall₂_congr fun j hj => ?_
  rw [h.slot hgood hreach (hj.trans hr)]

theorem used {held : Entry → ℕ} (h : SameDir fs fs') (hgood : FsGood False held fs)
    (hreach : DirReach fs) (hr : r ≤ nrEntries fs) :
    usedBefore fs'.disk (rootBlk fs') r = usedBefore fs.disk (rootBlk fs) r := by
  unfold usedBefore
  rw [Nat.count_eq_card_filter_range, Nat.count_eq_card_filter_range]
  congr 1
  refine Finset.filter_congr fun j hj => ?_
  rw [h.slot hgood hreach ((Finset.mem_range.1 hj).trans_le hr)]

end SameDir

theorem GotInode.sameDir {held : Entry → ℕ} {num : Int} {q : Option Entry}
    (h : FsGood False noneHeld fs) (h' : FsGood False held fs') (hgot : GotInode fs num q fs') :
    SameDir fs fs' := by
  obtain ⟨hsb, -, hdisk⟩ := hgot.sb
  refine ⟨hsb, ?_, fun y _ => congrFun hdisk y⟩
  rw [h'.rootDir, h.rootDir, hsb, hdisk]

theorem FileGone.sameDir {n b : ℕ} {disk₃ : Bytes} (h : FsGood.FileGone fs p n b disk₃) :
    SameDir fs { fs.setInode p FsGood.removed with disk := disk₃ } := by
  refine ⟨rfl, ?_, h.files⟩
  change ((fs.setInode p FsGood.removed).inodeTable fs.rootInode).toDiskInode = _
  rw [Fs.setInode_inodeTable, if_neg h.notRoot.2]

/-- A successful `do_unlink` comes to the directory as it was before the call, with the bit of the
inode cleared. -/
theorem unlink_dir {user : Addr → Byte} {msg : Message} (h : FsGood False noneHeld fs)
    (hs : doUnlink user fs msg = .ok (0, fs')) :
    ∃ path fs₂, getPath user msg = .ok path ∧ 1 < (searchFile fs path).toNat ∧ SameDir fs fs₂ ∧
      (fs₂.inodeTable fs₂.rootInode).iNum = (1 : ℕ) ∧
      (∀ k < 4096, imapBit fs₂.disk k =
        (imapBit fs.disk k && ! decide (k = (searchFile fs path).toNat))) ∧
      removeEntry fs₂ fs₂.rootInode (searchFile fs path) = .ok fs' := by
  obtain ⟨path, hpath, hout⟩ := doUnlink_ok hs
  cases hout with
  | @removed fs₁ _ p _ hnr hgot hmode hcnt hrem =>
    obtain ⟨hsb, hroot, hdisk⟩ := hgot.sb
    obtain ⟨hall, hint⟩ := removeFile_marked hnr hrem
    rw [hdisk] at hall
    have hgood := h.got hall hint hgot
    obtain ⟨n, b, disk₃, hgone, hdir⟩ := hgood.removeFile_gone hmode hgot.num
    rw [hdir] at hrem
    have hn : n = (searchFile fs path).toNat := by
      have := hgone.num.symm.trans (hgot.num.trans hint)
      omega
    refine ⟨path, _, hpath, hn ▸ lt_of_le_of_ne hgone.marked.1 (Ne.symm hgone.notRoot.1),
      (GotInode.sameDir h hgood hgot).trans (FileGone.sameDir hgone), ?_, fun k hk => ?_, hrem⟩
    · change ((fs₁.setInode p FsGood.removed).inodeTable fs₁.rootInode).iNum = _
      rw [Fs.setInode_inodeTable, if_neg hgone.notRoot.2]
      exact hgood.cache.root
    · rw [← hn, ← hdisk]
      exact hgone.imap k hk

/-- A regular file in the directory is removed where nothing else refers to it. -/
theorem unlink_total {user : Addr → Byte} {msg : Message} {path : List Byte} {fs₁ : Fs}
    (h : FsGood False noneHeld fs) (hreach : DirReach fs) (hpath : getPath user msg = .ok path)
    (hne : path ≠ [slash]) (hall : Allocated fs.disk (searchFile fs path).toNat)
    (hget : getInode fs (searchFile fs path).toInt = .ok (some p, fs₁))
    (hmode : (fs₁.inodeTable p).iMode = iRegular) (hcnt : (fs₁.inodeTable p).iCnt ≤ 1)
    (hr : Removes fs (searchFile fs path) r) : ∃ fs', doUnlink user fs msg = .ok (0, fs') := by
  have hlt := hall.2.1
  have hnr : searchFile fs path ≠ invalidInode := fun h0 => by
    have := hall.1
    rw [h0] at this
    exact absurd this (by decide)
  obtain ⟨name, hstrip⟩ : ∃ name, stripPath path = some name := by
    rcases hs : stripPath path with _ | name
    · exact absurd (show searchFile fs path = 0 by simp [searchFile, hs]) hnr
    · exact ⟨name, rfl⟩
  have hint : (searchFile fs path).toInt = (searchFile fs path).toNat :=
    BitVec.toInt_eq_toNat_of_lt (by omega)
  have hgot := getInode_ok hget
  have hgood := h.got hall hint hgot
  obtain ⟨n, b, disk₃, hgone, hdir⟩ := hgood.removeFile_gone hmode hgot.num
  have hsame := (GotInode.sameDir h hgood hgot).trans (FileGone.sameDir hgone)
  have hwrap : (fs.inodeTable fs.rootInode).iSize.toNat + sectorSize < 2 ^ 32 := by
    have hfirst := h.layout.first
    simp only [DirReach, sectorSize] at hreach ⊢
    omega
  rw [← congrArg DiskInode.iSize hsame.inode] at hwrap
  obtain ⟨fs', hok⟩ : ∃ fs', removeEntry { fs₁.setInode p FsGood.removed with disk := disk₃ }
      fs₁.rootInode (searchFile fs path) = .ok fs' := by
    refine removeEntry_total ?_ hwrap ((hsame.removes h hreach).2 hr)
    change ((fs₁.setInode p FsGood.removed).inodeTable fs₁.rootInode).iNum = 1
    rw [Fs.setInode_inodeTable, if_neg hgone.notRoot.2]
    exact hgood.cache.root
  refine ⟨fs', ?_⟩
  unfold doUnlink
  rw [hpath, ok_bind, if_neg hne]
  dsimp only
  rw [if_neg hnr, hstrip]
  dsimp only
  rw [hget, ok_bind]
  dsimp only
  rw [if_neg (not_not.2 hmode), if_neg (by omega), hdir, hok, ok_bind]

/-- The entries in use, but for the one that is removed, are within the new size. -/
def KeepsEntries (fs fs' : Fs) (r : ℕ) : Prop :=
  ∀ k < nrEntries fs, slotNr fs.disk (rootBlk fs) k ≠ 0 → k ≠ r →
    dirEntrySize * (k + 1) ≤ (fs'.inodeTable fs'.rootInode).iSize.toNat

/-- No unused entry is before one in use, up to entry `r`. -/
def NoHoles (fs : Fs) (r : ℕ) : Prop :=
  ∀ j k, j < k → k < r → slotNr fs.disk (rootBlk fs) k ≠ 0 → slotNr fs.disk (rootBlk fs) j ≠ 0

theorem keepsEntries_iff
    (hsize : (fs'.inodeTable fs'.rootInode).iSize =
      if r + 1 = nrEntries fs then
        BitVec.ofNat 32 (dirEntrySize * usedBefore fs.disk (rootBlk fs) r)
      else (fs.inodeTable fs.rootInode).iSize) :
    KeepsEntries fs fs' r ↔ (r + 1 = nrEntries fs → NoHoles fs r) := by
  have hlt := (fs.inodeTable fs.rootInode).iSize.isLt
  have hentry : dirEntrySize = 16 := rfl
  have hn : 16 * nrEntries fs ≤ (fs.inodeTable fs.rootInode).iSize.toNat := by
    rw [nrEntries, hentry]
    omega
  unfold KeepsEntries NoHoles
  rw [hsize]
  split_ifs with hlast
  · -- the size is that of as many entries as are in use before the last one
    have hused : usedBefore fs.disk (rootBlk fs) r ≤ r := Nat.count_le _
    rw [BitVec.toNat_ofNat, Nat.mod_eq_of_lt (by rw [hentry]; omega), ← lt_count_iff]
    constructor
    · intro h _ k hk hne
      have := h k (by omega) hne (by omega)
      exact Nat.le_of_mul_le_mul_left this (by decide)
    · intro h k hk hne hkr
      exact Nat.mul_le_mul_left _ (h hlast k (by omega) hne)
  · constructor
    · intro _ he
      exact absurd he hlast
    · intro _ k hk _ _
      rw [hentry]
      omega

/-- The size that a successful `do_unlink` leaves. -/
theorem unlink_size {user : Addr → Byte} {msg : Message} (h : FsGood False noneHeld fs)
    (hreach : DirReach fs) (hs : doUnlink user fs msg = .ok (0, fs')) :
    ∃ path r, getPath user msg = .ok path ∧ Removes fs (searchFile fs path) r ∧
      (fs'.inodeTable fs'.rootInode).iSize =
        if r + 1 = nrEntries fs then
          BitVec.ofNat 32 (dirEntrySize * usedBefore fs.disk (rootBlk fs) r)
        else (fs.inodeTable fs.rootInode).iSize := by
  obtain ⟨path, fs₂, hpath, -, hsame, hnum, -, hremove⟩ := unlink_dir h hs
  obtain ⟨r, hr, -, -, -, hsize⟩ := removeEntry_writes (hsame.sb ▸ h.layout)
    (by rw [hsame.blk, hsame.sb]; exact h.rootStart) hnum (hsame.reach hreach) hremove
  have hr := (hsame.removes h hreach).1 hr
  rw [hsame.entries, hsame.used h hreach hr.1.le, congrArg DiskInode.iSize hsame.inode] at hsize
  exact ⟨path, r, hpath, hr, hsize⟩

/-- A file is removed, and the other entries stay within the directory, unless its entry is the last
one and an unused one is before one in use. -/
theorem unlink_keeps_entries_iff {user : Addr → Byte} {msg : Message} (h : FsGood False noneHeld fs)
    (hreach : DirReach fs) (hs : doUnlink user fs msg = .ok (0, fs')) :
    ∃ path r, getPath user msg = .ok path ∧ Removes fs (searchFile fs path) r ∧
      (KeepsEntries fs fs' r ↔ (r + 1 = nrEntries fs → NoHoles fs r)) := by
  obtain ⟨path, r, hpath, hr, hsize⟩ := unlink_size h hreach hs
  exact ⟨path, r, hpath, hr, keepsEntries_iff hsize⟩

/-- That the file "cmd.tar" is the last entry of the root directory and may be removed. -/
def CmdTarLast (fs : Fs) : Prop :=
  DirReach fs ∧ nrEntries fs = 5 ∧ Removes fs (searchFile fs cmdTar) 4 ∧
    Allocated fs.disk (searchFile fs cmdTar).toNat ∧
    (getInode fs (searchFile fs cmdTar).toInt).toOption.any fun r =>
      r.1.any fun p => decide ((r.2.inodeTable p).iMode = iRegular ∧ (r.2.inodeTable p).iCnt ≤ 1)

instance (fs : Fs) : Decidable (CmdTarLast fs) :=
  inferInstanceAs (Decidable (_ ∧ _ ∧ _ ∧ _ ∧ _ = true))

theorem unlink_cmdTarLast (h : FsGood False noneHeld fs) (hlast : CmdTarLast fs) :
    ∃ fs', doUnlink (textAt cmdTar) fs (nameMsg cmdTar 0) = .ok (0, fs') := by
  obtain ⟨hreach, -, hr, hall, hget⟩ := hlast
  obtain ⟨⟨q, fs₁⟩, hget, hp⟩ := exists_ok_of_any hget
  obtain ⟨p, rfl, hp⟩ := (Option.any_eq_true _ _).1 hp
  obtain ⟨hmode, hcnt⟩ := of_decide_eq_true hp
  have hpath : getPath (textAt cmdTar) (nameMsg cmdTar 0) = .ok cmdTar := by decide
  exact unlink_total h hreach hpath (by decide) hall hget hmode hcnt hr

/-- On a disk that has just been made no entry is unused. -/
theorem unlink_keeps_entries_cmdTar : ∃ fs fs', initFs (fun _ => 0) 40000 = .ok fs ∧
    doUnlink (textAt cmdTar) fs (nameMsg cmdTar 0) = .ok (0, fs') ∧
    ∃ path r, getPath (textAt cmdTar) (nameMsg cmdTar 0) = .ok path ∧
      Removes fs (searchFile fs path) r ∧ KeepsEntries fs fs' r := by
  have hany : ((initFs (fun _ => 0) 40000).toOption.any fun fs =>
      decide (CmdTarLast fs ∧ usedBefore fs.disk (rootBlk fs) 5 = 5)) = true := by decide +kernel
  obtain ⟨fs, hinit, hany⟩ := exists_ok_of_any hany
  obtain ⟨hlast, hused⟩ := of_decide_eq_true hany
  have hgood : FsGood False noneHeld fs := (initFs_good regionsApart_40000 hinit).1
  obtain ⟨fs', hs⟩ := unlink_cmdTarLast hgood hlast
  obtain ⟨hreach, hn, -⟩ := hlast
  obtain ⟨path, r, hpath, hr, hiff⟩ := unlink_keeps_entries_iff hgood hreach hs
  refine ⟨fs, fs', hinit, hs, path, r, hpath, hr, hiff.2 fun hend j k hj hk _ => ?_⟩
  exact Nat.count_iff_forall.1 hused j (by omega)

/-- A directory that starts at sector 269 without its first entry. -/
def holeDisk (disk : Bytes) : Bytes := wrSect disk 269 (blit (rdSect disk 269) 0 16 fun _ => 0)

/-- There the entry of "dev_tty2" is behind the end once "cmd.tar" has been removed. -/
theorem unlink_loses_entry : ∃ fs fs', initFs (fun _ => 0) 40000 = .ok fs ∧
    FsGood True noneHeld { fs with disk := holeDisk fs.disk } ∧
    doUnlink (textAt cmdTar) { fs with disk := holeDisk fs.disk } (nameMsg cmdTar 0) =
      .ok (0, fs') ∧
    Removes { fs with disk := holeDisk fs.disk } 5 4 ∧
    ¬ KeepsEntries { fs with disk := holeDisk fs.disk } fs' 4 := by
  have hany : ((initFs (fun _ => 0) 40000).toOption.any fun fs =>
      decide (fs.sb.n1stSect = 269 ∧ CmdTarLast { fs with disk := holeDisk fs.disk } ∧
        searchFile { fs with disk := holeDisk fs.disk } cmdTar = 5 ∧
        slotNr (holeDisk fs.disk) (rootBlk fs) 0 = 0 ∧
        slotNr (holeDisk fs.disk) (rootBlk fs) 3 ≠ 0)) = true := by decide +kernel
  obtain ⟨fs, hinit, hany⟩ := exists_ok_of_any hany
  obtain ⟨hfirst, hlast, hnr, hhole, hlive⟩ := of_decide_eq_true hany
  have hgood : FsGood True noneHeld { fs with disk := holeDisk fs.disk } := by
    refine (initFs_good regionsApart_40000 hinit).1.of_below fun y hy => ?_
    rw [hfirst] at hy
    exact wrSect_below (s := 269) (k := 269) le_rfl (by decide) hy
  obtain ⟨fs', hs⟩ := unlink_cmdTarLast hgood.loosen hlast
  obtain ⟨hreach, hn, hr, -⟩ := hlast
  rw [hnr] at hr
  refine ⟨fs, fs', hinit, hgood, hs, hr, fun hkeep => ?_⟩
  obtain ⟨path, r, hpath, hr', hsize⟩ := unlink_size hgood.loosen hreach hs
  have hpath' : getPath (textAt cmdTar) (nameMsg cmdTar 0) = .ok cmdTar := by decide
  obtain rfl := Except.ok.inj (hpath'.symm.trans hpath)
  rw [hnr] at hr'
  obtain rfl := hr.unique hr'
  have hnone := (keepsEntries_iff hsize).1 hkeep (by rw [hn])
  unfold NoHoles at hnone
  rw [rootBlk_disk] at hnone
  dsimp only at hnone
  exact hnone 0 3 (by decide) (by decide) hlive hhole

/-! ## A new entry -/

variable {held : Entry → ℕ} {path filename : List Byte}

/-- The first unused entry, or the one behind the last. -/
def freeEntry (fs : Fs) : ℕ :=
  ((List.range (nrEntries fs)).find? fun k => slotNr fs.disk (rootBlk fs) k = 0).getD (nrEntries fs)

theorem first_free {l : ℕ} (hl : nrEntries fs < l) :
    first (scanEnd (nrEntries fs) fun k => slotNr fs.disk (rootBlk fs) k = 0) 0 l =
      some (freeEntry fs, decide (freeEntry fs < nrEntries fs)) := by
  unfold freeEntry
  cases hf : (List.range (nrEntries fs)).find? fun k => slotNr fs.disk (rootBlk fs) k = 0 with
  | none =>
    rw [Option.getD_none, decide_eq_false (lt_irrefl _), scanEnd_false]
    refine ⟨rfl, hl, fun j hj => ?_⟩
    simpa using List.find?_eq_none.1 hf j (List.mem_range.2 hj)
  | some k =>
    rw [List.find?_range_eq_some] at hf
    obtain ⟨hnr, hmem, hbefore⟩ := hf
    have hk := List.mem_range.1 hmem
    rw [Option.getD_some, decide_eq_true hk, scanEnd_true]
    exact ⟨hk, hk.trans hl, by simpa using hnr, fun j hj => by simpa using hbefore j hj⟩

theorem freeEntry_le (fs : Fs) : freeEntry fs ≤ nrEntries fs := by
  unfold freeEntry
  cases hf : (List.range (nrEntries fs)).find? fun k => slotNr fs.disk (rootBlk fs) k = 0 with
  | none => exact le_rfl
  | some k => exact (List.mem_range.1 (List.mem_of_find?_eq_some hf)).le

/-- The number and the name, padded with nulls, are put into the entry; no other byte behind the
maps and the inodes changes, and the directory grows for an entry behind its last one only. -/
def TouchesOwnSlot (fs : Fs) (nr : Int) (filename : List Byte) : Prop :=
  ∃ fs', newDirEntry fs fs.rootInode nr filename = .ok fs' ∧
    (∀ z, rootBlk fs + z / 512 < 2 ^ 23 → dirBytes fs'.disk (rootBlk fs) z =
      blit (dirBytes fs.disk (rootBlk fs)) (dirEntrySize * freeEntry fs) dirEntrySize
        (entryBytes (BitVec.ofInt 32 nr) filename) z) ∧
    (fs'.inodeTable fs'.rootInode).iSize =
      if freeEntry fs < nrEntries fs then (fs.inodeTable fs.rootInode).iSize
      else (fs.inodeTable fs.rootInode).iSize + dirEntrySize

/-- What the name does not cover is null already, and so is the byte behind the entry for a name
that covers all of it, unless that is at the end of a sector. -/
def NameFits (fs : Fs) (filename : List Byte) : Prop :=
  (filename.length = maxFilenameLen → freeEntry fs % nrDirEntriesPerSect + 1 ≠ nrDirEntriesPerSect →
    dirBytes fs.disk (rootBlk fs) (dirEntrySize * freeEntry fs + dirEntrySize) = 0) ∧
  ∀ i < maxFilenameLen, filename.length < i →
    dirBytes fs.disk (rootBlk fs) (dirEntrySize * freeEntry fs + 4 + i) = 0

instance (fs : Fs) (filename : List Byte) : Decidable (NameFits fs filename) :=
  inferInstanceAs (Decidable ((_ → _ → _) ∧ ∀ i < maxFilenameLen, _))

/-- Two writes of the same bytes that differ in length. -/
theorem blit_eq_blit_iff {f g : Bytes} {a m n : ℕ} {P : ℕ → Prop} (hmn : m ≤ n)
    (hP : ∀ i < n, P (a + i)) :
    (∀ z, P z → blit f a m g z = blit f a n g z) ↔ ∀ i, m ≤ i → i < n → f (a + i) = g i := by
  constructor
  · intro h i hm hn
    have := h (a + i) (hP i hn)
    rwa [blit_outside (by omega), blit_inside hn] at this
  · intro h z _
    by_cases hin : a + m ≤ z ∧ z < a + n
    · obtain ⟨i, rfl⟩ := Nat.exists_eq_add_of_le (show a ≤ z by omega)
      rw [blit_outside (by omega), blit_inside (by omega), h i (by omega) (by omega)]
    · unfold blit
      by_cases hlo : a ≤ z ∧ z < a + m
      · rw [if_pos hlo, if_pos (by omega)]
      · rw [if_neg hlo, if_neg (by omega)]

theorem stripPath_length (hname : stripPath path = some filename) :
    filename.length ≤ maxFilenameLen := by
  rw [stripPath_take] at hname
  split_ifs at hname
  obtain rfl := Option.some.inj hname
  exact List.length_take_le _ _

theorem entryBytes_behind {nr : BitVec 32} {i : ℕ} (hi : filename.length + 4 ≤ i) (h4 : 4 ≤ i) :
    entryBytes nr filename i = 0 := by
  rw [entryBytes, if_neg (by omega), List.getD_eq_getElem?_getD, List.getElem?_eq_none (by omega),
    Option.getD_none]

/-- What is written is an entry just where the name fits. -/
theorem written_entry_iff (nr : BitVec 32) (hlen : filename.length ≤ maxFilenameLen)
    (hreach : rootBlk fs + freeEntry fs / 32 < 2 ^ 23) :
    (∀ z, rootBlk fs + z / 512 < 2 ^ 23 →
      blit (dirBytes fs.disk (rootBlk fs)) (16 * freeEntry fs)
          (min (filename.length + 5) (512 - freeEntry fs % 32 * 16)) (entryBytes nr filename) z =
        blit (dirBytes fs.disk (rootBlk fs)) (16 * freeEntry fs) 16 (entryBytes nr filename) z) ↔
      NameFits fs filename := by
  have hmax : maxFilenameLen = 12 := rfl
  have hentry : dirEntrySize = 16 := rfl
  have hper : nrDirEntriesPerSect = 32 := rfl
  unfold NameFits
  rw [hmax] at hlen
  rw [hmax, hentry, hper]
  by_cases hover : filename.length = 12 ∧ freeEntry fs % 32 + 1 ≠ 32
  · -- the null of a name of 12 characters is behind the entry
    rw [show min (filename.length + 5) (512 - freeEntry fs % 32 * 16) = 17 by omega]
    have hiff := @blit_eq_blit_iff (dirBytes fs.disk (rootBlk fs)) (entryBytes nr filename)
      (16 * freeEntry fs) 16 17 (fun z => rootBlk fs + z / 512 < 2 ^ 23) (by decide)
      fun i hi => by omega
    constructor
    · intro h
      have := hiff.1 (fun z hz => (h z hz).symm) 16 le_rfl (by decide)
      rw [entryBytes_behind (by omega) (by decide)] at this
      exact ⟨fun _ _ => this, fun i hi hlt => by omega⟩
    · rintro ⟨hnull, -⟩ z hz
      refine (hiff.2 (fun i hi hlt => ?_) z hz).symm
      obtain rfl : i = 16 := by omega
      rw [hnull hover.1 hover.2, entryBytes_behind (by omega) (by decide)]
  · -- the rest of the entry keeps its bytes
    rw [show min (filename.length + 5) (512 - freeEntry fs % 32 * 16) =
      min (filename.length + 5) 16 by omega]
    rw [blit_eq_blit_iff (P := fun z => rootBlk fs + z / 512 < 2 ^ 23) (Nat.min_le_right _ _)
      fun i hi => by omega]
    constructor
    · intro h
      refine ⟨fun h12 hne => absurd ⟨h12, hne⟩ hover, fun i hi hlt => ?_⟩
      rw [Nat.add_assoc, h (4 + i) (by omega) (by omega), entryBytes_behind (by omega) (by omega)]
    · rintro ⟨-, hnull⟩ i hi hlt
      rw [entryBytes_behind (by omega) (by omega), ← hnull (i - 4) (by omega) (by omega)]
      congr 1
      omega

/-- The entry is put into the directory and its size is set, and then its inode is written. -/
theorem newDirEntry_eq (hwrap : (fs.inodeTable fs.rootInode).iSize.toNat + sectorSize < 2 ^ 32)
    (nr : Int) : ∃ gs, newDirEntry fs fs.rootInode nr filename = syncInode gs fs.rootInode ∧
      gs.sb = fs.sb ∧ gs.rootInode = fs.rootInode ∧
      gs.disk = wrSect fs.disk (rootBlk fs + (freeEntry fs / 32 : ℕ))
        (blit (rdSect fs.disk (rootBlk fs + (freeEntry fs / 32 : ℕ))) (freeEntry fs % 32 * 16)
          (filename.length + 5) (entryBytes (BitVec.ofInt 32 nr) filename)) ∧
      (gs.inodeTable fs.rootInode).iNum = (fs.inodeTable fs.rootInode).iNum ∧
      (gs.inodeTable fs.rootInode).iSize =
        if freeEntry fs < nrEntries fs then (fs.inodeTable fs.rootInode).iSize
        else (fs.inodeTable fs.rootInode).iSize + dirEntrySize := by
  have hwalk : freeLoop fs.disk (rootBlk fs) (nrEntries fs)
      (List.range (unlinkBlks (fs.inodeTable fs.rootInode).iSize)) 0 =
        .ok (freeEntry fs / 32, freeEntry fs % 32, decide (freeEntry fs < nrEntries fs)) := by
    rw [freeLoop_eq, first_free (lt_unlinkBlks hwrap)]
    rfl
  unfold newDirEntry
  dsimp only
  change ∃ gs, (freeLoop fs.disk (rootBlk fs) (nrEntries fs)
    (List.range (unlinkBlks (fs.inodeTable fs.rootInode).iSize)) 0 >>= _) = _ ∧ _
  rw [hwalk, ok_bind]
  dsimp only
  rw [show dirEntrySize = 16 from rfl, strcpy_putWord]
  by_cases hlt : freeEntry fs < nrEntries fs
  · rw [decide_eq_true hlt, if_pos rfl, if_pos hlt]
    exact ⟨_, rfl, rfl, rfl, rfl, rfl, rfl⟩
  · rw [decide_eq_false hlt, if_neg Bool.false_ne_true, if_neg hlt]
    refine ⟨_, rfl, rfl, rfl, rfl, ?_, ?_⟩
    · dsimp only
      rw [Fs.setInode_inodeTable, if_pos rfl]
    · dsimp only
      rw [Fs.setInode_inodeTable, if_pos rfl]

/-- `new_dir_entry` returns, and writes the name with its null, as far as the sector goes. -/
theorem newDirEntry_writes (h : FsGood False held fs) (hreach : DirReach fs) (nr : Int) :
    ∃ fs', newDirEntry fs fs.rootInode nr filename = .ok fs' ∧ fs'.sb = fs.sb ∧
      (∀ y < 512 * 3, fs'.disk y = fs.disk y) ∧
      (∀ z, rootBlk fs + z / 512 < 2 ^ 23 → dirBytes fs'.disk (rootBlk fs) z =
        blit (dirBytes fs.disk (rootBlk fs)) (16 * freeEntry fs)
          (min (filename.length + 5) (512 - freeEntry fs % 32 * 16))
          (entryBytes (BitVec.ofInt 32 nr) filename) z) ∧
      (fs'.inodeTable fs'.rootInode).iSize =
        if freeEntry fs < nrEntries fs then (fs.inodeTable fs.rootInode).iSize
        else (fs.inodeTable fs.rootInode).iSize + dirEntrySize := by
  have hstart : rootBlk fs = fs.sb.n1stSect := h.rootStart
  have hfirst := h.layout.first
  have hle := freeEntry_le fs
  simp only [DirReach, sectorSize] at hreach
  simp only [nrEntries, dirEntrySize] at hle
  obtain ⟨gs, heq, hsb, hroot, hdisk, hnum, hsize⟩ :=
    @newDirEntry_eq fs filename (by simp only [sectorSize]; omega) nr
  have hnum : (gs.inodeTable fs.rootInode).iNum = (1 : ℕ) := by
    rw [hnum, h.cache.root]
    rfl
  obtain ⟨fs', hsync⟩ := syncInode_total hnum le_rfl
  have hout (y : ℕ) (hy : y < 512 * 3 ∨ 512 * rootBlk fs ≤ y) : fs'.disk y = gs.disk y :=
    syncInode_outside (hsb ▸ h.layout) hnum le_rfl (by decide) hsync (by rw [hsb]; omega)
  refine ⟨fs', heq.trans hsync, ?_, fun y hy => ?_, fun z hz => ?_, ?_⟩
  · obtain ⟨disk, rfl⟩ := syncInode_ok hsync
    exact hsb
  · rw [hout y (.inl hy), hdisk, ← Int.natCast_add]
    exact wrSect_below (k := 3) (by omega) (by omega) hy
  · rw [dirBytes_congr (fun y hy => hout y (.inr hy)) hz, hdisk,
      dirBytes_blit _ _ _ (by omega) (by omega) (by omega),
      show 512 * (freeEntry fs / 32) + freeEntry fs % 32 * 16 = 16 * freeEntry fs by omega]
  · obtain ⟨disk, rfl⟩ := syncInode_ok hsync
    dsimp only
    rw [hroot, hsize]

/-- For every directory and every name a path can have. -/
theorem newDirEntry_own_slot_iff (h : FsGood False held fs) (hreach : DirReach fs)
    (hname : stripPath path = some filename) (nr : Int) :
    TouchesOwnSlot fs nr filename ↔ NameFits fs filename := by
  have hstart : rootBlk fs = fs.sb.n1stSect := h.rootStart
  have hfirst := h.layout.first
  have hle := freeEntry_le fs
  have hblk : rootBlk fs + freeEntry fs / 32 < 2 ^ 23 := by
    simp only [DirReach, sectorSize, nrEntries, dirEntrySize] at hreach hle
    omega
  rw [← written_entry_iff (BitVec.ofInt 32 nr) (stripPath_length hname) hblk]
  obtain ⟨fs', hok, -, -, hbytes, hsize⟩ := @newDirEntry_writes _ _ filename h hreach nr
  constructor
  · rintro ⟨fs'', hok', hbytes', -⟩ z hz
    obtain rfl : fs' = fs'' := Except.ok.inj (hok.symm.trans hok')
    exact (hbytes z hz).symm.trans (hbytes' z hz)
  · intro h
    exact ⟨fs', hok, fun z hz => (hbytes z hz).trans (h z hz), hsize⟩

/-- "a" behind the five entries of a disk that has just been made. -/
theorem newDirEntry_own_slot_fresh :
    ∃ fs, initFs (fun _ => 0) 40000 = .ok fs ∧ TouchesOwnSlot fs 6 [0x61] := by
  have hany : ((initFs (fun _ => 0) 40000).toOption.any fun fs =>
      decide (DirReach fs ∧ NameFits fs [0x61])) = true := by decide +kernel
  obtain ⟨fs, hinit, hany⟩ := exists_ok_of_any hany
  obtain ⟨hreach, hfits⟩ := of_decide_eq_true hany
  have hname : stripPath [0x61] = some [0x61] := by decide
  exact ⟨fs, hinit, (newDirEntry_own_slot_iff (initFs_good regionsApart_40000 hinit).1 hreach hname
    6).2 hfits⟩

/-- There a name of 12 characters takes its number from the entry of "dev_tty0". -/
theorem newDirEntry_next_slot : ∃ fs, initFs (fun _ => 0) 40000 = .ok fs ∧
    slotNr (holeDisk fs.disk) (rootBlk fs) 1 = 2 ∧
    stripPath (List.replicate 12 0x61) = some (List.replicate 12 0x61) ∧
    ¬ TouchesOwnSlot { fs with disk := holeDisk fs.disk } 6 (List.replicate 12 0x61) := by
  have hany : ((initFs (fun _ => 0) 40000).toOption.any fun fs =>
      decide (slotNr (holeDisk fs.disk) (rootBlk fs) 1 = 2 ∧ rootBlk fs = 269 ∧
        freeEntry { fs with disk := holeDisk fs.disk } = 0) &&
      ((newDirEntry { fs with disk := holeDisk fs.disk } fs.rootInode 6
        (List.replicate 12 0x61)).toOption.any fun fs' =>
          decide (slotNr fs'.disk 269 1 = 0))) = true := by decide +kernel
  obtain ⟨fs, hinit, hany⟩ := exists_ok_of_any hany
  rw [Bool.and_eq_true] at hany
  obtain ⟨hnr, hblk, hfree⟩ := of_decide_eq_true hany.1
  obtain ⟨fs₁, hok, hlost⟩ := exists_ok_of_any hany.2
  refine ⟨fs, hinit, hnr, by decide, ?_⟩
  rintro ⟨fs', hok', hbytes, -⟩
  dsimp only at hok'
  rw [hok] at hok'
  obtain rfl := Except.ok.inj hok'
  have hlost := of_decide_eq_true hlost
  rw [rootBlk_disk, hblk, hfree] at hbytes
  rw [hblk] at hnr
  have hsame : slotNr fs₁.disk 269 1 = slotNr (holeDisk fs.disk) 269 1 := by
    rw [slotNr_eq, slotNr_eq]
    refine word_congr fun i hi => ?_
    rw [hbytes _ (by omega), blit_outside (.inr (by simp only [dirEntrySize]; omega))]
  rw [hlost, hnr] at hsame
  exact absurd hsame (by decide)

end MyOS
