import MyOS.Proofs.FsSteps
import MyOS.Proofs.SmapFree

/-!
# Creating and removing files

`create_file` marks an inode and a row of sectors that were clear, `do_unlink` clears those of the
file it removes, and both write to the root directory, whose sectors are those of files.
-/

namespace MyOS

open Memory Block RefTable

variable {tight : Prop} {fs fs' : Fs} {disk' : Bytes} {p : Entry}

/-- The sectors of the root directory, up to its size and one more, have positions of 32 bits. -/
def RootReach (fs : Fs) : Prop :=
  fs.sb.n1stSect + ((fs.inodeTable fs.rootInode).iSize + sectorSize).toNat / sectorSize ≤ 2 ^ 23

instance (fs : Fs) : Decidable (RootReach fs) := inferInstanceAs (Decidable (_ ≤ _))

/-- Descriptors and the entries of `filp` are as before, and inodes in use stay so. -/
structure SameRefs (fs fs' : Fs) : Prop where
  filp : fs'.filp = fs.filp
  desc : fs'.fDescTable = fs.fDescTable
  num : ∀ q, (fs.inodeTable q).iCnt ≠ 0 →
    (fs'.inodeTable q).iCnt ≠ 0 ∧ (fs'.inodeTable q).iNum = (fs.inodeTable q).iNum

theorem SameRefs.trans {fs₁ : Fs} (h : SameRefs fs fs₁) (h' : SameRefs fs₁ fs') :
    SameRefs fs fs' where
  filp := h'.filp.trans h.filp
  desc := h'.desc.trans h.desc
  num q hq := by
    obtain ⟨hcnt, hnum⟩ := h.num q hq
    obtain ⟨hcnt', hnum'⟩ := h'.num q hcnt
    exact ⟨hcnt', hnum'.trans hnum⟩

theorem sameRefs_size (size : Inode → BitVec 32)
    (hs : syncInode (fs.setInode p fun x => { x with iSize := size x }) p = .ok fs') :
    SameRefs fs fs' := by
  obtain ⟨disk, rfl⟩ := syncInode_ok hs
  refine ⟨rfl, rfl, fun q hcnt => ?_⟩
  change ((fs.setInode p fun x => { x with iSize := size x }).inodeTable q).iCnt ≠ 0 ∧
    ((fs.setInode p fun x => { x with iSize := size x }).inodeTable q).iNum = _
  rw [Fs.setInode_inodeTable]
  split_ifs with hq
  · rw [hq] at hcnt ⊢
    exact ⟨hcnt, rfl⟩
  · exact ⟨hcnt, rfl⟩

/-! ## The root directory -/

theorem freeLoop_mem {disk : Bytes} {blk nr : ℕ} {i j : ℕ} {free : Bool} : ∀ {l : List ℕ} {m : ℕ},
    freeLoop disk blk nr l m = .ok (i, j, free) → i ∈ l
  | [], m, h => nomatch h
  | k :: l, m, h => by
    unfold freeLoop at h
    split at h
    · obtain ⟨rfl, -⟩ := Prod.mk.inj (Except.ok.inj h)
      exact List.mem_cons_self
    · exact nomatch h
    · exact List.mem_cons_of_mem _ (freeLoop_mem h)

theorem findLoop_mem {disk : Bytes} {blk nr : ℕ} {inodeNr : BitVec 32} {i : ℕ} {r : ℕ × ℕ × ℕ} :
    ∀ {l : List ℕ} {m dirSize : ℕ}, findLoop disk blk nr inodeNr l m dirSize = some (i, r) → i ∈ l
  | [], m, dirSize, h => nomatch h
  | k :: l, m, dirSize, h => by
    unfold findLoop at h
    split at h
    · obtain ⟨rfl, -⟩ := Prod.mk.inj (Option.some.inj h)
      exact List.mem_cons_self
    · exact nomatch h
    · exact List.mem_cons_of_mem _ (findLoop_mem h)

/-! ## Numbers for inodes -/

/-- No number comes out of the map of inodes: its first sector is full, or inode 0 is not marked. -/
def NoInode (fs : Fs) : Prop := (∀ n < 4096, imapBit fs.disk n = true) ∨ imapBit fs.disk 0 = false

theorem allocImapBit_zero (hs : allocImapBit fs = .ok (0, fs')) :
    (∀ n < 4096, imapBit fs.disk n = true) ∧ fs' = fs ∨ imapBit fs.disk 0 = false ∧
      ∃ disk', fs' = { fs with disk := disk' } ∧ Marked fs.disk disk' (8 * sectorSize * 2) 1 := by
  have hnr : fs.sb.nrImapSects ≠ 0 := fun hnr => by
    unfold allocImapBit at hs
    rw [if_pos hnr] at hs
    exact nomatch hs
  by_cases hset : ∀ k < 4096, imapBit fs.disk k = true
  · rw [allocImapBit_full hnr hset] at hs
    exact .inl ⟨hset, (Prod.mk.inj (Except.ok.inj hs)).2.symm⟩
  · simp only [not_forall] at hset
    obtain ⟨k, hk, hclear⟩ := hset
    obtain ⟨m, disk', hok, -, -, hmark⟩ := allocImapBit_first hnr hk (by simpa using hclear)
    rw [hok] at hs
    obtain ⟨rfl, rfl⟩ := Prod.mk.inj (Except.ok.inj hs)
    exact .inr ⟨hmark.clear _ le_rfl (Nat.lt_succ_self _), disk', rfl, hmark⟩

theorem NoFile.eq {path : List Byte} (h : NoFile fs path fs')
    (hno : ∀ filename, stripPath path = some filename → ¬ NoInode fs) : fs' = fs := by
  cases h with
  | unnamed => rfl
  | noInode filename sect fs₁ fs₂ _ hname himap =>
    refine absurd ?_ (hno filename hname)
    exact (allocImapBit_zero himap).imp And.left And.left

namespace FsGood

variable {held : Entry → ℕ}

theorem rootStart (h : FsGood tight held fs) :
    (fs.inodeTable fs.rootInode).iStartSect.toNat = fs.sb.n1stSect :=
  (congrArg (fun x => x.iStartSect.toNat) h.rootDir).trans h.disk.rootStart

/-- A sector of the root directory is written. -/
theorem wrRoot {i : ℕ} (fsbuf : Bytes) (h : FsGood tight held fs) (hreach : RootReach fs)
    (hi : i < ((fs.inodeTable fs.rootInode).iSize + sectorSize).toNat / sectorSize) :
    FsGood tight held { fs with
      disk := wrSect fs.disk ((fs.inodeTable fs.rootInode).iStartSect.toNat + i) fsbuf } := by
  unfold RootReach at hreach
  refine h.of_below fun y hy => ?_
  rw [h.rootStart]
  exact wrSect_below (s := fs.sb.n1stSect + i) (k := fs.sb.n1stSect) (by omega) (by omega) hy

theorem newDirEntry {nr : Int} {name : List Byte} (h : FsGood tight held fs) (hreach : RootReach fs)
    (hs : newDirEntry fs fs.rootInode nr name = .ok fs') :
    FsGood tight held fs' ∧ SameRefs fs fs' := by
  unfold MyOS.newDirEntry at hs
  obtain ⟨⟨i, j, free⟩, hloop, hs⟩ := bind_eq_ok.1 hs
  dsimp only at hs
  have hi := List.mem_range.1 (freeLoop_mem hloop)
  -- the size is set in either case
  have hsize : (if free then fs else fs.setInode fs.rootInode fun x =>
      { x with iSize := x.iSize + dirEntrySize }) = fs.setInode fs.rootInode fun x =>
        { x with iSize := if free then x.iSize else x.iSize + dirEntrySize } := by
    cases free with
    | false => rfl
    | true => simp [Fs.setInode]
  simp only [hsize, Fs.setInode_disk] at hs
  generalize strcpy _ _ _ = fsbuf at hs
  change syncInode (Fs.setInode { fs with
    disk := wrSect fs.disk ((fs.inodeTable fs.rootInode).iStartSect.toNat + i) fsbuf } fs.rootInode
      fun x => { x with iSize := if free then x.iSize else x.iSize + dirEntrySize }) _ = _ at hs
  have hsame := sameRefs_size _ hs
  exact ⟨(h.wrRoot _ hreach hi).resize _ h.rootCnt hs, hsame.filp, hsame.desc, hsame.num⟩

theorem removeEntry {nr : BitVec 32} (h : FsGood tight held fs) (hreach : RootReach fs)
    (hs : removeEntry fs fs.rootInode nr = .ok fs') : FsGood tight held fs' ∧ SameRefs fs fs' := by
  unfold MyOS.removeEntry at hs
  dsimp only at hs
  split at hs
  · exact nomatch hs
  rename_i i j m dirSize hloop
  have hi := List.mem_range.1 (findLoop_mem hloop)
  have hgood := h.wrRoot (blit (rdSect fs.disk
    ((fs.inodeTable fs.rootInode).iStartSect.toNat + i)) (j * dirEntrySize) dirEntrySize fun _ => 0)
    hreach hi
  split_ifs at hs with hlast
  · have hsame := sameRefs_size _ hs
    exact ⟨hgood.resize _ h.rootCnt hs, hsame.filp, hsame.desc, hsame.num⟩
  · obtain rfl := Except.ok.inj hs
    exact ⟨hgood, rfl, rfl, fun q hq => ⟨hq, rfl⟩⟩

/-! ## Creating -/

/-- The inode `new_inode` writes. -/
def newFile (n startSect : ℕ) : Inode where
  iMode := iRegular
  iSize := 0
  iStartSect := BitVec.ofNat 32 startSect
  iNrSects := BitVec.ofNat 32 nrDefaultFileSects
  iCnt := 1
  iNum := n

theorem newInode_ok {n startSect : ℕ} (hs : newInode fs n startSect = .ok (some p, fs')) :
    ∃ fs₁, GotInode fs n (some p) fs₁ ∧
      syncInode (fs₁.setInode p fun _ => newFile n startSect) p = .ok fs' := by
  unfold newInode at hs
  obtain ⟨⟨q, fs₁⟩, hgot, hs⟩ := bind_eq_ok.1 hs
  cases q with
  | none => exact nomatch (Prod.mk.inj (Except.ok.inj hs)).1
  | some q =>
    dsimp only at hs
    obtain ⟨fs₂, hsync, hs⟩ := bind_eq_ok.1 hs
    obtain ⟨hq, rfl⟩ := Prod.mk.inj (Except.ok.inj hs)
    obtain rfl := Option.some.inj hq
    exact ⟨fs₁, getInode_ok hgot, hsync⟩

/-- What `create_file` has done when it comes to the directory: inode `n` is marked and is that of
the new file, and nothing has changed where files are. -/
structure FileMade (tight : Prop) (fs fs' : Fs) (p : Entry) (n : ℕ) : Prop where
  good : FsGood tight (one p) fs'
  refs : SameRefs fs fs'
  sb : fs'.sb = fs.sb
  rootInode : fs'.rootInode = fs.rootInode
  root : fs'.inodeTable fs.rootInode = fs.inodeTable fs.rootInode
  file : ∃ startSect, fs'.inodeTable p = newFile n startSect
  clear : imapBit fs.disk n = false
  imap : ∀ k < 4096, imapBit fs'.disk k = (imapBit fs.disk k || decide (k = n))
  files : ∀ y, 512 * fs.sb.n1stSect ≤ y → fs'.disk y = fs.disk y

/-- The disk with inode `n` and the sectors of the bits from `b` on marked, and the inode written as
that of a new file. -/
theorem newFile_disk {sb : SuperBlock} {disk disk₁ disk₂ disk' : Bytes} {n b : ℕ} (hL : Layout sb)
    (h : DiskOk tight sb disk) (hn : 1 ≤ n) (hn' : n < 4096)
    (himap : Marked disk disk₁ (8 * sectorSize * 2 + n) 1) (hb : 1 ≤ b)
    (hc : b + nrDefaultFileSects ≤ 4096 * sb.nrSmapSects)
    (hsmap : Marked disk₁ disk₂ (4096 * 3 + b) nrDefaultFileSects)
    (hinode : diskInode sb disk' n = (newFile n (b + sb.n1stSect - 1)).toDiskInode)
    (hframe : ∀ y, y < inodePos sb n ∨ inodePos sb n + 16 ≤ y → disk' y = disk₂ y) :
    DiskOk tight sb disk' := by
  have hfirst := hL.first
  have hsmall := hL.small
  have hsect : 8 * sectorSize * 2 = 8192 := rfl
  have hnr : nrDefaultFileSects = 512 := rfl
  have hpos := inodePos_bounds hL hn hn'.le
  have hfree : imapBit disk n = false := himap.clear _ le_rfl (Nat.lt_succ_self _)
  have hclear (k : ℕ) (hk : b ≤ k) (hk' : k < b + nrDefaultFileSects) :
      smapBit sb disk k = false := by
    rw [← smapBit_inode hL himap hn', smapBit_eq hL]
    exact hsmap.clear _ (by omega) (by omega)
  refine h.create hL hn hn' hfree (fun k hk => ?_) hb hc hclear (fun k hk => ?_)
    (fun k hk => ?_) ?_ ?_ ?_
  · rw [imapBit_congr (fun y hy => hframe y (by omega)) hk, imapBit_sects hsmap hk,
      imapBit_inode himap]
  · rw [smapBit_congr hL (fun y hy => hframe y (by omega)) hk, smapBit_sects hL hsmap,
      smapBit_inode hL himap hn']
  · have hkn : k ≠ n := by
      rintro rfl
      exact Bool.false_ne_true (hfree.symm.trans hk.2.2)
    have hapart := inodePos_apart hL hn hk.1 hkn
    have hpos' := inodePos_bounds hL hk.1 hk.2.1.le
    rw [diskInode_congr fun y hy hy' => hframe y (by omega),
      diskInode_marked hL hsmap (by omega) hk.1 hk.2.1,
      diskInode_marked hL himap (by omega) hk.1 hk.2.1]
  · rw [hinode]
    exact .inl (show iRegular &&& iTypeMask = iRegular by decide)
  · rw [hinode]
    simp only [newFile, BitVec.toNat_ofNat]
    omega
  · rw [hinode]
    rfl

/-- Inode `n` and the sectors of the bits from `b` on have been marked; the inode is read into a
free entry, since none in use has its number, and written as that of a new file. -/
theorem newInode {n b : ℕ} {disk₁ disk₂ : Bytes} (h : FsGood tight noneHeld fs) (hn : 1 ≤ n)
    (hn' : n < 4096) (himap : Marked fs.disk disk₁ (8 * sectorSize * 2 + n) 1) (hb : 1 ≤ b)
    (hc : b + nrDefaultFileSects ≤ 4096 * fs.sb.nrSmapSects)
    (hsmap : Marked disk₁ disk₂ (4096 * 3 + b) nrDefaultFileSects)
    (hs : newInode { fs with disk := disk₂ } n (b + fs.sb.n1stSect - 1) = .ok (some p, fs')) :
    FileMade tight fs fs' p n := by
  have hL := h.layout
  have hfirst := hL.first
  have hsect : 8 * sectorSize * 2 = 8192 := rfl
  have hfree : imapBit fs.disk n = false := himap.clear _ le_rfl (Nat.lt_succ_self _)
  have himap₂ (k : ℕ) (hk : k < 4096) :
      imapBit disk₂ k = (imapBit fs.disk k || decide (k = n)) :=
    (imapBit_sects hsmap hk).trans (imapBit_inode himap k)
  have hmarked : Allocated disk₂ n :=
    ⟨hn, hn', by rw [himap₂ n hn', decide_eq_true rfl, Bool.or_true]⟩
  have hcache : CacheOk { fs with disk := disk₂ } := h.cache.onDisk fun q hq k hnum hk =>
    ⟨by rw [himap₂ k hk.2.1, hk.2.2, Bool.true_or],
      (diskInode_marked hL hsmap (by omega) hk.1 hk.2.1).trans
        (diskInode_marked hL himap (by omega) hk.1 hk.2.1)⟩
  -- no inode in use has the number
  have hother (q : Entry) (hq : (fs.inodeTable q).iCnt ≠ 0) : (fs.inodeTable q).iNum ≠ n := by
    intro he
    obtain ⟨k, hnum, hk⟩ := h.cache.num q hq
    obtain rfl : k = n := by omega
    exact Bool.false_ne_true (hfree.symm.trans hk.2.2)
  obtain ⟨fs₁, hgot, hsync⟩ := newInode_ok hs
  cases hgot with
  | hit _ _ hcnt hnum => exact absurd hnum (hother p hcnt)
  | miss _ _ _ hzero _ =>
  have hzero : (fs.inodeTable p).iCnt = 0 := hzero
  have hroot : p ≠ fs.rootInode := fun he => h.rootCnt (he ▸ hzero)
  rw [Fs.setInode_setInode] at hsync
  obtain ⟨hcache', disk', rfl, hinode, hframe⟩ := hcache.write hL hmarked rfl
    (fun q _ => hother q) (fun he => absurd he hroot) hsync
  have hpos := inodePos_bounds hL hn hn'.le
  have hframe (y : ℕ) (hy : y < inodePos fs.sb n ∨ inodePos fs.sb n + 16 ≤ y) :
      disk' y = disk₂ y := hframe y hy
  have hrefs : Counted (fs.setInode p fun _ => newFile n (b + fs.sb.n1stSect - 1)).table
      (fs.extra (one p)) := by
    refine counted_setInode h.refs ?_ fun q hq => ?_
    · rw [extra_one, if_pos rfl, hzero]
      simp only [newFile]
      omega
    · rw [extra_one, if_neg hq, Nat.add_zero]
  refine ⟨⟨hL, hrefs, hcache', newFile_disk hL h.disk hn hn' himap hb hc hsmap hinode hframe⟩,
    ⟨rfl, rfl, fun q hq => ?_⟩, rfl, rfl, ?_, ⟨b + fs.sb.n1stSect - 1, ?_⟩, hfree,
    fun k hk => ?_, fun y hy => ?_⟩
  · change ((fs.setInode p fun _ => newFile n (b + fs.sb.n1stSect - 1)).inodeTable q).iCnt ≠ 0 ∧
      ((fs.setInode p fun _ => newFile n (b + fs.sb.n1stSect - 1)).inodeTable q).iNum = _
    rw [Fs.setInode_inodeTable, if_neg fun he : q = p => hq (he ▸ hzero)]
    exact ⟨hq, rfl⟩
  · change (fs.setInode p fun _ => newFile n (b + fs.sb.n1stSect - 1)).inodeTable fs.rootInode = _
    rw [Fs.setInode_inodeTable, if_neg (Ne.symm hroot)]
  · change (fs.setInode p fun _ => newFile n (b + fs.sb.n1stSect - 1)).inodeTable p = _
    rw [Fs.setInode_inodeTable, if_pos rfl]
  · rw [imapBit_congr (fun y hy => hframe y (by omega)) hk, himap₂ k hk]
  · exact (hframe y (by omega)).trans ((hsmap.byte_eq (by omega)).trans (himap.byte_eq (by omega)))

/-- `create_file` comes to the directory, with a name for it. -/
theorem createFile_made {path : List Byte} (h : FsGood tight noneHeld fs)
    (hs : MyOS.createFile fs path = .ok (some p, fs')) :
    ∃ filename n fs₁, stripPath path = some filename ∧ FileMade tight fs fs₁ p n ∧
      MyOS.newDirEntry fs₁ fs₁.rootInode n filename = .ok fs' := by
  have hL := h.layout
  have hfirst := hL.first
  unfold MyOS.createFile at hs
  split at hs
  · exact nomatch (Prod.mk.inj (Except.ok.inj hs)).1
  rename_i name hname
  obtain ⟨⟨n, fs₁⟩, himap, hs⟩ := bind_eq_ok.1 hs
  obtain ⟨⟨sect, fs₂⟩, hsmap, hs⟩ := bind_eq_ok.1 hs
  obtain ⟨⟨q, fs₃⟩, hnew, hs⟩ := bind_eq_ok.1 hs
  obtain ⟨fs₄, hdir, hs⟩ := bind_eq_ok.1 hs
  obtain ⟨rfl, rfl⟩ := Prod.mk.inj (Except.ok.inj hs)
  rcases allocImapBit_ok himap with rfl | ⟨hn', disk₁, rfl, hmark₁⟩
  · -- the map is full, and `new_inode` gets a null pointer
    obtain ⟨fs₅, hgot, -⟩ := newInode_ok hnew
    cases hgot with
    | hit _ hnum => exact absurd rfl hnum
    | miss _ hnum => exact absurd rfl hnum
  have hn : 1 ≤ n := by
    refine Nat.one_le_iff_ne_zero.2 fun hn => ?_
    have hfree := hmark₁.clear _ le_rfl (Nat.lt_succ_self _)
    rw [hn] at hfree
    exact Bool.false_ne_true (hfree.symm.trans h.disk.imap0)
  have hzero : smapBit fs.sb disk₁ 0 = true := by
    rw [smapBit_inode hL hmark₁ hn', h.disk.smap0]
  obtain ⟨b, disk₂, hb, hc, rfl, rfl, hmark₂⟩ := @allocSmapBit_ok { fs with disk := disk₁ } _ _ _ hL
    (by decide) hzero hsmap
  have hmade := h.newInode hn hn' hmark₁ hb hc hmark₂ hnew
  obtain ⟨startSect, hfile⟩ := hmade.file
  rw [Option.elim_some, hfile] at hdir
  exact ⟨name, n, fs₃, hname, hmade, hdir⟩

theorem createFile {path : List Byte} (h : FsGood tight noneHeld fs) (hreach : RootReach fs)
    (hs : createFile fs path = .ok (some p, fs')) : FsGood tight (one p) fs' ∧ SameRefs fs fs' := by
  obtain ⟨filename, n, fs₁, -, hmade, hdir⟩ := h.createFile_made hs
  have hreach' : RootReach fs₁ := by
    unfold RootReach
    rw [hmade.sb, hmade.rootInode, hmade.root]
    exact hreach
  obtain ⟨hgood, hsame⟩ := hmade.good.newDirEntry hreach' hdir
  exact ⟨hgood, hmade.refs.trans hsame⟩

/-- The sectors of a file are marked, and there is none: nothing else is lost. -/
theorem marked {b c : ℕ} (h : FsGood tight held fs) (hno : ¬ tight)
    (hmark : Marked fs.disk disk' (4096 * 3 + b) c) (hc : b + c ≤ 4096 * fs.sb.nrSmapSects) :
    FsGood tight held { fs with disk := disk' } := by
  have hL := h.layout
  have hfirst := hL.first
  have himap (n : ℕ) (hn : n < 4096) : imapBit disk' n = imapBit fs.disk n :=
    imapBit_sects hmark hn
  have hsmap := smapBit_sects hL hmark
  have hinode (n : ℕ) (hn : Allocated fs.disk n) :
      diskInode fs.sb disk' n = diskInode fs.sb fs.disk n :=
    diskInode_marked hL hmark (by omega) hn.1 hn.2.1
  have hall (n : ℕ) (hn : Allocated disk' n) : Allocated fs.disk n :=
    ⟨hn.1, hn.2.1, by rw [← himap n hn.2.1, hn.2.2]⟩
  have hone := h.disk.allocated_one
  refine ⟨hL, h.refs, h.cache.onDisk fun p hp n hnum hn => ⟨himap n hn.2.1, hinode n hn⟩, ?_⟩
  refine ⟨?_, ?_, ?_, ?_, ?_, fun n hn hs => ?_, fun k hk hk' => ?_, fun he => absurd he hno,
    fun n n' k hn hn' hk ho ho' => ?_⟩
  · exact (himap 0 (by decide)).trans h.disk.imap0
  · exact (hsmap 0).trans (by rw [h.disk.smap0, Bool.true_or])
  · exact (himap 1 (by decide)).trans h.disk.root
  · exact (congrArg DiskInode.iMode (hinode 1 hone)).trans h.disk.rootMode
  · exact (congrArg (fun x => x.iStartSect.toNat) (hinode 1 hone)).trans h.disk.rootStart
  · have hn := hall n hn
    rw [hinode n hn] at hs ⊢
    exact h.disk.inside n hn hs
  · rintro ⟨n, hn, ho⟩
    have hn := hall n hn
    rw [hinode n hn] at ho
    exact (hsmap k).trans (by rw [h.disk.owned k hk hk' ⟨n, hn, ho⟩, Bool.true_or])
  · have hn := hall n hn
    have hn' := hall n' hn'
    rw [hinode n hn] at ho
    rw [hinode n' hn'] at ho'
    exact h.disk.apart n n' k hn hn' hk ho ho'

/-- What `create_file` has done where no inode is free: the sectors of a file are marked all the
same, and the directory gets an entry with its name and no number. -/
structure NullMade (fs : Fs) (path : List Byte) (b : ℕ) (disk₁ : Bytes) (fs' : Fs) : Prop where
  full : ∀ n < 4096, imapBit fs.disk n = true
  pos : 1 ≤ b
  le : b + nrDefaultFileSects ≤ 4096 * fs.sb.nrSmapSects
  mark : Marked fs.disk disk₁ (4096 * 3 + b) nrDefaultFileSects
  entry : ∃ filename, stripPath path = some filename ∧
    MyOS.newDirEntry { fs with disk := disk₁ } fs.rootInode 0 filename = .ok fs'

theorem noFile (h : FsGood tight noneHeld fs) {path : List Byte} (hs : NoFile fs path fs') :
    fs' = fs ∨ ∃ b disk₁, NullMade fs path b disk₁ fs' := by
  cases hs with
  | unnamed _ => exact .inl rfl
  | noInode filename sect fs₁ fs₂ _ hname himap hsmap hdir =>
    obtain ⟨hfull, rfl⟩ := (allocImapBit_zero himap).resolve_right fun hno =>
      Bool.false_ne_true (hno.1.symm.trans h.disk.imap0)
    obtain ⟨b, disk₁, hb, hc, -, rfl, hmark⟩ :=
      allocSmapBit_ok h.layout (by decide) h.disk.smap0 hsmap
    exact .inr ⟨b, disk₁, hfull, hb, hc, hmark, filename, hname, hdir⟩

theorem NullMade.good {path : List Byte} {b : ℕ} {disk₁ : Bytes}
    (hm : NullMade fs path b disk₁ fs') (h : FsGood tight noneHeld fs) (hno : ¬ tight)
    (hreach : RootReach fs) : FsGood tight noneHeld fs' ∧ SameRefs fs fs' := by
  obtain ⟨filename, -, hdir⟩ := hm.entry
  have hmarked := h.marked hno hm.mark hm.le
  have hreach' : RootReach { fs with disk := disk₁ } := hreach
  obtain ⟨hgood, hsame⟩ := hmarked.newDirEntry hreach' hdir
  exact ⟨hgood, hsame.filp, hsame.desc, hsame.num⟩

/-! ## Removing -/

/-- What `do_unlink` writes for the inode, -/
def cleared (x : Inode) : Inode :=
  { x with iMode := 0, iSize := 0, iStartSect := 0, iNrSects := 0 }

/-- and what it leaves in the table. -/
def removed (x : Inode) : Inode := { cleared x with iCnt := x.iCnt - 1 }

/-- Where no assertion fails `do_unlink` comes to the directory. -/
theorem removeFile_eq {nr : BitVec 32} {n : ℕ} {disk₁ disk₂ disk₃ : Bytes} (hnat : nr.toNat = n)
    (hpos : 0 ≤ nr.toInt) (hn : n < 4096) (hbit : bit (rdSect fs.disk 2) n = true)
    (hclear : wrSect fs.disk 2 (clearBit (rdSect fs.disk 2) n) = disk₁)
    (hfree : freeSmap fs.sb disk₁ (fs.inodeTable p).iStartSect (fs.inodeTable p).iNrSects =
      .ok disk₂)
    (hsync : syncInode ({ fs with disk := disk₂ }.setInode p cleared) p =
      .ok { { fs with disk := disk₂ }.setInode p cleared with disk := disk₃ })
    (hcnt : 0 < (fs.inodeTable p).iCnt) : MyOS.removeFile fs p nr =
      MyOS.removeEntry { fs.setInode p removed with disk := disk₃ } fs.rootInode nr := by
  have hput : putInode { { fs with disk := disk₂ }.setInode p cleared with disk := disk₃ } p =
      .ok { fs.setInode p removed with disk := disk₃ } := by
    unfold putInode
    rw [assert_of (by simpa [Fs.setInode, cleared] using hcnt), ok_bind]
    simp [Fs.setInode, removed, cleared]
  have hsect : sectorSize = 512 := rfl
  unfold MyOS.removeFile
  dsimp only
  rw [hnat, if_neg (by omega), assert_of (by omega), ok_bind, assert_of hbit, ok_bind, hclear,
    hfree, ok_bind, show (fun x : Inode => { x with
      iMode := 0, iSize := 0, iStartSect := 0, iNrSects := 0 }) = cleared from rfl,
    hsync, ok_bind, hput, ok_bind]
  rfl

/-- The bits of the sectors of a file are set. -/
theorem full_sects {sb : SuperBlock} {disk : Bytes} {n b : ℕ} (h : DiskOk tight sb disk)
    (hall : Allocated disk n) (hsects : (diskInode sb disk n).HasSects)
    (hb : (diskInode sb disk n).iStartSect.toNat + 1 = b + sb.n1stSect) :
    Full disk (smapBase sb + b) (diskInode sb disk n).iNrSects.toNat := by
  intro x hx hx'
  obtain ⟨k, rfl⟩ := Nat.exists_eq_add_of_le ((Nat.le_add_right _ _).trans hx)
  obtain ⟨hlo, hhi⟩ := h.inside n hall hsects
  exact h.owned k (by omega) (by omega) ⟨n, hall, hsects, by omega, by omega⟩

/-- Where the inode is written nothing else is. -/
theorem sync_cleared {n : ℕ} {disk₂ disk₃ : Bytes} (hL : Layout fs.sb)
    (hnum : (fs.inodeTable p).iNum = n) (hn : 1 ≤ n) (hn' : n ≤ 4096)
    (hs : syncInode ({ fs with disk := disk₂ }.setInode p cleared) p =
      .ok { { fs with disk := disk₂ }.setInode p cleared with disk := disk₃ }) :
    ∀ y, y < inodePos fs.sb n ∨ inodePos fs.sb n + 16 ≤ y → disk₃ y = disk₂ y := by
  have hsb : ({ fs with disk := disk₂ }.setInode p cleared).sb = fs.sb := rfl
  have hdisk : ({ fs with disk := disk₂ }.setInode p cleared).disk = disk₂ := rfl
  have hself : (({ fs with disk := disk₂ }.setInode p cleared).inodeTable p).iNum = (n : Int) := by
    rw [Fs.setInode_inodeTable, if_pos rfl]
    exact hnum
  generalize ({ fs with disk := disk₂ }.setInode p cleared) = gs at hs hsb hdisk hself
  subst hdisk
  obtain ⟨disk', he, -, hframe⟩ := syncInode_inode (hsb ▸ hL) hself hn hn' hs
  obtain rfl : disk₃ = disk' := congrArg Fs.disk he
  rw [← hsb]
  exact hframe

/-- The maps and the other inodes, when inode `n` and its sectors are gone. -/
theorem removed_disk {sb : SuperBlock} {disk disk₁ disk₂ disk₃ : Bytes} {n b c : ℕ} (hL : Layout sb)
    (hn : 1 ≤ n) (hn' : n < 4096) (hmark₁ : Unmarked disk disk₁ (8 * sectorSize * 2 + n) 1)
    (hmark₂ : Unmarked disk₁ disk₂ (4096 * 3 + b) c) (hc : b + c ≤ 4096 * sb.nrSmapSects)
    (hframe : ∀ y, y < inodePos sb n ∨ inodePos sb n + 16 ≤ y → disk₃ y = disk₂ y) :
    (∀ k < 4096, imapBit disk₃ k = (imapBit disk k && ! decide (k = n))) ∧
    (∀ k < 4096 * sb.nrSmapSects, smapBit sb disk₃ k =
      (smapBit sb disk k && ! decide (b ≤ k ∧ k < b + c))) ∧
    ∀ k, 1 ≤ k → k < 4096 → k ≠ n → diskInode sb disk₃ k = diskInode sb disk k := by
  have hsect : 8 * sectorSize * 2 = 8192 := rfl
  have hpos := inodePos_bounds hL hn hn'.le
  refine ⟨fun k hk => ?_, fun k hk => ?_, fun k hk hk' hkn => ?_⟩
  · rw [imapBit_congr (fun y hy => hframe y (by omega)) hk, imapBit, hmark₂, hmark₁,
      decide_eq_false (p := 4096 * 3 + b ≤ _ ∧ _) (by omega), Bool.not_false, Bool.and_true]
    congr 2
    exact decide_eq_decide.2 (by omega)
  · rw [smapBit_congr hL (fun y hy => hframe y (by omega)) hk, smapBit_eq hL, hmark₂, hmark₁,
      decide_eq_false (p := 8 * sectorSize * 2 + n ≤ _ ∧ _) (by omega), Bool.not_false,
      Bool.and_true, ← smapBit_eq hL]
    congr 2
    exact decide_eq_decide.2 (by omega)
  · have hpos' := inodePos_bounds hL hk hk'.le
    have hapart := inodePos_apart hL hn hk hkn
    refine diskInode_congr fun y hy hy' => ?_
    rw [hframe y (by omega), hmark₂.byte_eq (by omega), hmark₁.byte_eq (by omega)]

/-- The table without an inode that is no longer counted, on a disk that lacks only this inode. -/
theorem removed_cache {n : ℕ} {disk₃ : Bytes} (h : CacheOk fs) (hcnt : (fs.inodeTable p).iCnt = 1)
    (hnum : (fs.inodeTable p).iNum = n) (hroot : fs.rootInode ≠ p)
    (himap : ∀ k < 4096, imapBit disk₃ k = (imapBit fs.disk k && ! decide (k = n)))
    (hinode : ∀ k, 1 ≤ k → k < 4096 → k ≠ n →
      diskInode fs.sb disk₃ k = diskInode fs.sb fs.disk k) :
    CacheOk { fs.setInode p removed with disk := disk₃ } := by
  have hrest (q : Entry) (hq : q ≠ p) :
      (fs.setInode p removed).inodeTable q = fs.inodeTable q := by
    rw [Fs.setInode_inodeTable, if_neg hq]
  have huse (q : Entry) (hq : ((fs.setInode p removed).inodeTable q).iCnt ≠ 0) : q ≠ p := by
    rintro rfl
    rw [Fs.setInode_inodeTable, if_pos rfl] at hq
    simp only [removed] at hq
    omega
  have hfree : CacheOk (fs.setInode p removed) := by
    refine h.slots rfl rfl ?_ fun q hq => ?_
    · rw [Fs.setInode_rootInode, hrest _ hroot, h.root]
    · have hqp := huse q hq
      rw [hrest q hqp] at hq ⊢
      exact ⟨hq, rfl, rfl⟩
  refine hfree.onDisk fun q hq k hk hall => ?_
  have hqp := huse q hq
  rw [hrest q hqp] at hq hk
  have hkn : k ≠ n := fun he => hqp (h.unique q p hq (by omega) (by omega))
  refine ⟨?_, hinode k hall.1 hall.2.1 hkn⟩
  rw [himap k hall.2.1, decide_eq_false hkn, Bool.not_false, Bool.and_true]
  rfl

/-- What `do_unlink` has done when it comes to the directory: inode `n` and its sectors, from that
of bit `b` on, are gone, and nothing has changed where files are. -/
structure FileGone (fs : Fs) (p : Entry) (n b : ℕ) (disk₃ : Bytes) : Prop where
  num : (fs.inodeTable p).iNum = n
  marked : Allocated fs.disk n
  sects : (diskInode fs.sb fs.disk n).HasSects
  notRoot : n ≠ 1 ∧ fs.rootInode ≠ p
  start : (diskInode fs.sb fs.disk n).iStartSect.toNat + 1 = b + fs.sb.n1stSect
  imap : ∀ k < 4096, imapBit disk₃ k = (imapBit fs.disk k && ! decide (k = n))
  smap : ∀ k < 4096 * fs.sb.nrSmapSects, smapBit fs.sb disk₃ k = (smapBit fs.sb fs.disk k &&
    ! decide (b ≤ k ∧ k < b + (diskInode fs.sb fs.disk n).iNrSects.toNat))
  inode : ∀ k, 1 ≤ k → k < 4096 → k ≠ n → diskInode fs.sb disk₃ k = diskInode fs.sb fs.disk k
  files : ∀ y, 512 * fs.sb.n1stSect ≤ y → disk₃ y = fs.disk y

theorem removeFile_gone {nr : BitVec 32} (h : FsGood tight (one p) fs)
    (hmode : (fs.inodeTable p).iMode = iRegular) (hnum : (fs.inodeTable p).iNum = nr.toInt) :
    ∃ n b disk₃, FileGone fs p n b disk₃ ∧ MyOS.removeFile fs p nr =
      MyOS.removeEntry { fs.setInode p removed with disk := disk₃ } fs.rootInode nr := by
  have hL := h.layout
  have hP := hL.placed
  have hfirst := hL.first
  have hbase : smapBase fs.sb = 4096 * 3 := by rw [smapBase, hL.imap]
  have hsect : 8 * sectorSize * 2 = 8192 := rfl
  have hcnt : 0 < (fs.inodeTable p).iCnt := by
    have := h.refs.enough p
    rw [extra_one, if_pos rfl] at this
    push_cast at this
    change _ ≤ (fs.inodeTable p).iCnt at this
    omega
  have hactive : (fs.inodeTable p).iCnt ≠ 0 := hcnt.ne'
  obtain ⟨n, hn, hall⟩ := h.cache.num p hactive
  rw [hn] at hnum
  have hn' : n < 4096 := hall.2.1
  have hcoh := h.cache.coherent p hactive
  rw [hn, Int.toNat_natCast] at hcoh
  have hmode' : (diskInode fs.sb fs.disk n).iMode = iRegular := by rw [← hcoh, hmode]
  have hne1 : n ≠ 1 := by
    rintro rfl
    rw [h.disk.rootMode] at hmode'
    exact absurd hmode' (by decide)
  have hroot : fs.rootInode ≠ p := by
    intro he
    have hr := h.cache.root
    rw [he, hn] at hr
    exact hne1 (Int.ofNat_inj.1 hr)
  have hsects : (diskInode fs.sb fs.disk n).HasSects := .inl (by rw [hmode']; decide)
  obtain ⟨hlo, hhi⟩ := h.disk.inside n hall hsects
  obtain ⟨b, hb⟩ : ∃ b, (diskInode fs.sb fs.disk n).iStartSect.toNat + 1 = b + fs.sb.n1stSect :=
    ⟨(diskInode fs.sb fs.disk n).iStartSect.toNat + 1 - fs.sb.n1stSect, by omega⟩
  have hstart : (fs.inodeTable p).iStartSect = (diskInode fs.sb fs.disk n).iStartSect :=
    congrArg DiskInode.iStartSect hcoh
  have hnr : (fs.inodeTable p).iNrSects = (diskInode fs.sb fs.disk n).iNrSects :=
    congrArg DiskInode.iNrSects hcoh
  -- the bit of the inode
  have hnat : nr.toNat = n := by
    have := BitVec.toInt_eq_toNat_cond nr
    split_ifs at this <;> omega
  have hmark₁ := (Unmarked.clear (rdSect fs.disk 2) n).wrSect fs.disk (s := 2) (by decide)
    (by omega)
  have hback : wrSect fs.disk (2 : ℕ) (rdSect fs.disk 2) = fs.disk :=
    wrSect_rdSect (s := 2) (by decide) fs.disk
  rw [hback] at hmark₁
  have hbit : bit (rdSect fs.disk 2) n = true := (imapBit_rdSect fs.disk n).trans hall.2.2
  -- those of its sectors
  have hfull := (full_sects h.disk hall hsects hb).unmarked hmark₁ (by omega)
  obtain ⟨disk₂, hfree, hmark₂⟩ :=
    freeSmap_ok hP (bitIdx_of_layout hL hb (by omega)) rfl (by omega) hfull
  -- and the inode itself
  obtain ⟨fs₂, hsync⟩ : ∃ fs₂, syncInode ({ fs with disk := disk₂ }.setInode p cleared) p =
      .ok fs₂ := by
    refine syncInode_total ?_ hall.1
    rw [Fs.setInode_inodeTable, if_pos rfl]
    exact hn
  obtain ⟨disk₃, rfl⟩ := syncInode_ok hsync
  have hframe := sync_cleared hL hn hall.1 hn'.le hsync
  rw [hbase] at hmark₂
  obtain ⟨himap, hsmap, hinode⟩ := removed_disk hL hall.1 hn' hmark₁ hmark₂ (by omega) hframe
  have hpos := inodePos_bounds hL hall.1 hn'.le
  refine ⟨n, b, disk₃, ⟨hn, hall, hsects, ⟨hne1, hroot⟩, hb, himap, hsmap, hinode, fun y hy => ?_⟩,
    ?_⟩
  · rw [hframe y (by omega), hmark₂.byte_eq (by omega), hmark₁.byte_eq (by omega)]
  · rw [← hstart, ← hnr] at hfree
    exact removeFile_eq hnat (by omega) hn' hbit rfl hfree hsync hcnt

/-- A file that only the reference in hand is to; its bits are cleared, and its entry is free. -/
theorem removeFile {nr : BitVec 32} (h : FsGood tight (one p) fs) (hreach : RootReach fs)
    (hmode : (fs.inodeTable p).iMode = iRegular) (hcnt : (fs.inodeTable p).iCnt ≤ 1)
    (hnum : (fs.inodeTable p).iNum = nr.toInt) (hs : removeFile fs p nr = .ok fs') :
    FsGood tight noneHeld fs' ∧ fs'.filp = fs.filp ∧ fs'.fDescTable = fs.fDescTable ∧
      ∀ q, q ≠ p → (fs.inodeTable q).iCnt ≠ 0 →
        (fs'.inodeTable q).iNum = (fs.inodeTable q).iNum := by
  have hL := h.layout
  obtain ⟨n, b, disk₃, hgone, hdir⟩ := h.removeFile_gone hmode hnum
  rw [hdir] at hs
  obtain ⟨hne1, hroot⟩ := hgone.notRoot
  -- the inode is counted once, for the reference in hand
  have hone : (fs.inodeTable p).iCnt = 1 := by
    have := h.refs.enough p
    rw [extra_one, if_pos rfl] at this
    push_cast at this
    change _ ≤ (fs.inodeTable p).iCnt at this
    omega
  have hrefs : Counted (fs.setInode p removed).table (fs.extra noneHeld) := by
    refine counted_setInode h.refs ?_ fun q hq => ?_
    · rw [extra_one, if_pos rfl]
      simp only [removed]
      omega
    · rw [extra_one, if_neg hq, Nat.add_zero]
  have hdisk : DiskOk tight fs.sb disk₃ :=
    h.disk.remove hL hgone.marked hne1 hgone.sects hgone.start rfl
    hgone.imap hgone.smap fun k hk hkn => hgone.inode k hk.1 hk.2.1 hkn
  have hgood : FsGood tight noneHeld { fs.setInode p removed with disk := disk₃ } :=
    ⟨hL, hrefs, removed_cache h.cache hone hgone.num hroot hgone.imap hgone.inode, hdisk⟩
  have hrest (q : Entry) (hq : q ≠ p) :
      (fs.setInode p removed).inodeTable q = fs.inodeTable q := by
    rw [Fs.setInode_inodeTable, if_neg hq]
  have hreach' : RootReach { fs.setInode p removed with disk := disk₃ } := by
    change fs.sb.n1stSect + (((fs.setInode p removed).inodeTable fs.rootInode).iSize +
      sectorSize).toNat / sectorSize ≤ 2 ^ 23
    rw [hrest _ hroot]
    exact hreach
  obtain ⟨hgood', hsame⟩ := hgood.removeEntry hreach' hs
  refine ⟨hgood', hsame.filp, hsame.desc, fun q hq hc => ?_⟩
  have hnum' := (hsame.num q (by dsimp only; rwa [hrest q hq])).2
  dsimp only at hnum'
  rw [hnum', hrest q hq]

end FsGood

end MyOS