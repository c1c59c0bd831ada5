import MyOS.Proofs.FsStart
import MyOS.Lib.Run

/-!
# Runs of the file system

From `init_fs` on, as long as the names that are found are those of marked inodes and writes stay
behind the inodes: descriptors and inodes are counted, the inodes in the table are as on the disk,
and each sector that is marked is one of one file. A directory that is read past its end grows over
what was on the disk before, and then names an inode that is not marked.
-/

namespace MyOS

open Memory Block RefTable

variable {tight : Prop} {nrSects : ℕ} {w w' : FsWorld} {r : FsRequest} {t : List FsRequest}

/-- What holds between requests; a process that is not there has nothing open. -/
structure WorldInv (tight : Prop) (w : FsWorld) : Prop where
  good : FsGood tight noneHeld w.fs
  idle : ∀ c, w.live c = false → ∀ fd, w.fs.filp c fd = none

/-! ## The start -/

theorem getInode_first {fs fs' : Fs} {o : Option Entry} (hempty : ∀ q, (fs.inodeTable q).iCnt = 0)
    (h : getInode fs rootInodeNr = .ok (o, fs')) : ∃ p, o = some p ∧
      fs' = fs.setInode p fun _ =>
        { readInode (rdSect fs.disk (inodeBlk fs.sb rootInodeNr)) (inodeOff rootInodeNr).toNat with
          iCnt := 1, iNum := rootInodeNr } := by
  cases getInode_ok h with
  | null hnum => exact absurd hnum (by decide)
  | hit p _ hcnt => exact absurd (hempty p) hcnt
  | miss p => exact ⟨p, rfl, rfl⟩

/-- Nothing is open, and the root directory is the one inode in use. -/
theorem good_first {fs : Fs} {p : Entry} {x : Inode} (hL : Layout fs.sb)
    (hdisk : DiskOk tight fs.sb fs.disk) (hfilp : ∀ c fd, fs.filp c fd = none)
    (hdesc : ∀ d, (fs.fDescTable d).fdInode = none) (hroot : fs.rootInode = p)
    (hself : fs.inodeTable p = x) (hrest : ∀ q, q ≠ p → (fs.inodeTable q).iCnt = 0)
    (hcnt : x.iCnt = 1) (hnum : x.iNum = rootInodeNr)
    (hinode : x.toDiskInode = diskInode fs.sb fs.disk 1) : FsGood tight noneHeld fs := by
  have huse (q : Entry) (hq : (fs.inodeTable q).iCnt ≠ 0) : q = p := by
    by_contra hne
    exact hq (hrest q hne)
  have hnone (f : Slot × Entry → Option Entry) (hf : ∀ i, f i = none) (d : Entry) :
      refCount f d = 0 :=
    refCount_eq_zero.2 fun i hi => Option.some_ne_none d (hi.symm.trans (hf i))
  have href (i : Slot × Entry) : fs.table.ref i = none := hfilp i.1 i.2
  refine ⟨hL, ⟨fun d => ?_, fun d hd => absurd (hdesc d) hd, fun q => ?_⟩,
    ⟨fun q hq => ?_, fun q hq => ?_, fun q q' hq hq' _ => ?_, ?_⟩, hdisk⟩
  · exact iff_of_true (hdesc d) (hnone _ href d)
  · have hreach (i : Slot × Entry) : fs.table.reach i = none := by
      rw [Table.reach, href, Option.bind_none]
    rw [hnone _ hreach]
    change ((0 : ℕ) : Int) + (fs.extra noneHeld q : ℕ) ≤ (fs.inodeTable q).iCnt
    unfold Fs.extra noneHeld
    rw [hroot]
    split_ifs with hq
    · rw [hq, hself, hcnt]
      decide
    · rw [hrest q hq]
      decide
  · rw [huse q hq, hself, hnum]
    exact ⟨rootInodeNr, rfl, hdisk.allocated_one⟩
  · rw [huse q hq, hself, hnum, hinode]
    rfl
  · rw [huse q hq, huse q' hq']
  · rw [hroot, hself, hnum]

/-- The file system as `init_fs` leaves it, with the root directory in entry `p` of the table. -/
def startFs (nrSects : ℕ) (disk : Bytes) (p : Entry) : Fs where
  disk := disk
  sb := mkfsSb nrSects
  inodeTable := Function.update (fun _ => default) p
    { diskInode (mkfsSb nrSects) disk 1 with iCnt := 1, iNum := rootInodeNr }
  fDescTable := fun _ => default
  filp := fun _ _ => none
  rootInode := p

theorem startFs_inodeTable (nrSects : ℕ) (disk : Bytes) (p q : Entry) :
    (startFs nrSects disk p).inodeTable q = if q = p then
      { diskInode (mkfsSb nrSects) disk 1 with iCnt := 1, iNum := rootInodeNr } else default := by
  simp only [startFs, Function.update_apply]

theorem initFs_eq {disk : Bytes} {fs : Fs} (hregions : RegionsApart nrSects)
    (h : initFs disk nrSects = .ok fs) : 35328 < nrSects ∧ nrSects < 131059712 ∧
      ∃ p, fs = startFs nrSects (mkfsDisk nrSects ⟨disk, []⟩) p := by
  unfold initFs at h
  obtain ⟨d, hd, h⟩ := bind_eq_ok.1 h
  obtain ⟨d', hmkfs, rfl⟩ : ∃ d', mkfs ⟨disk, []⟩ nrSects = .ok d' ∧ d' = d := by
    cases hm : mkfs ⟨disk, []⟩ nrSects with
    | error e => rw [hm] at hd; exact nomatch hd
    | ok d' => rw [hm] at hd; exact ⟨d', rfl, Except.ok.inj hd⟩
  obtain ⟨hfits, hoff, rfl⟩ := mkfs_inv hmkfs
  obtain ⟨hlo, hhi⟩ := hregions.bounds hfits hoff
  obtain ⟨⟨o, fs₁⟩, hget, h⟩ := bind_eq_ok.1 h
  obtain ⟨p, rfl, rfl⟩ := getInode_first (fun _ => rfl) hget
  obtain rfl := Except.ok.inj h
  refine ⟨hlo, hhi, p, ?_⟩
  have hread : readInode (rdSect (mkfsDisk nrSects ⟨disk, []⟩)
      (inodeBlk (mkfsSb nrSects) rootInodeNr)) (inodeOff rootInodeNr).toNat =
        diskInode (mkfsSb nrSects) (mkfsDisk nrSects ⟨disk, []⟩) 1 :=
    readInode_rdSect (layout_mkfsSb hlo hhi) le_rfl (by decide)
  unfold startFs
  rw [← hread]
  rfl

theorem initFs_good {disk : Bytes} {fs : Fs} (hregions : RegionsApart nrSects)
    (h : initFs disk nrSects = .ok fs) : FsGood tight noneHeld fs ∧ fs.filp = fun _ _ => none := by
  obtain ⟨hlo, hhi, p, rfl⟩ := initFs_eq hregions h
  refine ⟨?_, rfl⟩
  refine good_first (p := p) (layout_mkfsSb hlo hhi) (mkfsDisk_ok hlo hhi ⟨disk, []⟩)
    (fun _ _ => rfl) (fun _ => rfl) rfl ((startFs_inodeTable ..).trans (if_pos rfl))
    (fun q hq => ?_) rfl rfl rfl
  rw [startFs_inodeTable, if_neg hq]
  rfl

theorem worldInv_start (hregions : RegionsApart nrSects) (h : FsWorldStart nrSects w) :
    WorldInv tight w := by
  obtain ⟨disk, hinit, -⟩ := h
  obtain ⟨hgood, hfilp⟩ := initFs_good hregions hinit
  refine ⟨hgood, fun c _ fd => ?_⟩
  rw [hfilp]

/-! ## Steps -/

def FsWorldStep (w : FsWorld) (r : FsRequest) (w' : FsWorld) : Prop := fsWorldStep w r = some w'

theorem fsWorldStep_cases (h : FsWorldStep w r w') :
    r.isFrom w.live = true ∧ ∃ v, fsCall w.fs r = .ok (v, w'.fs) ∧ w'.live = r.lives w.live := by
  unfold FsWorldStep fsWorldStep fsHandle at h
  split_ifs at h with hfrom
  obtain ⟨fs', hfs, rfl⟩ := Option.map_eq_some_iff.1 h
  refine ⟨hfrom, ?_⟩
  rcases hcall : fsCall w.fs r with e | ⟨v, fs''⟩
  · rw [hcall] at hfs
    exact nomatch hfs
  · rw [hcall] at hfs
    exact ⟨v, by rw [← Option.some.inj hfs], rfl⟩

/-- A request changes the open files of its caller, of a child or of a process that ends. -/
def FsRequest.changes : FsRequest → Slot → Prop
  | .open caller _ _ => (· = caller)
  | .close caller _ => (· = caller)
  | .fork _ child => (· = child)
  | .exit pid => (· = pid)
  | _ => fun _ => False

theorem fsCall_served {fs fs' : Fs} {live : Slot → Bool} {v : Int} (h : FsGood tight noneHeld fs)
    (hidle : ∀ c, live c = false → ∀ fd, fs.filp c fd = none) (hok : FsOk fs r)
    (hno : tight → ¬ CreatesNoInode fs r) (hfrom : r.isFrom live = true)
    (hs : fsCall fs r = .ok (v, fs')) : Served tight r.changes fs fs' := by
  cases r with
  | «open» caller user msg => exact doOpen_served h hok hno hs
  | close caller msg => exact doClose_served h hs
  | rdwt caller user isRead msg => exact doRdwt_served h hok hs
  | unlink user msg => exact doUnlink_served h hok hs
  | stat user msg =>
    obtain ⟨⟨s, fs₁⟩, hstat, hs⟩ := bind_eq_ok.1 hs
    obtain ⟨-, rfl⟩ := Prod.mk.inj (Except.ok.inj hs)
    exact doStat_served h hstat
  | fork parent child =>
    obtain ⟨fs₁, hfork, hs⟩ := bind_eq_ok.1 hs
    obtain ⟨-, rfl⟩ := Prod.mk.inj (Except.ok.inj hs)
    rw [FsRequest.isFrom, Bool.and_eq_true, Bool.not_eq_true'] at hfrom
    exact fsFork_served h (hidle child hfrom.2) hfork
  | exit pid =>
    obtain ⟨fs₁, hexit, hs⟩ := bind_eq_ok.1 hs
    obtain ⟨-, rfl⟩ := Prod.mk.inj (Except.ok.inj hs)
    obtain ⟨hgood, hloses, hothers, -⟩ := exitFilps_good h hexit
    exact ⟨hgood, hloses.keeps, hothers⟩

/-- Whoever is not there afterwards was not there before, or has just ended. -/
theorem fsCall_idle {fs fs' : Fs} {live : Slot → Bool} {v : Int} (h : FsGood tight noneHeld fs)
    (hidle : ∀ c, live c = false → ∀ fd, fs.filp c fd = none)
    (hserved : Served tight r.changes fs fs') (hfrom : r.isFrom live = true)
    (hs : fsCall fs r = .ok (v, fs')) {c : Slot}
    (hc : r.lives live c = false) (fd : Entry) : fs'.filp c fd = none := by
  have hkept (hno : ¬ r.changes c) (hlive : live c = false) : fs'.filp c fd = none := by
    rw [hserved.filp c hno, hidle c hlive]
  cases r with
  | «open» caller user msg =>
    exact hkept (fun he => Bool.false_ne_true (hc.symm.trans (he ▸ hfrom))) hc
  | close caller msg =>
    exact hkept (fun he => Bool.false_ne_true (hc.symm.trans (he ▸ hfrom))) hc
  | rdwt caller user isRead msg => exact hkept id hc
  | unlink user msg => exact hkept id hc
  | stat user msg => exact hkept id hc
  | fork parent child =>
    have hne : c ≠ child := by
      rintro rfl
      simp [FsRequest.lives] at hc
    refine hkept hne ?_
    rwa [FsRequest.lives, Function.update_of_ne hne] at hc
  | exit pid =>
    rcases eq_or_ne c pid with rfl | hne
    · obtain ⟨fs₁, hexit, hs⟩ := bind_eq_ok.1 hs
      obtain ⟨-, rfl⟩ := Prod.mk.inj (Except.ok.inj hs)
      obtain ⟨-, -, -, hpid⟩ := exitFilps_good h hexit
      rw [hpid, if_pos (List.mem_finRange fd)]
    · refine hkept hne ?_
      rwa [FsRequest.lives, Function.update_of_ne hne] at hc

theorem worldInv_step (h : WorldInv tight w) (hok : FsOk w.fs r)
    (hno : tight → ¬ CreatesNoInode w.fs r) (hs : FsWorldStep w r w') :
    WorldInv tight w' ∧ KeepsFiles w.fs w'.fs := by
  obtain ⟨hfrom, v, hcall, hlive⟩ := fsWorldStep_cases hs
  have hserved := fsCall_served h.good h.idle hok hno hfrom hcall
  refine ⟨⟨hserved.good, fun c hc fd => ?_⟩, hserved.keeps⟩
  rw [hlive] at hc
  exact fsCall_idle h.good h.idle hserved hfrom hcall hc fd

/-- A step with a request that keeps what holds between requests. -/
def FsOkStep (w : FsWorld) (r : FsRequest) (w' : FsWorld) : Prop := FsWorldStep w r w' ∧ FsOk w.fs r

/-- Such a step that creates no name where there is no number for its inode. -/
def FsFileStep (w : FsWorld) (r : FsRequest) (w' : FsWorld) : Prop :=
  FsOkStep w r w' ∧ ¬ CreatesNoInode w.fs r

theorem worldInv_run (hregions : RegionsApart nrSects)
    (h : Run (FsWorldStart nrSects) FsOkStep t w) : WorldInv False w :=
  h.invariant (P := fun _ w => WorldInv False w) (fun _ hstart => worldInv_start hregions hstart)
    fun _ _ _ _ hinv hs => (worldInv_step hinv hs.2 False.elim hs.1).1

/-- Then no sector is marked but those of files. -/
theorem worldInv_tight (hregions : RegionsApart nrSects)
    (h : Run (FsWorldStart nrSects) FsFileStep t w) : WorldInv True w :=
  h.invariant (P := fun _ w => WorldInv True w) (fun _ hstart => worldInv_start hregions hstart)
    fun _ _ _ _ hinv hs => (worldInv_step hinv hs.1.2 (fun _ => hs.2) hs.1.1).1

/-! ### Runs that are computed -/

/-- The processes there are at the start. -/
def nativeLive : Slot → Bool := fun p => decide (p.val < nrTasks + nrNativeProcs)

theorem regionsApart_40000 : RegionsApart 40000 :=
  ⟨by decide, regions_laidOut (by decide) (by decide)⟩

theorem run_of_exec {disk : Bytes} {fs : Fs} {l : List FsRequest}
    (hinit : initFs disk nrSects = .ok fs)
    (hexec : Run.exec fsWorldStep ⟨fs, nativeLive⟩ l = some w) :
    Run (FsWorldStart nrSects) FsWorldStep l.reverse w := by
  have hrun := Run.of_exec (.start (show FsWorldStart nrSects _ from ⟨disk, hinit, rfl⟩)) hexec
  rwa [List.append_nil] at hrun

/-- A request that keeps what holds between requests, while the map of inodes has a number left. -/
def fsFileStep (w : FsWorld) (r : FsRequest) : Option FsWorld :=
  if FsOk w.fs r ∧ imapBit w.fs.disk 0 = true ∧ imapBit w.fs.disk 4095 = false then
    fsWorldStep w r
  else none

theorem not_noInode {fs : Fs} (hzero : imapBit fs.disk 0 = true)
    (hleft : imapBit fs.disk 4095 = false) : ¬ NoInode fs := by
  rintro (hfull | hclear)
  · exact Bool.false_ne_true (hleft.symm.trans (hfull 4095 (by decide)))
  · exact Bool.false_ne_true (hclear.symm.trans hzero)

theorem CreatesNoInode.noInode {fs : Fs} (h : CreatesNoInode fs r) : NoInode fs := by
  cases r with
  | «open» caller user msg => exact h.2.1
  | _ => exact h.elim

theorem fileRun_of_exec {disk : Bytes} {fs : Fs} {l : List FsRequest}
    (hinit : initFs disk nrSects = .ok fs)
    (hexec : Run.exec fsFileStep ⟨fs, nativeLive⟩ l = some w) :
    Run (FsWorldStart nrSects) FsFileStep l.reverse w := by
  have hrun := Run.of_exec (.start (show FsWorldStart nrSects _ from ⟨disk, hinit, rfl⟩)) hexec
  rw [List.append_nil] at hrun
  refine hrun.mono fun w r w' hs => ?_
  unfold fsFileStep at hs
  split_ifs at hs with hok
  exact ⟨⟨hs, hok.1⟩, fun hc => not_noInode hok.2.1 hok.2.2 hc.noInode⟩

theorem okRun_of_exec {disk : Bytes} {fs : Fs} {l : List FsRequest}
    (hinit : initFs disk nrSects = .ok fs)
    (hexec : Run.exec fsFileStep ⟨fs, nativeLive⟩ l = some w) :
    Run (FsWorldStart nrSects) FsOkStep l.reverse w :=
  (fileRun_of_exec hinit hexec).mono fun _ _ _ hs => hs.1

/-- A message for `fd` and `cnt` bytes. -/
def ioMsg (fd cnt : BitVec 32) : Message := { Message.reset with m3i1 := fd, m3i2 := cnt }

/-- `INIT` creates a file, -/
def creates (filename : List Byte) : FsRequest :=
  .open init (textAt filename) (nameMsg filename (oCreat ||| oRdwr))

/-- and a file is removed. -/
def unlinks (filename : List Byte) : FsRequest := .unlink (textAt filename) (nameMsg filename 0)

/-- `INIT` creates "a" and writes to it, and shares the descriptor with a child. -/
def sharedRun : List FsRequest :=
  [creates [0x61], .rdwt init (fun _ => 7) false (ioMsg 0 3), .fork init 10]

/-- Then both let it go, and the file is removed. -/
def fileRun : List FsRequest :=
  sharedRun ++ [.close init (ioMsg 0 0), .exit 10, unlinks [0x61]]

theorem fileRun_ok : ∀ l ∈ [sharedRun, fileRun], ∃ w,
    Run (FsWorldStart 40000) FsFileStep l.reverse w := by
  have hany : ∀ l ∈ [sharedRun, fileRun], ((initFs (fun _ => 0) 40000).toOption.any fun fs =>
      (Run.exec fsFileStep ⟨fs, nativeLive⟩ l).isSome) = true := by
    simp only [List.forall_mem_cons, sharedRun, fileRun, creates, unlinks, List.cons_append,
      List.nil_append, Run.exec, fsFileStep, fsWorldStep, fsHandle, fsCall, doOpen, openInode,
      createFile, allocAtOnce_eq]
    decide +kernel
  intro l hl
  obtain ⟨fs, hinit, hsome⟩ := exists_ok_of_any (hany l hl)
  obtain ⟨w, hexec⟩ := Option.isSome_iff_exists.1 hsome
  exact ⟨w, fileRun_of_exec hinit hexec⟩

theorem fileRun_okSteps : ∀ l ∈ [sharedRun, fileRun], ∃ w,
    Run (FsWorldStart 40000) FsOkStep l.reverse w := fun l hl =>
  (fileRun_ok l hl).imp fun _ hrun => hrun.mono fun _ _ _ hs => hs.1

/-- A disk that was in use before: an inode 17, with the sectors of the maps, and a name for it
where the second sector of the root directory comes to lie. -/
def usedDisk : Bytes := fun x =>
  if x = 7169 then 0x80 else if x = 7173 then 0x16 else if x = 7176 then 3 else if x = 7180 then 11
  else if x = 138240 then 17 else if x = 138244 then 0x78 else 0

/-- `INIT` reads the root directory past its end, and opens "x". -/
def staleRun : List FsRequest :=
  [.open init (textAt [slash]) (nameMsg [slash] oRdwr), .rdwt init (fun _ => 0) true (ioMsg 0 512),
    .rdwt init (fun _ => 0) true (ioMsg 0 512), .open init (textAt [0x78]) (nameMsg [0x78] oRdwr)]

/-- Then it writes nulls to what it has opened. -/
def staleWrite (cnt : BitVec 32) : FsRequest := .rdwt init (fun _ => 0) false (ioMsg 1 cnt)

/-! ## Open files -/

/-- Descriptors that nothing points to are free, and others count the entries of `filp` that point
to them; an inode counts at least those that reach it, and is marked. -/
structure OpenFilesOk (fs : Fs) : Prop where
  free : ∀ d, (fs.fDescTable d).fdInode = none ↔ ∀ c fd, fs.filp c fd ≠ some d
  counted : ∀ d, (fs.fDescTable d).fdInode ≠ none →
    (fs.fDescTable d).fdCnt = refCount (fun i : Slot × Entry => fs.filp i.1 i.2) d
  inode : ∀ p, (refCount (fun i : Slot × Entry =>
      (fs.filp i.1 i.2).bind fun d => (fs.fDescTable d).fdInode) p : Int) +
    (if p = fs.rootInode then 1 else 0 : ℕ) ≤ (fs.inodeTable p).iCnt
  marked : ∀ c fd d p, fs.filp c fd = some d → (fs.fDescTable d).fdInode = some p →
    imapBit fs.disk (fs.inodeTable p).iNum.toNat = true

theorem FsGood.openFiles {fs : Fs} (h : FsGood tight noneHeld fs) : OpenFilesOk fs where
  free d := (h.refs.free d).trans (refCount_eq_zero.trans Prod.forall)
  counted d hd := h.refs.exact d hd
  inode p := h.refs.enough p
  marked c fd d p hfd hd := by
    obtain ⟨n, hnum, hn⟩ := h.cache.num p (h.inUse hd)
    rw [hnum, Int.toNat_natCast]
    exact hn.2.2

/-- In every run of requests that keep what holds between requests, the open files are in order, and
a descriptor that stays open stays with its inode. -/
theorem open_files_ok (hregions : RegionsApart nrSects)
    (h : Run (FsWorldStart nrSects) FsOkStep t w) : OpenFilesOk w.fs ∧
      ∀ r w', FsOkStep w r w' → ∀ c fd d p, w.fs.filp c fd = some d →
        (w.fs.fDescTable d).fdInode = some p → w'.fs.filp c fd = some d →
          (w'.fs.fDescTable d).fdInode = some p ∧
            (w'.fs.inodeTable p).iNum = (w.fs.inodeTable p).iNum := by
  have hinv := worldInv_run hregions h
  refine ⟨hinv.good.openFiles, fun r w' hs c fd d p _ hd hfd' => ?_⟩
  obtain ⟨hinv', hkeeps⟩ := worldInv_step hinv hs.2 False.elim hs.1
  refine ⟨(hkeeps.desc d p hd).resolve_right fun hnone => ?_, hkeeps.num d p hd⟩
  exact (hinv'.good.openFiles.free d).1 hnone c fd hfd'

theorem open_files_ok_file :
    (∃ w, Run (FsWorldStart 40000) FsOkStep sharedRun.reverse w ∧ OpenFilesOk w.fs) ∧
      ∃ w, Run (FsWorldStart 40000) FsOkStep fileRun.reverse w ∧ OpenFilesOk w.fs := by
  obtain ⟨w, hrun⟩ := fileRun_okSteps sharedRun (by simp)
  obtain ⟨w', hrun'⟩ := fileRun_okSteps fileRun (by simp)
  exact ⟨⟨w, hrun, (open_files_ok regionsApart_40000 hrun).1⟩, w', hrun',
    (open_files_ok regionsApart_40000 hrun').1⟩

/-- Nothing is written, and a descriptor is of an inode that is not marked. -/
theorem open_files_stale : RegionsApart 40000 ∧ ∃ t w, Run (FsWorldStart 40000) FsWorldStep t w ∧
    (∀ r ∈ t, ∀ c user msg, r ≠ .rdwt c user false msg) ∧ ¬ OpenFilesOk w.fs := by
  have hany : ((initFs usedDisk 40000).toOption.any fun fs =>
      (Run.exec fsWorldStep ⟨fs, nativeLive⟩ staleRun).any fun w =>
        w.fs.filp init 1 = some 1 ∧ (w.fs.fDescTable 1).fdInode = some 1 ∧
          imapBit w.fs.disk (w.fs.inodeTable 1).iNum.toNat = false) = true := by decide +kernel
  obtain ⟨fs, hinit, hany⟩ := exists_ok_of_any hany
  obtain ⟨w, hexec, hw⟩ := (Option.any_eq_true _ _).1 hany
  obtain ⟨hfd, hd, hclear⟩ := of_decide_eq_true hw
  refine ⟨regionsApart_40000, _, w, run_of_exec hinit hexec, fun r hr c user msg => ?_,
    fun hok => ?_⟩
  · simp only [staleRun, List.mem_reverse, List.mem_cons, List.not_mem_nil, or_false] at hr
    rcases hr with rfl | rfl | rfl | rfl <;> simp
  · exact Bool.false_ne_true (hclear.symm.trans (hok.marked init 1 1 1 hfd hd))

/-! ## The table of inodes -/

/-- An inode is in the table once and as on the disk, and `sync_inode` of an inode of a valid number
leaves the others on the disk as they are. -/
structure CacheCoherent (fs : Fs) : Prop where
  unique : ∀ p q, 0 < (fs.inodeTable p).iCnt → 0 < (fs.inodeTable q).iCnt →
    (fs.inodeTable p).iNum = (fs.inodeTable q).iNum → p = q
  onDisk : ∀ p, 0 < (fs.inodeTable p).iCnt → ∃ n : ℕ,
    (fs.inodeTable p).iNum = n ∧ 1 ≤ n ∧ n < 4096 ∧
    (fs.inodeTable p).toDiskInode = diskInode fs.sb fs.disk n
  sync : ∀ (p : Entry) (x : Inode) (n : ℕ) (fs' : Fs), x.iNum = n → 1 ≤ n → n ≤ 4096 →
    syncInode (fs.setInode p fun _ => x) p = .ok fs' →
      ∀ k, 1 ≤ k → k ≤ 4096 → k ≠ n → diskInode fs.sb fs'.disk k = diskInode fs.sb fs.disk k

theorem FsGood.coherent {fs : Fs} (h : FsGood tight noneHeld fs) : CacheCoherent fs where
  unique p q hp hq := h.cache.unique p q hp.ne' hq.ne'
  onDisk p hp := by
    obtain ⟨n, hnum, hn⟩ := h.cache.num p hp.ne'
    refine ⟨n, hnum, hn.1, hn.2.1, ?_⟩
    rw [h.cache.coherent p hp.ne', hnum, Int.toNat_natCast]
  sync p x n fs' hx hn hn' hs k hk hk' hkn := by
    have hself : (fs.setInode p fun _ => x).inodeTable p = x := by
      rw [Fs.setInode_inodeTable, if_pos rfl]
    obtain ⟨disk', rfl, -, hframe⟩ := @syncInode_inode (fs.setInode p fun _ => x) _ p n
      h.layout (by rw [hself, hx]) hn hn' hs
    have hapart := inodePos_apart h.layout hn hk hkn
    exact diskInode_congr fun y hy hy' => hframe y (by rw [Fs.setInode_sb]; omega)

/-- In every run of requests that keep what holds between requests, the table is coherent. -/
theorem inode_table_coherent (hregions : RegionsApart nrSects)
    (h : Run (FsWorldStart nrSects) FsOkStep t w) : CacheCoherent w.fs :=
  (worldInv_run hregions h).good.coherent

theorem inode_table_coherent_file :
    (∃ w, Run (FsWorldStart 40000) FsOkStep sharedRun.reverse w ∧ CacheCoherent w.fs) ∧
      ∃ w, Run (FsWorldStart 40000) FsOkStep fileRun.reverse w ∧ CacheCoherent w.fs := by
  obtain ⟨w, hrun⟩ := fileRun_okSteps sharedRun (by simp)
  obtain ⟨w', hrun'⟩ := fileRun_okSteps fileRun (by simp)
  exact ⟨⟨w, hrun, inode_table_coherent regionsApart_40000 hrun⟩, w', hrun',
    inode_table_coherent regionsApart_40000 hrun'⟩

/-- The inodes on the disk are written over, and the root directory's in the table is not. -/
theorem inode_table_stale : RegionsApart 40000 ∧ ∃ t w,
    Run (FsWorldStart 40000) FsWorldStep t w ∧ ¬ CacheCoherent w.fs := by
  have hany : ((initFs usedDisk 40000).toOption.any fun fs =>
      (Run.exec fsWorldStep ⟨fs, nativeLive⟩ (staleRun ++ [staleWrite 5632])).any fun w =>
        0 < (w.fs.inodeTable 0).iCnt ∧ (w.fs.inodeTable 0).iNum = 1 ∧
          (w.fs.inodeTable 0).toDiskInode ≠ diskInode w.fs.sb w.fs.disk 1) = true := by
    decide +kernel
  obtain ⟨fs, hinit, hany⟩ := exists_ok_of_any hany
  obtain ⟨w, hexec, hw⟩ := (Option.any_eq_true _ _).1 hany
  obtain ⟨hcnt, hnum, hne⟩ := of_decide_eq_true hw
  refine ⟨regionsApart_40000, _, w, run_of_exec hinit hexec, fun hok => ?_⟩
  obtain ⟨n, hn, -, -, hsame⟩ := hok.onDisk 0 hcnt
  obtain rfl : n = 1 := by omega
  exact hne hsame

/-! ## Sectors -/

/-- Sector `s` is one of the inode's. -/
def DiskInode.Has (x : DiskInode) (s : ℕ) : Prop :=
  x.HasSects ∧ x.iStartSect.toNat ≤ s ∧ s < x.iStartSect.toNat + x.iNrSects.toNat

instance (x : DiskInode) (s : ℕ) : Decidable (x.Has s) := inferInstanceAs (Decidable (_ ∧ _ ∧ _))

/-- The sectors of marked inodes are apart and behind the inodes, and a bit of the sector map is set
just for these. -/
structure SectsOk (sb : SuperBlock) (disk : Bytes) : Prop where
  apart : ∀ n n' s, Allocated disk n → Allocated disk n' → (diskInode sb disk n).Has s →
    (diskInode sb disk n').Has s → n = n'
  behind : ∀ n, Allocated disk n → (diskInode sb disk n).HasSects →
    sb.n1stSect ≤ (diskInode sb disk n).iStartSect.toNat
  map : ∀ b, 1 ≤ b → b < 4096 * sb.nrSmapSects →
    (smapBit sb disk b = true ↔
      ∃ n, Allocated disk n ∧ (diskInode sb disk n).Has (b - 1 + sb.n1stSect))

theorem DiskOk.sects {sb : SuperBlock} {disk : Bytes} (h : DiskOk True sb disk) :
    SectsOk sb disk where
  apart n n' s hn hn' hs hs' := by
    have hlo := (h.inside n hn hs.1).1
    have hge := hs.2.1
    have hb : s - sb.n1stSect + 1 - 1 + sb.n1stSect = s := by omega
    refine h.apart n n' (s - sb.n1stSect + 1) hn hn' (Nat.succ_pos _) ?_ ?_
    · unfold DiskInode.Owns
      rwa [hb]
    · unfold DiskInode.Owns
      rwa [hb]
  behind n hn hs := (h.inside n hn hs).1
  map b hb hb' := ⟨h.taken trivial b hb hb', h.owned b hb hb'⟩

/-- In every run of requests that keep what holds between requests, and create no name without an
inode, the sector map and the inodes agree. -/
theorem sector_map_ok (hregions : RegionsApart nrSects)
    (h : Run (FsWorldStart nrSects) FsFileStep t w) : SectsOk w.fs.sb w.fs.disk :=
  (worldInv_tight hregions h).good.disk.sects

theorem sector_map_ok_file :
    (∃ w, Run (FsWorldStart 40000) FsFileStep sharedRun.reverse w ∧ SectsOk w.fs.sb w.fs.disk) ∧
      ∃ w, Run (FsWorldStart 40000) FsFileStep fileRun.reverse w ∧ SectsOk w.fs.sb w.fs.disk := by
  obtain ⟨w, hrun⟩ := fileRun_ok sharedRun (by simp)
  obtain ⟨w', hrun'⟩ := fileRun_ok fileRun (by simp)
  exact ⟨⟨w, hrun, sector_map_ok regionsApart_40000 hrun⟩, w', hrun',
    sector_map_ok regionsApart_40000 hrun'⟩

/-- The sector map is written over, and the root directory's bits are clear. -/
theorem sector_map_stale : RegionsApart 40000 ∧ ∃ t w,
    Run (FsWorldStart 40000) FsWorldStep t w ∧ ¬ SectsOk w.fs.sb w.fs.disk := by
  have hany : ((initFs usedDisk 40000).toOption.any fun fs =>
      (Run.exec fsWorldStep ⟨fs, nativeLive⟩ (staleRun ++ [staleWrite 5120])).any fun w =>
        1 < 4096 * w.fs.sb.nrSmapSects ∧ smapBit w.fs.sb w.fs.disk 1 = false ∧
          Allocated w.fs.disk 1 ∧ (diskInode w.fs.sb w.fs.disk 1).Has (1 - 1 + w.fs.sb.n1stSect)) =
            true := by decide +kernel
  obtain ⟨fs, hinit, hany⟩ := exists_ok_of_any hany
  obtain ⟨w, hexec, hw⟩ := (Option.any_eq_true _ _).1 hany
  obtain ⟨hlt, hclear, hall, hhas⟩ := of_decide_eq_true hw
  refine ⟨regionsApart_40000, _, w, run_of_exec hinit hexec, fun hok => ?_⟩
  have hset := (hok.map 1 le_rfl hlt).2 ⟨1, hall, hhas⟩
  exact Bool.false_ne_true (hclear.symm.trans hset)

end MyOS
