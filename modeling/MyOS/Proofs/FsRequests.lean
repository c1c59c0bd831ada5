import MyOS.Proofs.FsFiles

/-!
# What every request keeps

Each request of `task_fs` keeps what holds between requests, where the names it finds are those of
marked inodes and its writes stay behind the inodes; and it keeps the inodes of the descriptors
that stay open.
-/

namespace MyOS

open Memory Block RefTable

variable {tight : Prop} {fs fs' fs₁ : Fs} {user : Addr → Byte} {msg : Message} {caller : Slot}

/-- A name that the request finds is that of a marked inode. -/
def FindsMarked (fs : Fs) (user : Addr → Byte) (msg : Message) : Prop :=
  ∀ path ∈ (getPath user msg).toOption, searchFile fs path = 0 ∨
    Allocated fs.disk (searchFile fs path).toNat

instance (fs : Fs) (user : Addr → Byte) (msg : Message) : Decidable (FindsMarked fs user msg) :=
  inferInstanceAs (Decidable (∀ _ ∈ _, _))

/-- What a `WRITE` to a file moves, it moves to sectors of files. -/
def WritesBehind (fs : Fs) (caller : Slot) (msg : Message) : Prop :=
  ∀ desc ∈ (rdwtDesc fs caller msg.fd).toOption, ∀ dp ∈ desc,
    (fs.inodeTable dp.2).iMode &&& iTypeMask ≠ iCharSpecial →
      ∀ t ∈ (rdwtTurns (fs.inodeTable dp.2).toDiskInode false (fs.fDescTable dp.1).fdPos msg.cnt).2,
        t.Behind fs.sb.n1stSect

/-- `WritesBehind` as it is computed. -/
def writesBehind (fs : Fs) (caller : Slot) (msg : Message) : Bool :=
  (rdwtDesc fs caller msg.fd).toOption.all fun desc => desc.all fun dp =>
    (fs.inodeTable dp.2).iMode &&& iTypeMask = iCharSpecial ||
      (rdwtTurns (fs.inodeTable dp.2).toDiskInode false (fs.fDescTable dp.1).fdPos msg.cnt).2.all
        fun t => t.Behind fs.sb.n1stSect

theorem writesBehind_iff (fs : Fs) (caller : Slot) (msg : Message) :
    writesBehind fs caller msg = true ↔ WritesBehind fs caller msg := by
  simp only [writesBehind, WritesBehind, Option.all_eq_true, Bool.or_eq_true, decide_eq_true_eq,
    List.all_eq_true, ne_eq, or_iff_not_imp_left]
  rfl

instance (fs : Fs) (caller : Slot) (msg : Message) : Decidable (WritesBehind fs caller msg) :=
  decidable_of_iff _ (writesBehind_iff fs caller msg)

/-- The root directory is within reach of a request that writes an entry for a name, found or
not. -/
def ReachesEntry (fs : Fs) (user : Addr → Byte) (msg : Message) (found : Bool) : Prop :=
  ∀ path ∈ (getPath user msg).toOption, decide (searchFile fs path ≠ 0) = found → RootReach fs

instance (fs : Fs) (user : Addr → Byte) (msg : Message) (found : Bool) :
    Decidable (ReachesEntry fs user msg found) :=
  inferInstanceAs (Decidable (∀ _ ∈ _, _))

/-- The requests that keep what holds between requests. -/
def FsOk (fs : Fs) : FsRequest → Prop
  | .open _ user msg =>
    if msg.flags &&& oCreat ≠ 0 then ReachesEntry fs user msg false else FindsMarked fs user msg
  | .rdwt caller _ isRead msg => isRead = false → WritesBehind fs caller msg
  | .unlink user msg => FindsMarked fs user msg ∧ ReachesEntry fs user msg true
  | _ => True

instance (fs : Fs) (r : FsRequest) : Decidable (FsOk fs r) :=
  match r with
  | .open _ user msg => inferInstanceAs (Decidable (if msg.flags &&& oCreat ≠ 0 then
      ReachesEntry fs user msg false else FindsMarked fs user msg))
  | .close _ _ => inferInstanceAs (Decidable True)
  | .rdwt _ _ _ _ => inferInstanceAs (Decidable (_ → _))
  | .unlink _ _ => inferInstanceAs (Decidable (_ ∧ _))
  | .stat _ _ => inferInstanceAs (Decidable True)
  | .fork _ _ => inferInstanceAs (Decidable True)
  | .exit _ => inferInstanceAs (Decidable True)

/-- A descriptor in use is of the same inode as before, unless it has become free. -/
structure KeepsFiles (fs fs' : Fs) : Prop where
  desc : ∀ d p, (fs.fDescTable d).fdInode = some p →
    (fs'.fDescTable d).fdInode = some p ∨ (fs'.fDescTable d).fdInode = none
  num : ∀ d p, (fs.fDescTable d).fdInode = some p →
    (fs'.inodeTable p).iNum = (fs.inodeTable p).iNum

/-- What a request leaves behind, when only the open files of some processes can be others. -/
structure Served tight (changed : Slot → Prop) (fs fs' : Fs) : Prop where
  good : FsGood tight noneHeld fs'
  keeps : KeepsFiles fs fs'
  filp : ∀ c, ¬ changed c → fs'.filp c = fs.filp c

theorem FsGood.inUse {held : Entry → ℕ} (h : FsGood tight held fs) {d p : Entry}
    (hd : (fs.fDescTable d).fdInode = some p) : (fs.inodeTable p).iCnt ≠ 0 :=
  (h.refs.objCnt_pos (d := d) hd).ne'

theorem SameRefs.keeps {held : Entry → ℕ} (h : FsGood tight held fs) (hsame : SameRefs fs fs') :
    KeepsFiles fs fs' where
  desc d p hd := .inl (by rw [hsame.desc, hd])
  num d p hd := (hsame.num p (h.inUse hd)).2

theorem KeepsFiles.refl (fs : Fs) : KeepsFiles fs fs where
  desc _ _ hd := .inl hd
  num _ _ _ := rfl

theorem served_refl {changed : Slot → Prop} (h : FsGood tight noneHeld fs) :
    Served tight changed fs fs :=
  ⟨h, .refl fs, fun _ _ => rfl⟩

theorem FsGood.gotSame {held : Entry → ℕ} {num : Int} {r : Option Entry} (h : FsGood tight held fs)
    (hgot : GotInode fs num r fs') : SameRefs fs fs' := by
  cases hgot with
  | null => exact ⟨rfl, rfl, fun q hq => ⟨hq, rfl⟩⟩
  | hit p _ hcnt hnum =>
    refine ⟨rfl, rfl, fun q hq => ?_⟩
    rw [Fs.setInode_inodeTable]
    split_ifs with hqp
    · rw [hqp]
      have := h.cnt_nonneg p
      exact ⟨by dsimp only; omega, rfl⟩
    · exact ⟨hq, rfl⟩
  | miss p _ hnone hzero hoff =>
    refine ⟨rfl, rfl, fun q hq => ?_⟩
    rw [Fs.setInode_inodeTable, if_neg fun he : q = p => hq (he ▸ hzero)]
    exact ⟨hq, rfl⟩

/-! ## open -/

theorem FindsMarked.toInt {path : List Byte} (h : FindsMarked fs user msg)
    (hpath : getPath user msg = .ok path) (hnr : searchFile fs path ≠ 0) :
    Allocated fs.disk (searchFile fs path).toNat ∧
      (searchFile fs path).toInt = (searchFile fs path).toNat := by
  have hall := (h path (by rw [hpath]; rfl)).resolve_left hnr
  have hlt := hall.2.1
  exact ⟨hall, BitVec.toInt_eq_toNat_of_lt (by omega)⟩

theorem InodeSought.good {path : List Byte} {p : Entry}
    (hs : InodeSought fs path msg.flags (some p) fs') (h : FsGood tight noneHeld fs)
    (hok : FsOk fs (.open caller user msg)) (hpath : getPath user msg = .ok path) :
    FsGood tight (one p) fs' ∧ SameRefs fs fs' := by
  unfold FsOk at hok
  dsimp only at hok
  cases hs with
  | created _ _ hcreat hnr hs =>
    rw [if_pos hcreat] at hok
    exact h.createFile (hok path (by rw [hpath]; rfl) (decide_eq_false (not_not.2 hnr))) hs
  | got _ _ hcreat hgot =>
    rw [if_neg (not_not.2 hcreat)] at hok
    have hnr : searchFile fs path ≠ 0 := fun hz => hgot.ne_zero (congrArg BitVec.toInt hz)
    obtain ⟨hall, hint⟩ := hok.toInt hpath hnr
    exact ⟨h.got hall hint hgot, h.gotSame hgot⟩

/-- An `OPEN` that is to create a name that is not found, where there is no number for an inode. -/
def CreatesNoInode (fs : Fs) : FsRequest → Prop
  | .open _ user msg => msg.flags &&& oCreat ≠ 0 ∧ NoInode fs ∧ ∃ path filename,
      getPath user msg = .ok path ∧ stripPath path = some filename ∧ searchFile fs path = 0
  | _ => False

/-- Where there is no inode for it, a row of sectors is lost to a name. -/
theorem doOpen_refused {path : List Byte} {changed : Slot → Prop} (h : FsGood tight noneHeld fs)
    (hok : FsOk fs (.open caller user msg))
    (hno : tight → ¬ CreatesNoInode fs (.open caller user msg))
    (hpath : getPath user msg = .ok path) (hs : InodeSought fs path msg.flags none fs') :
    Served tight changed fs fs' := by
  rcases hs.none with rfl | ⟨hcreat, hnr, hnone⟩
  · exact served_refl h
  rcases h.noFile hnone with rfl | ⟨b, disk₁, hmade⟩
  · exact served_refl h
  unfold FsOk at hok
  dsimp only at hok
  rw [if_pos hcreat] at hok
  have hreach := hok path (by rw [hpath]; rfl) (decide_eq_false (not_not.2 hnr))
  obtain ⟨filename, hname, -⟩ := hmade.entry
  obtain ⟨hgood, hsame⟩ := hmade.good h
    (fun ht => hno ht ⟨hcreat, .inl hmade.full, path, filename, hpath, hname, hnr⟩) hreach
  exact ⟨hgood, hsame.keeps h, fun c _ => by rw [hsame.filp]⟩

theorem doOpen_served {r : Int} (h : FsGood tight noneHeld fs)
    (hok : FsOk fs (.open caller user msg))
    (hno : tight → ¬ CreatesNoInode fs (.open caller user msg))
    (hs : doOpen user fs caller msg = .ok (r, fs')) : Served tight (· = caller) fs fs' := by
  cases doOpen_done hs with
  | refused path fs' hpath hopen => exact doOpen_refused h hok hno hpath hopen
  | opened path fd d p fs₁ hpath hfd hd hopen =>
    obtain ⟨hgood, hsame⟩ := hopen.good h hok hpath
    refine ⟨hgood.connect (by rw [hsame.filp, hfd]) (by rw [hsame.desc, hd]), ⟨fun e q he => ?_,
      fun e q he => (hsame.num q (h.inUse he)).2⟩, fun c hc => ?_⟩
    · have hne : e ≠ d := by
        rintro rfl
        exact Option.some_ne_none q (he.symm.trans hd)
      refine .inl ?_
      simp [Fs.setDesc, Fs.setFilp, hne, hsame.desc, he]
    · simp [Fs.setDesc, Fs.setFilp, hc, hsame.filp]

/-! ## close, fork and exit -/

/-- Descriptors are dropped, and inodes keep their numbers. -/
structure Loses (fs fs' : Fs) : Prop where
  desc : ∀ d, (fs'.fDescTable d).fdInode = (fs.fDescTable d).fdInode ∨
    (fs'.fDescTable d).fdInode = none
  num : ∀ p, (fs'.inodeTable p).iNum = (fs.inodeTable p).iNum

theorem Loses.keeps (h : Loses fs fs') : KeepsFiles fs fs' where
  desc d _ hd := (h.desc d).imp_left (·.trans hd)
  num _ p _ := h.num p

theorem Loses.trans (h : Loses fs fs₁) (h' : Loses fs₁ fs') : Loses fs fs' where
  desc d := by
    rcases h'.desc d with hd | hd
    · rw [hd]
      exact h.desc d
    · exact .inr hd
  num p := (h'.num p).trans (h.num p)

theorem dropped_loses (fs : Fs) (c : Slot) (fd d p : Entry) :
    Loses fs (FsGood.dropped fs c fd d p) where
  desc e := by
    by_cases he : e = d
    · by_cases hlast : (fs.fDescTable d).fdCnt - 1 = 0 <;>
        simp [FsGood.dropped, Fs.setFilp, Fs.setDesc, Fs.setInode, he, hlast]
    · simp [FsGood.dropped, Fs.setFilp, Fs.setDesc, Fs.setInode, he]
  num q := by
    by_cases hq : q = p <;> simp [FsGood.dropped, Fs.setFilp, Fs.setDesc, Fs.setInode, hq]

theorem dropped_filp (fs : Fs) (c : Slot) (fd d p : Entry) :
    (FsGood.dropped fs c fd d p).filp = Function.update fs.filp c
      (Function.update (fs.filp c) fd none) := rfl

theorem doClose_served {r : Int} (h : FsGood tight noneHeld fs)
    (hs : doClose fs caller msg = .ok (r, fs')) : Served tight (· = caller) fs fs' := by
  unfold doClose at hs
  obtain ⟨⟨fd, d⟩, hfd, hs⟩ := bind_eq_ok.1 hs
  unfold filpAt at hfd
  split_ifs at hfd with hlt
  obtain ⟨rfl, hd⟩ := Prod.mk.inj (Except.ok.inj hfd)
  cases d with
  | none => exact nomatch hs
  | some d =>
    dsimp only at hs
    split at hs
    · exact nomatch hs
    rename_i p hp
    obtain ⟨fs₁, hput, hs⟩ := bind_eq_ok.1 hs
    obtain ⟨-, rfl⟩ := putInode_ok hput
    obtain ⟨-, rfl⟩ := Prod.mk.inj (Except.ok.inj hs)
    exact ⟨h.drop hd hp, (dropped_loses fs caller _ d p).keeps, fun c hc => by
      change (FsGood.dropped fs caller _ d p).filp c = _
      rw [dropped_filp, Function.update_of_ne hc]⟩

/-- `fs_exit` drops the descriptors of a list of entries. -/
theorem exitFilps_good {pid : Slot} : ∀ {l : List Entry} {fs : Fs}, FsGood tight noneHeld fs →
    l.foldlM (exitFilp pid) fs = .ok fs' → FsGood tight noneHeld fs' ∧ Loses fs fs' ∧
      (∀ c, c ≠ pid → fs'.filp c = fs.filp c) ∧
      ∀ fd, fs'.filp pid fd = if fd ∈ l then none else fs.filp pid fd
  | [], fs, h, hs => by
    obtain rfl := Except.ok.inj hs
    exact ⟨h, ⟨fun _ => .inl rfl, fun _ => rfl⟩, fun _ _ => rfl, fun fd => by simp⟩
  | i :: l, fs, h, hs => by
    rw [List.foldlM_cons] at hs
    obtain ⟨fs₁, hi, hs⟩ := bind_eq_ok.1 hs
    cases exitFilp_exited hi with
    | unused hnone =>
      obtain ⟨hgood, hloses, hothers, hpid⟩ := exitFilps_good h hs
      refine ⟨hgood, hloses, hothers, fun fd => ?_⟩
      rw [hpid]
      by_cases hfd : fd = i
      · subst hfd
        simp [hnone]
      · simp [hfd]
    | dropped d p hd hp =>
      obtain ⟨hgood, hloses, hothers, hpid⟩ := exitFilps_good (h.drop hd hp) hs
      refine ⟨hgood, (dropped_loses fs pid i d p).trans hloses, fun c hc => ?_, fun fd => ?_⟩
      · rw [hothers c hc, dropped_filp, Function.update_of_ne hc]
      · rw [hpid, dropped_filp, Function.update_self]
        by_cases hfd : fd = i
        · subst hfd
          simp
        · simp [hfd]

theorem forkFilp_loses {c : Slot} {i : Entry} (hs : forkFilp c fs i = .ok fs') :
    Loses fs fs' ∧ fs'.filp = fs.filp := by
  cases forkFilp_forked hs with
  | unused => exact ⟨⟨fun _ => .inl rfl, fun _ => rfl⟩, rfl⟩
  | counted d p =>
    refine ⟨⟨fun e => .inl ?_, fun q => ?_⟩, rfl⟩
    · by_cases he : e = d <;> simp [Fs.setInode, Fs.setDesc, he]
    · by_cases hq : q = p <;> simp [Fs.setInode, Fs.setDesc, hq]

/-- `fs_fork` counts the entries of a list, which are hidden before. -/
theorem forkFilps_good {c : Slot} : ∀ {l : List Entry} {fs : Fs}, l.Nodup →
    FsGood tight noneHeld (FsGood.hidden fs c l) → l.foldlM (forkFilp c) fs = .ok fs' →
      FsGood tight noneHeld fs' ∧ Loses fs fs' ∧ fs'.filp = fs.filp
  | [], fs, _, h, hs => by
    obtain rfl := Except.ok.inj hs
    have hall : FsGood.hidden fs c [] = fs := by simp [FsGood.hidden]
    rw [hall] at h
    exact ⟨h, ⟨fun _ => .inl rfl, fun _ => rfl⟩, rfl⟩
  | i :: l, fs, hnodup, h, hs => by
    obtain ⟨hi, hnodup⟩ := List.nodup_cons.1 hnodup
    rw [List.foldlM_cons] at hs
    obtain ⟨fs₁, hfirst, hs⟩ := bind_eq_ok.1 hs
    obtain ⟨hloses, hfilp⟩ := forkFilp_loses hfirst
    obtain ⟨hgood, hloses', hfilp'⟩ := forkFilps_good hnodup (h.share hi hfirst) hs
    exact ⟨hgood, hloses.trans hloses', hfilp'.trans hfilp⟩

theorem fsFork_served {parent child : Slot} (h : FsGood tight noneHeld fs)
    (hchild : ∀ fd, fs.filp child fd = none)
    (hs : fsFork { fs with filp := Function.update fs.filp child (fs.filp parent) } child =
      .ok fs') : Served tight (· = child) fs fs' := by
  have hfs : FsGood.hidden { fs with filp := Function.update fs.filp child (fs.filp parent) } child
      (List.finRange 64) = fs := by
    unfold FsGood.hidden
    congr 1
    funext c fd
    by_cases hc : c = child
    · subst hc
      simp [hchild]
    · simp [hc]
  obtain ⟨hgood, hloses, hfilp⟩ := forkFilps_good (List.nodup_finRange 64) (hfs.symm ▸ h) hs
  refine ⟨hgood, ⟨hloses.keeps.desc, hloses.keeps.num⟩, fun c hc => ?_⟩
  rw [hfilp]
  exact Function.update_of_ne hc ..

/-! ## read and write -/

theorem rdwtDesc_ok {fd : BitVec 32} {d p : Entry}
    (h : rdwtDesc fs caller fd = .ok (some (d, p))) : (fs.fDescTable d).fdInode = some p := by
  unfold rdwtDesc at h
  obtain ⟨⟨fd, e⟩, -, h⟩ := bind_eq_ok.1 h
  cases e with
  | none => exact nomatch h
  | some e =>
    dsimp only at h
    split_ifs at h with hmode
    · exact nomatch Except.ok.inj h
    split at h
    · exact nomatch h
    · rename_i q hq
      obtain ⟨rfl, rfl⟩ := Prod.mk.inj (Option.some.inj (Except.ok.inj h))
      exact hq

theorem rdwtAdvance_good {d p : Entry} {n r : Int} (h : FsGood tight noneHeld fs)
    (hp : (fs.fDescTable d).fdInode = some p) (hs : rdwtAdvance fs d p n = .ok (r, fs')) :
    FsGood tight noneHeld fs' ∧ KeepsFiles fs fs' ∧ fs'.filp = fs.filp := by
  unfold rdwtAdvance at hs
  dsimp only at hs
  generalize (fs.fDescTable d).fdPos + BitVec.ofInt 32 n = fdPos at hs
  have hdesc (e : Entry) : ((fs.setDesc d fun x => { x with fdPos }).fDescTable e).fdInode =
      (fs.fDescTable e).fdInode := by
    by_cases he : e = d <;> simp [Fs.setDesc, he]
  have htable : (fs.setDesc d fun x => { x with fdPos }).table = fs.table := by
    refine Table.ext rfl (funext fun e => ?_) (funext hdesc) rfl
    by_cases he : e = d <;> simp [Fs.table, Fs.setDesc, he]
  have hgood : FsGood tight noneHeld (fs.setDesc d fun x => { x with fdPos }) :=
    h.withRefs rfl rfl rfl (fun q => ⟨rfl, rfl, id⟩) (htable ▸ h.refs)
  have hcnt := h.inUse hp
  generalize hgs : (fs.setDesc d fun x => { x with fdPos }) = gs at hs hgood hdesc
  have htab : gs.inodeTable = fs.inodeTable := hgs ▸ rfl
  have hfilp : gs.filp = fs.filp := hgs ▸ rfl
  split_ifs at hs with hgrow
  · obtain ⟨fs₁, hsync, hs⟩ := bind_eq_ok.1 hs
    obtain ⟨-, rfl⟩ := Prod.mk.inj (Except.ok.inj hs)
    have hsame := sameRefs_size (fun _ => fdPos) hsync
    refine ⟨hgood.resize (fun _ => fdPos) (by rwa [htab]) hsync, ⟨fun e q he => .inl ?_,
      fun e q he => ?_⟩, hsame.filp.trans hfilp⟩
    · rw [hsame.desc, hdesc, he]
    · rw [(hsame.num q (by rw [htab]; exact h.inUse he)).2, htab]
  · obtain ⟨-, rfl⟩ := Prod.mk.inj (Except.ok.inj hs)
    exact ⟨hgood, ⟨fun e q he => .inl (by rw [hdesc, he]), fun e q _ => by rw [htab]⟩, hfilp⟩

theorem doRdwt_served {isRead : Bool} {r : Int} (h : FsGood tight noneHeld fs)
    (hok : isRead = false → WritesBehind fs caller msg)
    (hs : doRdwt user fs caller isRead msg = .ok (r, fs')) :
    Served tight (fun _ => False) fs fs' := by
  unfold doRdwt at hs
  obtain ⟨desc, hdesc, hs⟩ := bind_eq_ok.1 hs
  cases desc with
  | none =>
    obtain ⟨-, rfl⟩ := Prod.mk.inj (Except.ok.inj hs)
    exact served_refl h
  | some dp =>
    obtain ⟨d, p⟩ := dp
    dsimp only at hs
    split_ifs at hs with hchar
    · rw [assert_bind_eq_ok] at hs
      obtain ⟨-, rfl⟩ := Prod.mk.inj (Except.ok.inj hs.2)
      exact served_refl h
    unfold rdwtFile at hs
    rw [assert_bind_eq_ok] at hs
    obtain ⟨disk', hdisk, hs⟩ := bind_eq_ok.1 hs.2
    have hgood : FsGood tight noneHeld { fs with disk := disk' } := by
      refine h.of_below fun y hy => rdwtDisk_below (fun hw => ?_) hy hdisk
      subst hw
      exact hok rfl (some (d, p)) (by rw [hdesc]; rfl) (d, p) rfl hchar
    obtain ⟨hgood', hkeeps, hfilp⟩ := rdwtAdvance_good hgood (rdwtDesc_ok hdesc) hs
    exact ⟨hgood', ⟨hkeeps.desc, hkeeps.num⟩, fun c _ => by rw [hfilp]⟩

/-! ## stat and unlink -/

theorem doStat_served {s : Option Stat} (h : FsGood tight noneHeld fs)
    (hs : doStat user fs msg = .ok (s, fs')) : Served tight (fun _ => False) fs fs' := by
  cases s with
  | none =>
    rw [(doStat_none hs).1]
    exact served_refl h
  | some s =>
    obtain ⟨path, p, fs₁, -, hgot, -, -, rfl⟩ := doStat_some hs
    have hsame := h.gotSame hgot
    refine ⟨h.gotAndPut hgot, ⟨fun d q hd => .inl ?_, fun d q hd => ?_⟩, fun c _ => ?_⟩
    · rw [Fs.setInode_fDescTable, hsame.desc, hd]
    · rw [Fs.setInode_inodeTable]
      have hnum := (hsame.num q (h.inUse hd)).2
      split_ifs with hq
      · rw [← hnum, hq]
      · exact hnum
    · rw [Fs.setInode_filp, hsame.filp]

theorem GotInode.num {num : Int} {p : Entry} (h : GotInode fs num (some p) fs') :
    (fs'.inodeTable p).iNum = num := by
  cases h with
  | hit _ _ _ hnum => rw [Fs.setInode_inodeTable, if_pos rfl, hnum]
  | miss => rw [Fs.setInode_inodeTable, if_pos rfl]

/-- The root directory stays as it is. -/
theorem RootReach.got {held held' : Entry → ℕ} {num : Int} {r : Option Entry}
    (hreach : RootReach fs) (h : FsGood tight held fs) (h' : FsGood tight held' fs')
    (hgot : GotInode fs num r fs') : RootReach fs' := by
  obtain ⟨hsb, hroot, hdisk⟩ := hgot.sb
  have hdir : (fs'.inodeTable fs'.rootInode).toDiskInode =
      (fs.inodeTable fs.rootInode).toDiskInode := by
    rw [h.rootDir, h'.rootDir, hsb, hdisk]
  unfold RootReach at hreach ⊢
  rwa [hsb, congrArg DiskInode.iSize hdir]

theorem doUnlink_served {r : Int} (h : FsGood tight noneHeld fs) (hok : FsOk fs (.unlink user msg))
    (hs : doUnlink user fs msg = .ok (r, fs')) : Served tight (fun _ => False) fs fs' := by
  obtain ⟨hfinds, hreaches⟩ := hok
  obtain ⟨path, hpath, hout⟩ := doUnlink_ok hs
  cases hout with
  | absent => exact served_refl h
  | kept p _ hnr hgot =>
    obtain ⟨hall, hint⟩ := hfinds.toInt hpath hnr
    have hsame := h.gotSame hgot
    exact ⟨(h.got hall hint hgot).forget, hsame.keeps h, fun c _ => by rw [hsame.filp]⟩
  | @removed fs₁ _ p _ hnr hgot hmode hcnt hrem =>
    obtain ⟨hall, hint⟩ := hfinds.toInt hpath hnr
    have hsame := h.gotSame hgot
    have hgot' := h.got hall hint hgot
    have hreach := hreaches path (by rw [hpath]; rfl) (decide_eq_true hnr)
    obtain ⟨hgood, hfilp, hdesc, hrest⟩ :=
      hgot'.removeFile (hreach.got h hgot' hgot) hmode hcnt hgot.num hrem
    refine ⟨hgood, ⟨fun d q hd => .inl ?_, fun d q hd => ?_⟩, fun c _ => ?_⟩
    · rw [hdesc, hsame.desc, hd]
    · have huse := h.inUse hd
      -- an inode that a descriptor is of would be counted twice
      have hqp : q ≠ p := by
        rintro rfl
        have := hgot.cnt
        have := h.cnt_nonneg q
        omega
      obtain ⟨hcnt', hnum⟩ := hsame.num q huse
      rw [hrest q hqp hcnt', hnum]
    · rw [hfilp, hsame.filp]

end MyOS
