import MyOS.Proofs.DirMap
import MyOS.Proofs.ByteFile

/-!
# Names over runs

As long as a name fits the entry it gets and the last entry goes where no unused one is before one
in use, and nothing that is behind the last entry has a name to be found, `search_file` returns what
the last creation of a name gave.
-/

namespace MyOS

open Memory Block SlotMap

variable {fs fs' : Fs} {r : FsRequest} {path filename : List Byte} {v : Int}

/-! ## What each request may do -/

/-- An entry for a new file: the name fits, and where the directory grows no other name is found
behind it. -/
def EntryFits (fs : Fs) (filename : List Byte) : Prop :=
  NameFits fs filename ∧ (freeEntry fs = nrEntries fs → ∀ p, IsName p → p ≠ filename →
    Unlisted fs p → ¬ Stale fs (nrEntries fs + 1) p)

/-- Entry `k` is removed: in front of the last one no name of its own is found behind that, and the
last one goes with no unused entry before one in use. -/
def EntryGoes (fs : Fs) (k : ℕ) : Prop :=
  (k + 1 = nrEntries fs → NoHoles fs k) ∧ (k + 1 ≠ nrEntries fs → ∀ p, IsName p →
    SameName p (rootName fs k) → ¬ Stale fs (nrEntries fs) p)

/-- The requests that keep the names. -/
def NamesOk (fs : Fs) : FsRequest → Prop
  | .open _ user msg => msg.flags &&& oCreat ≠ 0 → ∀ path filename, getPath user msg = .ok path →
    stripPath path = some filename → searchFile fs path = 0 → EntryFits fs filename ∧ ¬ NoInode fs
  | .unlink user msg => ∀ path k, getPath user msg = .ok path →
    Removes fs (searchFile fs path) k → EntryGoes fs k
  | _ => True

/-- What holds between requests. -/
structure NamesInv (w : NamedWorld) : Prop where
  world : WorldInv False w.toFsWorld
  dir : DirOk w.fs
  map : Represents (entryAt w.fs) w.given

/-! ## Requests that leave the directory as it is -/

theorem DirOk.congr (h : DirOk fs) (hdisk : fs'.disk = fs.disk)
    (hinode : (fs'.inodeTable fs'.rootInode).toDiskInode =
      (fs.inodeTable fs.rootInode).toDiskInode) : DirOk fs' ∧ entryAt fs' = entryAt fs := by
  have hsize : (fs'.inodeTable fs'.rootInode).iSize = (fs.inodeTable fs.rootInode).iSize :=
    congrArg DiskInode.iSize hinode
  have hblk : rootBlk fs' = rootBlk fs := congrArg (fun x => x.iStartSect.toNat) hinode
  have hn : nrEntries fs' = nrEntries fs := by rw [nrEntries, hsize, nrEntries]
  have hnr (k : ℕ) : rootNr fs' k = rootNr fs k := by rw [rootNr, hdisk, hblk, rootNr]
  have hname (k : ℕ) : rootName fs' k = rootName fs k := by rw [rootName, hdisk, hblk, rootName]
  have hentry : entryAt fs' = entryAt fs := funext fun k =>
    entryAt_congr (fun _ => by rw [hn]) ⟨hnr k, fun i _ => by rw [hname]⟩
  refine ⟨⟨hsize ▸ h.size, hn ▸ h.small, fun k hk => ?_, fun k hk => ?_, fun k hk => ?_,
    fun j k hj hk => ?_, fun p hp hunlisted => ?_⟩, hentry⟩
  · rw [hn] at hk
    rw [hnr, hname]
    exact h.named k hk
  · rw [hn] at hk
    rw [hnr, hname]
    exact h.unused k hk
  · rw [hn] at hk
    rw [hnr, hdisk]
    exact h.marked k hk
  · rw [hn] at hj hk
    rw [hnr, hnr]
    exact h.distinct j k hj hk
  · unfold Unlisted at hunlisted
    unfold Stale
    simp only [hn, hname, hnr] at hunlisted ⊢
    exact h.behind p hp hunlisted

theorem filps_disk {f : Fs → Entry → Except Fault Fs}
    (hf : ∀ fs i fs', f fs i = .ok fs' → fs'.disk = fs.disk ∧ fs'.sb = fs.sb) :
    ∀ {l : List Entry} {fs : Fs}, l.foldlM f fs = .ok fs' → fs'.disk = fs.disk ∧ fs'.sb = fs.sb
  | [], _, hs => by
    obtain rfl := Except.ok.inj hs
    exact ⟨rfl, rfl⟩
  | i :: l, fs, hs => by
    rw [List.foldlM_cons] at hs
    obtain ⟨fs₁, hi, hs⟩ := bind_eq_ok.1 hs
    obtain ⟨hdisk, hsb⟩ := filps_disk hf hs
    obtain ⟨hdisk', hsb'⟩ := hf fs i fs₁ hi
    exact ⟨hdisk.trans hdisk', hsb.trans hsb'⟩

theorem forkFilp_disk {c : Slot} {i : Entry} (hs : forkFilp c fs i = .ok fs') :
    fs'.disk = fs.disk ∧ fs'.sb = fs.sb := by
  cases forkFilp_forked hs with
  | unused => exact ⟨rfl, rfl⟩
  | counted => exact ⟨rfl, rfl⟩

theorem exitFilp_disk {c : Slot} {i : Entry} (hs : exitFilp c fs i = .ok fs') :
    fs'.disk = fs.disk ∧ fs'.sb = fs.sb := by
  cases exitFilp_exited hs with
  | unused => exact ⟨rfl, rfl⟩
  | dropped => exact ⟨rfl, rfl⟩

/-- A request that has neither created nor removed a file writes nothing. -/
theorem fsCall_disk {given : List Byte → Option (BitVec 32)} (hr : r.isRdwt = false)
    (hok : NamesOk fs r)
    (hopen : ∀ caller user msg, r = .open caller user msg → ¬ (msg.flags &&& oCreat ≠ 0 ∧ v ≠ -1))
    (hunlink : ∀ user msg, r = .unlink user msg → v ≠ 0) (hs : fsCall fs r = .ok (v, fs')) :
    fs'.disk = fs.disk ∧ fs'.sb = fs.sb ∧ r.gives given v fs' = given := by
  cases r with
  | «open» caller user msg =>
    have hno := hopen caller user msg rfl
    refine and_assoc.1 ⟨?_, if_neg hno⟩
    by_cases hcreat : msg.flags &&& oCreat = 0
    · obtain ⟨num, o, fs₁, hgot, hdisk, hsb, -⟩ := doOpen_got hcreat hs
      obtain ⟨hsb', -, hdisk'⟩ := hgot.sb
      exact ⟨hdisk.trans hdisk', hsb.trans hsb'⟩
    · obtain rfl : v = -1 := by_contra fun hv => hno ⟨hcreat, hv⟩
      obtain ⟨path, hpath, hopen⟩ := doOpen_failed hs
      rcases hopen.none with rfl | ⟨-, hnr, hnone⟩
      · exact ⟨rfl, rfl⟩
      · rw [hnone.eq fun filename hname => (hok hcreat path filename hpath hname hnr).2]
        exact ⟨rfl, rfl⟩
  | close caller msg =>
    refine and_assoc.1 ⟨?_, rfl⟩
    obtain ⟨⟨fd, o⟩, -, hs⟩ := bind_eq_ok.1 hs
    cases o with
    | none => exact nomatch hs
    | some e =>
      dsimp only at hs
      split at hs
      · exact nomatch hs
      · obtain ⟨fs₁, hput, hs⟩ := bind_eq_ok.1 hs
        obtain ⟨-, rfl⟩ := putInode_ok hput
        obtain ⟨-, rfl⟩ := Prod.mk.inj (Except.ok.inj hs)
        exact ⟨rfl, rfl⟩
  | rdwt caller user isRead msg => exact nomatch hr
  | unlink user msg =>
    have hv := hunlink user msg rfl
    refine and_assoc.1 ⟨?_, if_neg hv⟩
    obtain ⟨path, -, hout⟩ := doUnlink_ok hs
    cases hout with
    | absent => exact ⟨rfl, rfl⟩
    | kept p _ _ hgot => exact ⟨hgot.sb.2.2, hgot.sb.1⟩
    | removed => exact absurd rfl hv
  | stat user msg =>
    refine and_assoc.1 ⟨?_, rfl⟩
    obtain ⟨⟨s, fs₁⟩, hstat, hs⟩ := bind_eq_ok.1 hs
    obtain ⟨-, rfl⟩ := Prod.mk.inj (Except.ok.inj hs)
    cases s with
    | none =>
      rw [(doStat_none hstat).1]
      exact ⟨rfl, rfl⟩
    | some s =>
      obtain ⟨path, p, fs₂, -, hgot, -, -, rfl⟩ := doStat_some hstat
      exact ⟨hgot.sb.2.2, hgot.sb.1⟩
  | fork parent child =>
    refine and_assoc.1 ⟨?_, rfl⟩
    obtain ⟨fs₁, hfork, hs⟩ := bind_eq_ok.1 hs
    obtain ⟨-, rfl⟩ := Prod.mk.inj (Except.ok.inj hs)
    unfold fsFork at hfork
    have hsame := filps_disk (fun _ _ _ => forkFilp_disk) hfork
    exact hsame
  | exit pid =>
    refine and_assoc.1 ⟨?_, rfl⟩
    obtain ⟨fs₁, hexit, hs⟩ := bind_eq_ok.1 hs
    obtain ⟨-, rfl⟩ := Prod.mk.inj (Except.ok.inj hs)
    unfold fsExit at hexit
    exact filps_disk (fun _ _ _ => exitFilp_disk) hexit

/-! ## Requests that create and remove files -/

/-- The names that are found are those of marked inodes. -/
theorem DirOk.findsMarked {m : List Byte → Option (BitVec 32)} (h : DirOk fs)
    (hgood : FsGood False noneHeld fs) (hm : Represents (entryAt fs) m) (user : Addr → Byte)
    (msg : Message) : FindsMarked fs user msg := by
  intro path hpath
  rcases hget : getPath user msg with e | path'
  · rw [hget] at hpath
    exact nomatch hpath
  rw [hget] at hpath
  obtain rfl : path' = path := Option.some.inj hpath
  rcases hname : stripPath path' with _ | filename
  · exact .inl (by rw [searchFile, hname])
  by_cases hne : filename = []
  · subst hne
    right
    have hroot : searchFile fs path' = 1 := by
      rw [searchFile, hname]
      dsimp only
      rw [hgood.cache.root]
      rfl
    rw [hroot]
    exact hgood.disk.allocated_one
  · have hp := isName_of_stripPath (fun hc => (getPath_ok hget).2 0 hc rfl) hname hne
    rw [h.search hm hname hp]
    rcases hf : m filename with _ | nr
    · exact .inl rfl
    · obtain ⟨k, hk⟩ := (hm.holds filename nr).1 hf
      obtain ⟨hlt, rfl, h0, -⟩ := (h.entryAt_eq hp).1 hk
      exact .inr (h.marked k hlt h0)

theorem DirOk.fsOk {m : List Byte → Option (BitVec 32)} (h : DirOk fs)
    (hgood : FsGood False noneHeld fs) (hm : Represents (entryAt fs) m) (hr : r.isRdwt = false) :
    FsOk fs r := by
  have hreach := (h.reach hgood.layout).2
  cases r with
  | «open» caller user msg =>
    change if _ then _ else _
    split_ifs
    · exact fun _ _ _ => hreach
    · exact h.findsMarked hgood hm user msg
  | rdwt caller user isRead msg => exact nomatch hr
  | unlink user msg => exact ⟨h.findsMarked hgood hm user msg, fun _ _ _ => hreach⟩
  | close | stat | fork | exit => exact trivial

/-- A file has been created, and is open. -/
theorem doOpen_created {user : Addr → Byte} {caller : Slot} {msg : Message}
    (hcreat : msg.flags &&& oCreat ≠ 0) (hv : v ≠ -1)
    (hs : doOpen user fs caller msg = .ok (v, fs')) : ∃ path pin fs₁,
      getPath user msg = .ok path ∧ searchFile fs path = 0 ∧
      createFile fs path = .ok (some pin, fs₁) ∧ fs'.disk = fs₁.disk ∧
      fs'.inodeTable = fs₁.inodeTable ∧ fs'.rootInode = fs₁.rootInode ∧
      fdInodeNr fs' caller v = BitVec.ofInt 32 (fs₁.inodeTable pin).iNum := by
  cases doOpen_done hs with
  | refused path => exact absurd rfl hv
  | opened path fd d pin fs₁ hpath _ _ hopen =>
    cases hopen with
    | got _ _ hc => exact absurd hc hcreat
    | created _ _ _ hnr hopen =>
      refine ⟨path, pin, fs₁, hpath, hnr, hopen, rfl, rfl, rfl, ?_⟩
      have hfin : Fin.ofNat 64 ((fd.val : Int)).toNat = fd := by
        rw [Int.toNat_natCast]
        exact Fin.ext (Nat.mod_eq_of_lt fd.isLt)
      unfold fdInodeNr
      rw [hfin]
      simp [Fs.setDesc, Fs.setFilp]

theorem filenameOf_eq {user : Addr → Byte} {msg : Message} (hpath : getPath user msg = .ok path)
    (hname : stripPath path = some filename) : filenameOf user msg = filename := by
  unfold filenameOf
  rw [hpath]
  change ((some path).bind stripPath).getD [] = filename
  rw [Option.bind_some, hname]
  rfl

/-- A creation gives a name a number. -/
theorem DirOk.created {m : List Byte → Option (BitVec 32)} {user : Addr → Byte} {caller : Slot}
    {msg : Message} (h : DirOk fs) (hgood : FsGood False noneHeld fs)
    (hm : Represents (entryAt fs) m) (hcreat : msg.flags &&& oCreat ≠ 0) (hv : v ≠ -1)
    (hok : NamesOk fs (.open caller user msg))
    (hs : doOpen user fs caller msg = .ok (v, fs')) :
    DirOk fs' ∧ Represents (entryAt fs')
      (Function.update m (filenameOf user msg) (some (fdInodeNr fs' caller v))) := by
  obtain ⟨path, pin, fs₁, hpath, hnr, hcreate, hdisk, htable, hroot, hfd⟩ :=
    doOpen_created hcreat hv hs
  obtain ⟨filename, n, fs₂, hname, -⟩ := hgood.createFile_made hcreate
  have hne : filename ≠ [] := by
    rintro rfl
    rw [searchFile, hname] at hnr
    dsimp only at hnr
    rw [hgood.cache.root] at hnr
    exact absurd hnr (by decide)
  have hp := isName_of_stripPath (fun hc => (getPath_ok hpath).2 0 hc rfl) hname hne
  obtain ⟨⟨hfits, hbehind⟩, -⟩ := hok hcreat path filename hpath hname hnr
  -- what is not found has no entry
  rw [h.search hm hname hp] at hnr
  have hnone : m filename = none := by
    rcases hf : m filename with _ | nr
    · rfl
    · obtain ⟨k, hk⟩ := (hm.holds filename nr).1 hf
      rw [hf] at hnr
      exact absurd hnr ((h.entryAt_eq hp).1 hk).2.2.1
  have hunlisted : Unlisted fs filename := fun k hk hsame => by
    have h0 : rootNr fs k ≠ 0 := fun h0 => not_sameName_null hp (h.unused k hk h0) hsame
    exact hm.absent.1 hnone k _ ((h.entryAt_eq hp).2 ⟨hk, rfl, h0, hsame⟩)
  obtain ⟨n, hnum, hfresh, hput, hsize⟩ :=
    createFile_puts hgood h hname hp hunlisted hfits hcreate
  obtain ⟨hdir, hentry⟩ := h.create hgood.layout hgood.rootStart hfresh hput hsize hbehind
  obtain ⟨hdir', hentry'⟩ := hdir.congr hdisk (by rw [htable, hroot])
  refine ⟨hdir', ?_⟩
  have hfree : entryAt fs (freeEntry fs) = none := by
    refine if_neg ?_
    rintro ⟨hlt, h0⟩
    exact h0 (freeEntry_unused hlt)
  rw [hentry', hentry, filenameOf_eq hpath hname, hfd, hnum, BitVec.ofInt_natCast]
  exact hm.fill hfree hnone

/-- An unlink takes the number of its name away. -/
theorem DirOk.unlinked {m : List Byte → Option (BitVec 32)} {user : Addr → Byte} {msg : Message}
    (h : DirOk fs) (hgood : FsGood False noneHeld fs) (hgood' : FsGood False noneHeld fs')
    (hm : Represents (entryAt fs) m) (hok : NamesOk fs (.unlink user msg))
    (hs : doUnlink user fs msg = .ok (0, fs')) :
    DirOk fs' ∧ Represents (entryAt fs') (Function.update m (filenameOf user msg) none) := by
  obtain ⟨path, k, hpath, hpos, hrem, hput, hsize, hkept⟩ := unlink_puts hgood hgood' h hs
  obtain ⟨hholes, hbehind⟩ := hok path k hpath hrem
  obtain ⟨hlt, hnr, -⟩ := hrem
  have h0 : searchFile fs path ≠ 0 := fun h0 => by
    rw [h0] at hpos
    exact absurd hpos (by decide)
  -- the entry is that of the name
  obtain ⟨filename, hname⟩ : ∃ filename, stripPath path = some filename := by
    rcases hname : stripPath path with _ | filename
    · exact absurd (by rw [searchFile, hname]) h0
    · exact ⟨filename, rfl⟩
  have hne : filename ≠ [] := by
    rintro rfl
    rw [searchFile, hname] at hpos
    dsimp only at hpos
    rw [hgood.cache.root] at hpos
    exact absurd hpos (by decide)
  have hp := isName_of_stripPath (fun hc => (getPath_ok hpath).2 0 hc rfl) hname hne
  have hmap : m filename = some (searchFile fs path) := by
    have hsearch := h.search hm hname hp
    rcases hf : m filename with _ | nr
    · rw [hf] at hsearch
      exact absurd hsearch h0
    · rw [hf] at hsearch
      rw [hsearch]
      rfl
  obtain ⟨i, hi⟩ := (hm.holds _ _).1 hmap
  obtain ⟨hilt, hinr, -, hsame⟩ := (h.entryAt_eq hp).1 hi
  obtain rfl : i = k := h.distinct i k hilt hlt (hinr ▸ h0) (hinr.trans hnr.symm)
  obtain ⟨hdir, hentry⟩ := h.remove hgood.layout hgood.rootStart hlt hput hsize hholes
    (fun j hj hjk hj0 => hkept _ (h.marked j hj hj0) fun he =>
      hjk (h.distinct j i hj hlt hj0 ((BitVec.eq_of_toNat_eq he).trans hinr.symm))) hbehind
  refine ⟨hdir, ?_⟩
  rw [hentry, filenameOf_eq hpath hname]
  exact hm.empty hi

/-! ## The start -/

/-- The sector of the root directory that `mkfs` writes. -/
def mkfsDirBuf : Bytes :=
  mkfsEntries.zipIdx.foldl (fun f x =>
    strcpy (putWord f (dirEntrySize * x.2) (BitVec.ofNat 32 x.1.1)) (dirEntrySize * x.2 + 4) x.1.2)
    fun _ => 0

theorem mkfsDisk_dirBytes {nrSects z : ℕ} (d : Device) (hz : z < 512) :
    dirBytes (mkfsDisk nrSects d) (mkfsSb nrSects).n1stSect z = mkfsDirBuf z := by
  unfold mkfsDisk mkfsFiles
  dsimp only
  change dirBytes (wrSect _ ((mkfsSb nrSects).n1stSect + (0 : ℕ)) mkfsDirBuf) _ z = _
  rw [dirBytes_wrSect _ _ _ (by omega) (by omega), if_pos (by omega), Nat.mod_eq_of_lt hz]

/-- The entries that `mkfs` writes, in order. -/
def mkfsSlots : List (List Byte × BitVec 32) := mkfsEntries.map fun x => (x.2, BitVec.ofNat 32 x.1)

theorem mkfsDirBuf_entry : ∀ k < 5, ∃ x ∈ mkfsSlots[k]?, word mkfsDirBuf (16 * k) = x.2 ∧
    x.2 ≠ 0 ∧ IsName x.1 ∧ SameName x.1 (fun i => mkfsDirBuf (16 * k + 4 + i)) ∧
    x.2.toNat = k + 1 := by
  decide +kernel

section Start

variable {nrSects : ℕ} (hlo : 35328 < nrSects) (hhi : nrSects < 131059712) (disk : Bytes)
  (p : Entry)

include hlo hhi in
/-- The root directory of a new file system, -/
theorem startFs_root : (startFs nrSects (mkfsDisk nrSects ⟨disk, []⟩) p).inodeTable p =
    { rootNode (mkfsSb nrSects) with iCnt := 1, iNum := rootInodeNr } := by
  rw [startFs_inodeTable, if_pos rfl, (mkfsDisk_inodes hlo hhi ⟨disk, []⟩).1]

include hlo hhi in
theorem startFs_blk : rootBlk (startFs nrSects (mkfsDisk nrSects ⟨disk, []⟩) p) =
      (mkfsSb nrSects).n1stSect ∧
    nrEntries (startFs nrSects (mkfsDisk nrSects ⟨disk, []⟩) p) = 5 := by
  have hsmall := (layout_mkfsSb hlo hhi).small
  have hroot := startFs_root hlo hhi disk p
  constructor
  · change (((startFs _ _ _).inodeTable p).iStartSect).toNat = _
    rw [hroot, rootNode, BitVec.toNat_ofNat]
    omega
  · change ((startFs _ _ _).inodeTable p).iSize.toNat / dirEntrySize = 5
    rw [hroot]
    change (BitVec.ofNat 32 (dirEntrySize * 5)).toNat / dirEntrySize = 5
    decide

include hlo hhi in
theorem startFs_nr {k : ℕ} (hk : k < 32) :
    rootNr (startFs nrSects (mkfsDisk nrSects ⟨disk, []⟩) p) k = word mkfsDirBuf (16 * k) := by
  rw [rootNr, (startFs_blk hlo hhi disk p).1, slotNr_eq]
  exact word_congr fun i hi => mkfsDisk_dirBytes ⟨disk, []⟩ (by omega)

include hlo hhi in
theorem startFs_name {k : ℕ} (hk : k < 32) (q : List Byte) :
    SameName q (rootName (startFs nrSects (mkfsDisk nrSects ⟨disk, []⟩) p) k) ↔
      SameName q fun i => mkfsDirBuf (16 * k + 4 + i) := by
  rw [rootName, (startFs_blk hlo hhi disk p).1]
  refine sameName_congr fun i hi => ?_
  have hi : i < 12 := hi
  rw [slotName_eq _ _ _ hi]
  exact mkfsDisk_dirBytes ⟨disk, []⟩ (by omega)

include hlo hhi in
theorem startFs_dirOk : DirOk (startFs nrSects (mkfsDisk nrSects ⟨disk, []⟩) p) ∧
    entryAt (startFs nrSects (mkfsDisk nrSects ⟨disk, []⟩) p) = fun k => mkfsSlots[k]? := by
  have hn := (startFs_blk hlo hhi disk p).2
  have hnr := fun k => @startFs_nr _ hlo hhi disk p k
  have hname := fun k => @startFs_name _ hlo hhi disk p k
  have hroot := startFs_root hlo hhi disk p
  have hdisk : (startFs nrSects (mkfsDisk nrSects ⟨disk, []⟩) p).disk =
      mkfsDisk nrSects ⟨disk, []⟩ := rfl
  have hptr : (startFs nrSects (mkfsDisk nrSects ⟨disk, []⟩) p).rootInode = p := rfl
  generalize startFs nrSects (mkfsDisk nrSects ⟨disk, []⟩) p = fs at hn hnr hname hroot hdisk hptr
  have hall (n : ℕ) : Allocated fs.disk n ↔ 1 ≤ n ∧ n < 6 := by
    rw [hdisk]
    exact mkfsDisk_allocated hlo hhi ⟨disk, []⟩
  have hok : DirOk fs := by
    refine ⟨?_, by omega, fun k hk _ => ?_, fun k hk h0 => ?_, fun k hk _ => ?_,
      fun j k hj hk _ he => ?_, fun q hq _ hstale => ?_⟩
    · rw [hptr, hroot]
      exact show dirEntrySize ∣ (BitVec.ofNat 32 (dirEntrySize * 5)).toNat by decide
    · obtain ⟨x, -, -, -, hx, hsame, -⟩ := mkfsDirBuf_entry k (by omega)
      exact ⟨x.1, hx, (hname k (by omega) _).2 hsame⟩
    · obtain ⟨x, -, hword, hx0, -⟩ := mkfsDirBuf_entry k (by omega)
      rw [hnr k (by omega), hword] at h0
      exact absurd h0 hx0
    · obtain ⟨x, -, hword, -, -, -, hnat⟩ := mkfsDirBuf_entry k (by omega)
      rw [hnr k (by omega), hword, hall]
      omega
    · obtain ⟨x, -, hword, -, -, -, hnat⟩ := mkfsDirBuf_entry j (by omega)
      obtain ⟨y, -, hword', -, -, -, hnat'⟩ := mkfsDirBuf_entry k (by omega)
      rw [hnr j (by omega), hnr k (by omega), hword, hword'] at he
      rw [he] at hnat
      omega
    · have h0 : word mkfsDirBuf (16 * 5) = 0 := by decide +kernel
      rw [hn] at hstale
      exact hstale.2.2 ((hnr 5 (by omega)).trans h0)
  refine ⟨hok, funext fun k => ?_⟩
  by_cases hk : k < 5
  · obtain ⟨x, hx, hword, hx0, hxname, hsame, -⟩ := mkfsDirBuf_entry k hk
    rw [Option.mem_def.1 hx]
    refine (hok.entryAt_eq hxname).2 ⟨by omega, ?_, hx0, (hname k (by omega) _).2 hsame⟩
    rw [hnr k (by omega), hword]
  · have hlen : mkfsSlots.length = 5 := rfl
    rw [List.getElem?_eq_none (by omega)]
    exact if_neg fun he => hk (by omega)

end Start

theorem represents_mkfs : Represents (fun k : ℕ => mkfsSlots[k]?) mkfsGiven := by
  have hlist := represents_list (l := mkfsSlots) (by decide)
  have hgiven : mkfsGiven =
      fun filename => (mkfsSlots.find? fun x => x.1 = filename).map Prod.snd := by
    funext filename
    rw [mkfsGiven, mkfsSlots, List.find?_map, Option.map_map]
    rfl
  rwa [hgiven]

theorem namesInv_start {nrSects : ℕ} {w : NamedWorld} (hregions : RegionsApart nrSects)
    (h : NamedWorldStart nrSects w) : NamesInv w := by
  obtain ⟨hstart, hgiven⟩ := h
  have hworld : WorldInv False w.toFsWorld := worldInv_start hregions hstart
  obtain ⟨disk, hinit, -⟩ := hstart
  obtain ⟨hlo, hhi, p, hfs⟩ := initFs_eq hregions hinit
  obtain ⟨hdir, hentry⟩ := startFs_dirOk hlo hhi disk p
  rw [← hfs] at hdir hentry
  exact ⟨hworld, hdir, by rw [hentry, hgiven]; exact represents_mkfs⟩

/-! ## Runs -/

variable {nrSects : ℕ} {w w' : NamedWorld} {t : List FsRequest}

def NamedStep (w : NamedWorld) (r : FsRequest) (w' : NamedWorld) : Prop := namedStep w r = some w'

/-- A step with a request that keeps the names. -/
def NamedOkStep (w : NamedWorld) (r : FsRequest) (w' : NamedWorld) : Prop :=
  NamedStep w r w' ∧ NamesOk w.fs r

theorem namedStep_cases (h : NamedStep w r w') : r.isRdwt = false ∧
    FsWorldStep w.toFsWorld r w'.toFsWorld ∧
    ∃ v, fsCall w.fs r = .ok (v, w'.fs) ∧ w'.given = r.gives w.given v w'.fs := by
  unfold NamedStep namedStep at h
  split_ifs at h with hr
  obtain ⟨⟨v, fs'⟩, hcall, rfl⟩ := Option.map_eq_some_iff.1 h
  rcases hfs : fsCall w.fs r with e | x
  · rw [hfs] at hcall
    exact nomatch hcall
  · rw [hfs] at hcall
    obtain rfl := Option.some.inj hcall
    refine ⟨hr.2, ?_, v, rfl, rfl⟩
    unfold FsWorldStep fsWorldStep fsHandle
    rw [if_pos hr.1, hfs]
    rfl

theorem namesInv_step (h : NamesInv w) (hok : NamesOk w.fs r) (hs : NamedStep w r w') :
    NamesInv w' := by
  obtain ⟨hr, hstep, v, hcall, hgiven⟩ := namedStep_cases hs
  have hgood := h.world.good
  obtain ⟨hworld', -⟩ := worldInv_step h.world (h.dir.fsOk hgood h.map hr) False.elim hstep
  have hgood' := hworld'.good
  by_cases hopen : ∃ caller user msg, r = .open caller user msg ∧
      msg.flags &&& oCreat ≠ 0 ∧ v ≠ -1
  · obtain ⟨caller, user, msg, rfl, hcreat, hv⟩ := hopen
    obtain ⟨hdir, hmap⟩ := h.dir.created hgood h.map hcreat hv hok hcall
    refine ⟨hworld', hdir, ?_⟩
    rw [hgiven, FsRequest.gives, if_pos ⟨hcreat, hv⟩]
    exact hmap
  by_cases hunlink : ∃ user msg, r = .unlink user msg ∧ v = 0
  · obtain ⟨user, msg, rfl, rfl⟩ := hunlink
    obtain ⟨hdir, hmap⟩ := h.dir.unlinked hgood hgood' h.map hok hcall
    refine ⟨hworld', hdir, ?_⟩
    rw [hgiven, FsRequest.gives, if_pos rfl]
    exact hmap
  obtain ⟨hdisk, hsb, hgives⟩ := @fsCall_disk _ _ _ _ w.given hr hok
    (fun caller user msg hr hv => hopen ⟨caller, user, msg, hr, hv⟩)
    (fun user msg hr hv => hunlink ⟨user, msg, hr, hv⟩) hcall
  obtain ⟨hdir, hentry⟩ := h.dir.congr hdisk (by rw [hgood'.rootDir, hgood.rootDir, hsb, hdisk])
  refine ⟨hworld', hdir, ?_⟩
  rw [hgiven, hgives, hentry]
  exact h.map

theorem namesInv_run (hregions : RegionsApart nrSects)
    (h : Run (NamedWorldStart nrSects) NamedOkStep t w) : NamesInv w :=
  h.invariant (P := fun _ w => NamesInv w) (fun _ hstart => namesInv_start hregions hstart)
    fun _ _ _ _ hinv hs => namesInv_step hinv hs.2 hs.1

/-- In every run of requests that keep the names, `search_file` finds for a name the inode number
that its last creation gave, and nothing for one that was never created or has been unlinked
since. -/
theorem search_given (hregions : RegionsApart nrSects)
    (h : Run (NamedWorldStart nrSects) NamedOkStep t w) {p : List Byte} (hp : IsName p) :
    searchFile w.fs p = (w.given p).getD 0 := by
  have hinv := namesInv_run hregions h
  exact hinv.dir.search hinv.map (stripPath_isName hp) hp

/-! ## Names on a new file system -/

theorem search_given_a : ∃ w, Run (NamedWorldStart 40000) NamedOkStep [creates [0x61]] w ∧
    searchFile w.fs [0x61] = 6 := by
  have hany : ((initFs (fun _ => 0) 40000).toOption.any fun fs =>
      (NameFits fs [0x61] ∧ nrEntries fs = 5 ∧ rootNr fs 6 = 0 ∧ imapBit fs.disk 0 = true ∧
        imapBit fs.disk 4095 = false) ∧
      (namedStep ⟨⟨fs, nativeLive⟩, mkfsGiven⟩ (creates [0x61])).any fun w =>
        w.given [0x61] = some 6) = true := by
    simp only [creates, namedStep, fsCall, doOpen, openInode, createFile, allocAtOnce_eq]
    decide +kernel
  obtain ⟨fs, hinit, hany⟩ := exists_ok_of_any hany
  obtain ⟨⟨hfits, hn, hzero, hmarked, hleft⟩, hany⟩ := of_decide_eq_true hany
  obtain ⟨w, hstep, hgiven⟩ := (Option.any_eq_true _ _).1 hany
  have hok : NamesOk fs (creates [0x61]) := by
    rintro - path filename hpath hname -
    obtain rfl : [0x61] = path := Except.ok.inj ((by decide : getPath _ _ = _).symm.trans hpath)
    obtain rfl : [0x61] = filename :=
      Option.some.inj ((by decide : stripPath _ = _).symm.trans hname)
    refine ⟨⟨hfits, fun _ p _ _ _ hstale => ?_⟩, not_noInode hmarked hleft⟩
    rw [hn] at hstale
    exact hstale.2.2 hzero
  have hrun : Run (NamedWorldStart 40000) NamedOkStep [creates [0x61]] w :=
    .snoc (.start ⟨⟨_, hinit, rfl⟩, rfl⟩) ⟨hstep, hok⟩
  refine ⟨w, hrun, ?_⟩
  rw [search_given regionsApart_40000 hrun (by decide), of_decide_eq_true hgiven]
  rfl

/-- The files "a" and "y"; then "a" is closed and removed, and a name of twelve characters gets its
entry. The null behind it is the low byte of the number of "y". -/
def fullNameRun : List FsRequest :=
  [creates [0x61], creates [0x79], .close init (ioMsg 0 0), unlinks [0x61],
    creates (List.replicate 12 0x62)]

theorem full_name_hides : ∃ w, Run (NamedWorldStart 40000) NamedStep fullNameRun.reverse w ∧
    IsName [0x79] ∧ w.given [0x79] = some 7 ∧ searchFile w.fs [0x79] = 0 := by
  have hany : ((initFs (fun _ => 0) 40000).toOption.any fun fs =>
      (Run.exec namedStep ⟨⟨fs, nativeLive⟩, mkfsGiven⟩ fullNameRun).any fun w =>
        w.given [0x79] = some 7 ∧ searchFile w.fs [0x79] = 0) = true := by
    simp only [fullNameRun, creates, unlinks, Run.exec, namedStep, fsCall, doOpen, openInode,
      createFile, allocAtOnce_eq]
    decide +kernel
  obtain ⟨fs, hinit, hany⟩ := exists_ok_of_any hany
  obtain ⟨w, hexec, hw⟩ := (Option.any_eq_true _ _).1 hany
  have hstart : NamedWorldStart 40000 ⟨⟨fs, nativeLive⟩, mkfsGiven⟩ := ⟨⟨_, hinit, rfl⟩, rfl⟩
  have hrun := Run.of_exec (.start hstart) hexec
  rw [List.append_nil] at hrun
  exact ⟨w, hrun, by decide, of_decide_eq_true hw⟩

end MyOS
