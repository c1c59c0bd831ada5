import MyOS.Fs.Main
import Mathlib.Algebra.Order.BigOperators.Group.List
import Mathlib.Data.List.TakeWhile

/-!
# What a request of the file system does

One lemma for each function says what it can have done when it returns; later results are by cases
on these.
-/

namespace MyOS

open Memory Block

namespace Fs

theorem setInode_inodeTable (fs : Fs) (p q : Entry) (f : Inode → Inode) :
    (fs.setInode p f).inodeTable q = if q = p then f (fs.inodeTable p) else fs.inodeTable q :=
  Function.update_apply ..

@[simp] theorem setInode_disk (fs : Fs) (p : Entry) (f : Inode → Inode) :
    (fs.setInode p f).disk = fs.disk := rfl

@[simp] theorem setInode_sb (fs : Fs) (p : Entry) (f : Inode → Inode) :
    (fs.setInode p f).sb = fs.sb := rfl

@[simp] theorem setInode_fDescTable (fs : Fs) (p : Entry) (f : Inode → Inode) :
    (fs.setInode p f).fDescTable = fs.fDescTable := rfl

@[simp] theorem setInode_filp (fs : Fs) (p : Entry) (f : Inode → Inode) :
    (fs.setInode p f).filp = fs.filp := rfl

@[simp] theorem setInode_rootInode (fs : Fs) (p : Entry) (f : Inode → Inode) :
    (fs.setInode p f).rootInode = fs.rootInode := rfl

end Fs

variable {fs fs' : Fs} {num : Int}

/-- `get_inode`: the null pointer, an inode that is in the table, or one read into a free entry. -/
inductive GotInode (fs : Fs) (num : Int) : Option Entry → Fs → Prop
  | null : num = 0 → GotInode fs num none fs
  | hit (p : Entry) : num ≠ 0 → (fs.inodeTable p).iCnt ≠ 0 → (fs.inodeTable p).iNum = num →
    GotInode fs num (some p) (fs.setInode p fun x => { x with iCnt := x.iCnt + 1 })
  | miss (q : Entry) : num ≠ 0 →
    (∀ p, (fs.inodeTable p).iCnt ≠ 0 → (fs.inodeTable p).iNum ≠ num) →
    (fs.inodeTable q).iCnt = 0 → 0 ≤ inodeOff num →
    GotInode fs num (some q) (fs.setInode q fun _ =>
      { readInode (rdSect fs.disk (inodeBlk fs.sb num)) (inodeOff num).toNat with
        iCnt := 1, iNum := num })

theorem getInode_ok {r : Option Entry} (h : getInode fs num = .ok (r, fs')) :
    GotInode fs num r fs' := by
  unfold getInode at h
  by_cases hnum : num = 0
  · rw [if_pos hnum] at h
    obtain ⟨rfl, rfl⟩ : r = none ∧ fs' = fs := by simpa [eq_comm] using h
    exact .null hnum
  rw [if_neg hnum] at h
  split at h
  · rename_i p hp
    obtain ⟨hcnt, hn⟩ : (fs.inodeTable p).iCnt ≠ 0 ∧ (fs.inodeTable p).iNum = num := by
      simpa using List.find?_some hp
    simp only [Except.ok.injEq, Prod.mk.injEq] at h
    obtain ⟨rfl, rfl⟩ := h
    exact .hit p hnum hcnt hn
  · rename_i hnone
    have hnone : ∀ p, (fs.inodeTable p).iCnt ≠ 0 → (fs.inodeTable p).iNum ≠ num := by
      simpa using hnone
    split at h
    · exact nomatch h
    · rename_i q hq
      have hcnt : (fs.inodeTable q).iCnt = 0 := by simpa using List.find?_some hq
      split_ifs at h with hoff
      simp only [Except.ok.injEq, Prod.mk.injEq] at h
      obtain ⟨rfl, rfl⟩ := h
      exact .miss q hnum hnone hcnt (by omega)

theorem GotInode.cnt {p : Entry} (h : GotInode fs num (some p) fs') :
    (fs'.inodeTable p).iCnt = (fs.inodeTable p).iCnt + 1 := by
  cases h with
  | hit _ hnum hcnt hn => rw [Fs.setInode_inodeTable, if_pos rfl]
  | miss _ hnum hnone hzero hoff => rw [Fs.setInode_inodeTable, if_pos rfl, hzero]; rfl

theorem GotInode.none {r : Option Entry} (h : GotInode fs num r fs') (hr : r = .none) :
    num = 0 ∧ fs' = fs := by
  subst hr
  cases h with
  | null hnum => exact ⟨hnum, rfl⟩

theorem GotInode.ne_zero {p : Entry} (h : GotInode fs num (some p) fs') : num ≠ 0 := by
  cases h with
  | hit _ hnum | miss _ hnum => exact hnum

theorem syncInode_ok {p : Entry} (h : syncInode fs p = .ok fs') :
    ∃ disk, fs' = { fs with disk } := by
  unfold syncInode at h
  dsimp only at h
  split_ifs at h
  exact ⟨_, (Except.ok.inj h).symm⟩

theorem putInode_ok {p : Entry} (h : putInode fs p = .ok fs') :
    0 < (fs.inodeTable p).iCnt ∧ fs' = fs.setInode p fun x => { x with iCnt := x.iCnt - 1 } := by
  unfold putInode at h
  rw [assert_bind_eq_ok] at h
  exact ⟨h.1, (Except.ok.inj h.2).symm⟩

/-! ## Paths -/

theorem getPath_ok {user : Addr → Byte} {msg : Message} {path : List Byte}
    (h : getPath user msg = .ok path) : path.length < maxPath ∧ ∀ c ∈ path, c ≠ 0 := by
  unfold getPath at h
  rw [assert_bind_eq_ok] at h
  obtain ⟨hlen, h⟩ := h
  split_ifs at h with hneg
  obtain rfl := Except.ok.inj h
  refine ⟨?_, fun c hc => by simpa using List.mem_takeWhile_imp hc⟩
  have := (List.takeWhile_sublist (· ≠ 0) (l := (List.range msg.nameLen.toNat).map fun i =>
    user (msg.pathname + BitVec.ofNat 32 i))).length_le
  rw [List.length_map, List.length_range] at this
  have := BitVec.toInt_eq_toNat_cond msg.nameLen
  split_ifs at this <;> omega

/-- A path that is named is found again. -/
theorem getPath_textAt {path : List Byte} {flags : BitVec 32} (hlen : path.length < maxPath)
    (hnull : ∀ c ∈ path, c ≠ 0) : getPath (textAt path) (nameMsg path flags) = .ok path := by
  have hmax : path.length < 128 := hlen
  have hn : (nameMsg path flags).nameLen.toNat = path.length := by
    simp only [nameMsg]
    rw [BitVec.toNat_ofNat]
    omega
  have hi : (nameMsg path flags).nameLen.toInt = path.length := by
    rw [BitVec.toInt_eq_toNat_of_lt (by omega), hn]
  have htext : ((List.range path.length).map fun i =>
      textAt path ((nameMsg path flags).pathname + BitVec.ofNat 32 i)) = path := by
    refine List.ext_getElem (by simp) fun i h₁ h₂ => ?_
    have hname : (nameMsg path flags).pathname = 0 := rfl
    have hi : (BitVec.ofNat 32 i).toNat = i := by
      rw [BitVec.toNat_ofNat]
      omega
    simp [textAt, hname, Nat.mod_eq_of_lt (show i < 4294967296 by omega), h₂]
  unfold getPath
  rw [assert_bind_eq_ok]
  refine ⟨by omega, ?_⟩
  rw [if_neg (by omega), hn, htext, List.takeWhile_eq_self_iff.2 (by simpa using hnull)]

/-! ## stat and open -/

theorem doStat_none {user : Addr → Byte} {msg : Message}
    (h : doStat user fs msg = .ok (none, fs')) :
    fs' = fs ∧ ∃ path, getPath user msg = .ok path ∧ searchFile fs path = 0 := by
  unfold doStat at h
  obtain ⟨path, hpath, h⟩ := bind_eq_ok.1 h
  dsimp only at h
  split_ifs at h with hnr
  · exact ⟨(Prod.mk.inj (Except.ok.inj h)).2.symm, path, hpath, hnr⟩
  · split at h
    · exact nomatch h
    · obtain ⟨⟨pin, fs₁⟩, -, h⟩ := bind_eq_ok.1 h
      cases pin with
      | none => exact nomatch h
      | some pin =>
        obtain ⟨fs₂, -, h⟩ := bind_eq_ok.1 h
        exact nomatch (Prod.mk.inj (Except.ok.inj h)).1

theorem doStat_some {user : Addr → Byte} {msg : Message} {s : Stat}
    (h : doStat user fs msg = .ok (some s, fs')) :
    ∃ path p fs₁, getPath user msg = .ok path ∧
      GotInode fs (searchFile fs path).toInt (some p) fs₁ ∧ s = (fs₁.inodeTable p).stat ∧
      0 < (fs₁.inodeTable p).iCnt ∧ fs' = fs₁.setInode p fun x =>
        { x with iCnt := x.iCnt - 1 } := by
  unfold doStat at h
  obtain ⟨path, hpath, h⟩ := bind_eq_ok.1 h
  dsimp only at h
  split_ifs at h with hnr
  · exact nomatch (Prod.mk.inj (Except.ok.inj h)).1
  · split at h
    · exact nomatch h
    · obtain ⟨⟨pin, fs₁⟩, hget, h⟩ := bind_eq_ok.1 h
      cases pin with
      | none => exact nomatch h
      | some pin =>
        obtain ⟨fs₂, hput, h⟩ := bind_eq_ok.1 h
        obtain ⟨hs, rfl⟩ := Prod.mk.inj (Except.ok.inj h)
        exact ⟨path, pin, fs₁, hpath, getInode_ok hget, (Option.some.inj hs).symm, putInode_ok hput⟩

/-- There is a new inode but where its number is 0. -/
theorem newInode_none {n startSect : ℕ} (hs : newInode fs n startSect = .ok (none, fs')) :
    n = 0 ∧ fs' = fs := by
  unfold newInode at hs
  obtain ⟨⟨q, fs₁⟩, hgot, h⟩ := bind_eq_ok.1 hs
  cases q with
  | none =>
    obtain ⟨hn, rfl⟩ := (getInode_ok hgot).none rfl
    exact ⟨Int.natCast_eq_zero.1 hn, (Prod.mk.inj (Except.ok.inj h)).2.symm⟩
  | some q =>
    obtain ⟨fs₂, -, h⟩ := bind_eq_ok.1 h
    exact nomatch (Prod.mk.inj (Except.ok.inj h)).1

/-- What `create_file` has done where it returns a null pointer: nothing, or it has got no number
from the map of inodes and gone on with the rest. -/
inductive NoFile (fs : Fs) (path : List Byte) : Fs → Prop
  | unnamed : stripPath path = none → NoFile fs path fs
  | noInode (filename : List Byte) (sect : ℕ) (fs₁ fs₂ fs' : Fs) :
    stripPath path = some filename → allocImapBit fs = .ok (0, fs₁) →
    allocSmapBit fs₁ nrDefaultFileSects = .ok (sect, fs₂) →
    newDirEntry fs₂ fs₂.rootInode 0 filename = .ok fs' → NoFile fs path fs'

theorem createFile_none {path : List Byte} (h : createFile fs path = .ok (none, fs')) :
    NoFile fs path fs' := by
  unfold createFile at h
  split at h
  · rename_i hname
    obtain ⟨-, rfl⟩ := Prod.mk.inj (Except.ok.inj h)
    exact .unnamed hname
  · rename_i filename hname
    obtain ⟨⟨nr, fs₁⟩, himap, h⟩ := bind_eq_ok.1 h
    obtain ⟨⟨sect, fs₂⟩, hsmap, h⟩ := bind_eq_ok.1 h
    obtain ⟨⟨p, fs₃⟩, hnew, h⟩ := bind_eq_ok.1 h
    obtain ⟨fs₄, hdir, h⟩ := bind_eq_ok.1 h
    obtain ⟨rfl, rfl⟩ := Prod.mk.inj (Except.ok.inj h)
    obtain ⟨rfl, rfl⟩ := newInode_none hnew
    exact .noInode filename sect fs₁ fs₃ fs₄ hname himap hsmap hdir

/-- Where `do_open` has its inode from: with `O_CREAT` the name must not be there, without it it
must. -/
inductive InodeSought (fs : Fs) (path : List Byte) (flags : BitVec 32) : Option Entry → Fs → Prop
  | taken : flags &&& oCreat ≠ 0 → searchFile fs path ≠ 0 → InodeSought fs path flags none fs
  | created (pin : Option Entry) (fs' : Fs) : flags &&& oCreat ≠ 0 → searchFile fs path = 0 →
    createFile fs path = .ok (pin, fs') → InodeSought fs path flags pin fs'
  | unnamed : flags &&& oCreat = 0 → stripPath path = none → InodeSought fs path flags none fs
  | got (pin : Option Entry) (fs' : Fs) : flags &&& oCreat = 0 →
    GotInode fs (searchFile fs path).toInt pin fs' → InodeSought fs path flags pin fs'

theorem openInode_sought {path : List Byte} {flags : BitVec 32} {pin : Option Entry}
    (h : openInode fs path flags = .ok (pin, fs')) : InodeSought fs path flags pin fs' := by
  unfold openInode at h
  dsimp only at h
  split_ifs at h with hcreat hnr
  · obtain ⟨rfl, rfl⟩ := Prod.mk.inj (Except.ok.inj h)
    exact .taken hcreat hnr
  · exact .created pin fs' hcreat (not_not.1 hnr) h
  · rw [assert_bind_eq_ok] at h
    obtain ⟨-, h⟩ := h
    split at h
    · rename_i hname
      obtain ⟨rfl, rfl⟩ := Prod.mk.inj (Except.ok.inj h)
      exact .unnamed (not_not.1 hcreat) hname
    · exact .got pin fs' (not_not.1 hcreat) (getInode_ok h)

/-- A name is created for which there is no inode. -/
def CreatesNone (fs : Fs) (path : List Byte) (flags : BitVec 32) (fs' : Fs) : Prop :=
  flags &&& oCreat ≠ 0 ∧ searchFile fs path = 0 ∧ NoFile fs path fs'

theorem InodeSought.none {path : List Byte} {flags : BitVec 32}
    (h : InodeSought fs path flags none fs') : fs' = fs ∨ CreatesNone fs path flags fs' := by
  cases h with
  | taken => exact .inl rfl
  | created _ _ hcreat hnr h => exact .inr ⟨hcreat, hnr, createFile_none h⟩
  | unnamed => exact .inl rfl
  | got _ _ _ h => exact .inl (h.none rfl).2

/-- What a `do_open` that returns has done: it has found no inode, or it has put a free descriptor
to a free entry of `filp`. -/
inductive OpenDone (user : Addr → Byte) (fs : Fs) (pcaller : Slot) (msg : Message) :
    Int → Fs → Prop
  | refused (path : List Byte) (fs' : Fs) : getPath user msg = .ok path →
    InodeSought fs path msg.flags none fs' → OpenDone user fs pcaller msg (-1) fs'
  | opened (path : List Byte) (fd d pin : Entry) (fs₁ : Fs) : getPath user msg = .ok path →
    fs.filp pcaller fd = none → (fs.fDescTable d).fdInode = none →
    InodeSought fs path msg.flags (some pin) fs₁ → OpenDone user fs pcaller msg fd.val
      ((fs₁.setFilp pcaller fd (some d)).setDesc d fun _ =>
        { fdMode := msg.flags, fdPos := 0, fdCnt := 1, fdInode := some pin })

section Open

variable {user : Addr → Byte} {pcaller : Slot} {msg : Message} {path : List Byte} {r : Int}

theorem doOpen_done (h : doOpen user fs pcaller msg = .ok (r, fs')) :
    OpenDone user fs pcaller msg r fs' := by
  unfold doOpen at h
  obtain ⟨path, hpath, h⟩ := bind_eq_ok.1 h
  split at h
  · exact nomatch h
  rename_i fd hfd
  have hfree : fs.filp pcaller fd = none := by simpa using List.find?_some hfd
  split at h
  · exact nomatch h
  rename_i d hd
  have hdesc : (fs.fDescTable d).fdInode = none := by simpa using List.find?_some hd
  obtain ⟨⟨pin, fs₁⟩, ho, h⟩ := bind_eq_ok.1 h
  cases pin with
  | none =>
    obtain ⟨rfl, rfl⟩ := Prod.mk.inj (Except.ok.inj h)
    exact .refused path fs₁ hpath (openInode_sought ho)
  | some pin =>
    obtain ⟨-, -, h⟩ := bind_eq_ok.1 h
    obtain ⟨rfl, rfl⟩ := Prod.mk.inj (Except.ok.inj h)
    exact .opened path fd d pin fs₁ hpath hfree hdesc (openInode_sought ho)

theorem doOpen_failed (h : doOpen user fs pcaller msg = .ok (-1, fs')) :
    ∃ path, getPath user msg = .ok path ∧ InodeSought fs path msg.flags none fs' := by
  generalize hr : (-1 : Int) = r at h
  cases doOpen_done h with
  | refused path _ hpath hs => exact ⟨path, hpath, hs⟩
  | opened path fd => omega

/-- A name that is not found is not opened, -/
theorem doOpen_absent (hpath : getPath user msg = .ok path) (hflags : msg.flags = oRdwr)
    (hnr : searchFile fs path = 0) (h : doOpen user fs pcaller msg = .ok (r, fs')) :
    r = -1 ∧ fs' = fs := by
  cases doOpen_done h with
  | refused path' _ _ ho =>
    refine ⟨rfl, ho.none.resolve_right fun hc => hc.1 ?_⟩
    rw [hflags]
    decide
  | opened path' fd d pin fs₁ hpath' _ _ ho =>
    obtain rfl := Except.ok.inj (hpath.symm.trans hpath')
    rw [hflags] at ho
    cases ho with
    | created _ _ hcreat => exact absurd (by decide) hcreat
    | got _ _ _ hgot => exact absurd (congrArg BitVec.toInt hnr) hgot.ne_zero

/-- and one that is found takes a free entry of `filp`. -/
theorem doOpen_found (hpath : getPath user msg = .ok path) (hflags : msg.flags = oRdwr)
    (hnr : searchFile fs path ≠ 0) (h : doOpen user fs pcaller msg = .ok (r, fs')) :
    ∃ fd : Entry, r = fd.val ∧ fs.filp pcaller fd = none ∧ fs'.filp pcaller fd ≠ none := by
  cases doOpen_done h with
  | refused path' _ hpath' ho =>
    obtain rfl := Except.ok.inj (hpath.symm.trans hpath')
    rw [hflags] at ho
    cases ho with
    | taken hcreat | created _ _ hcreat => exact absurd (by decide) hcreat
    | unnamed _ hstrip =>
      exact absurd (show searchFile fs path = 0 by simp [searchFile, hstrip]) hnr
    | got _ _ _ hgot => exact absurd (BitVec.eq_of_toInt_eq (hgot.none rfl).1) hnr
  | opened path' fd d pin fs₁ _ hfree =>
    refine ⟨fd, rfl, hfree, ?_⟩
    simp [Fs.setFilp, Fs.setDesc]

end Open

/-! ## Reading and writing -/

theorem readTurns_ok : ∀ {turns : List RdwtTurn}, turns.forM readTurn = .ok () →
    ∀ t ∈ turns, 0 ≤ t.bytes ∧ 0 ≤ t.off
  | [], _ => fun t ht => nomatch ht
  | t :: l, h => by
    obtain ⟨u, ht, h⟩ := bind_eq_ok.1 h
    unfold readTurn at ht
    split_ifs at ht with hneg
    intro x hx
    rcases List.mem_cons.1 hx with rfl | hx
    · omega
    · exact readTurns_ok h x hx

theorem writeTurns_ok {user : Addr → Byte} {buf : Addr} {chunk : Int} :
    ∀ {turns : List RdwtTurn} {disk disk' : Bytes},
    turns.foldlM (writeTurn user buf chunk) disk = .ok disk' → ∀ t ∈ turns, 0 ≤ t.bytes ∧ 0 ≤ t.off
  | [], _, _, _ => fun t ht => nomatch ht
  | t :: l, disk, disk', h => by
    rw [List.foldlM_cons] at h
    obtain ⟨disk₁, ht, h⟩ := bind_eq_ok.1 h
    unfold writeTurn at ht
    split_ifs at ht with hneg
    intro x hx
    rcases List.mem_cons.1 hx with rfl | hx
    · omega
    · exact writeTurns_ok h x hx

theorem rdwtDisk_ok {user : Addr → Byte} {buf : Addr} {isRead : Bool} {disk disk' : Bytes}
    {chunk : Int} {turns : List RdwtTurn}
    (h : rdwtDisk user buf isRead disk chunk turns = .ok disk') :
    ∀ t ∈ turns, 0 ≤ t.bytes ∧ 0 ≤ t.off := by
  unfold rdwtDisk at h
  split_ifs at h
  · obtain ⟨u, h, -⟩ := bind_eq_ok.1 h
    exact readTurns_ok h
  · exact writeTurns_ok h

theorem rdwtAdvance_ok {d p : Entry} {bytesRw r : Int}
    (h : rdwtAdvance fs d p bytesRw = .ok (r, fs')) : r = bytesRw ∧ fs'.filp = fs.filp := by
  unfold rdwtAdvance at h
  dsimp only at h
  split_ifs at h
  · obtain ⟨fs₁, hsync, h⟩ := bind_eq_ok.1 h
    obtain ⟨disk, rfl⟩ := syncInode_ok hsync
    obtain ⟨rfl, rfl⟩ := Prod.mk.inj (Except.ok.inj h)
    exact ⟨rfl, rfl⟩
  · obtain ⟨rfl, rfl⟩ := Prod.mk.inj (Except.ok.inj h)
    exact ⟨rfl, rfl⟩

/-- What is moved is at least nothing, and nothing is opened. -/
theorem rdwtFile_ok {user : Addr → Byte} {isRead : Bool} {msg : Message} {d p : Entry} {r : Int}
    (h : rdwtFile user fs isRead msg d p = .ok (r, fs')) : 0 ≤ r ∧ fs'.filp = fs.filp := by
  unfold rdwtFile at h
  rw [assert_bind_eq_ok] at h
  obtain ⟨disk, hdisk, h⟩ := bind_eq_ok.1 h.2
  obtain ⟨rfl, hfilp⟩ := rdwtAdvance_ok h
  refine ⟨List.sum_nonneg fun b hm => ?_, hfilp⟩
  obtain ⟨t, ht, rfl⟩ := List.mem_map.1 hm
  exact (rdwtDisk_ok hdisk t ht).1

theorem doRdwt_failed {user : Addr → Byte} {pcaller : Slot} {isRead : Bool} {msg : Message}
    (h : doRdwt user fs pcaller isRead msg = .ok (-1, fs')) : fs' = fs := by
  unfold doRdwt at h
  obtain ⟨desc, -, h⟩ := bind_eq_ok.1 h
  cases desc with
  | none => exact (Prod.mk.inj (Except.ok.inj h)).2.symm
  | some di =>
    dsimp only at h
    split_ifs at h with hchar
    · rw [assert_bind_eq_ok] at h
      exact (Prod.mk.inj (Except.ok.inj h.2)).2.symm
    · have := (rdwtFile_ok h).1
      omega

/-! ## close and unlink -/

theorem doClose_ok {pcaller : Slot} {msg : Message} {r : Int}
    (h : doClose fs pcaller msg = .ok (r, fs')) : r = 0 := by
  unfold doClose at h
  obtain ⟨⟨fd, d⟩, -, h⟩ := bind_eq_ok.1 h
  cases d with
  | none => exact nomatch h
  | some d =>
    dsimp only at h
    split at h
    · exact nomatch h
    · obtain ⟨fs₁, -, h⟩ := bind_eq_ok.1 h
      exact (Prod.mk.inj (Except.ok.inj h)).1.symm

/-- `do_unlink`: refused at once, refused after the inode has been got, or done. -/
inductive Unlinked (fs : Fs) (path : List Byte) : Int → Fs → Prop
  | absent : path = [slash] ∨ searchFile fs path = invalidInode → Unlinked fs path (-1) fs
  | kept {fs₁ : Fs} (p : Entry) : path ≠ [slash] → searchFile fs path ≠ invalidInode →
    GotInode fs (searchFile fs path).toInt (some p) fs₁ →
    (fs₁.inodeTable p).iMode ≠ iRegular ∨ 1 < (fs₁.inodeTable p).iCnt → Unlinked fs path (-1) fs₁
  | removed {fs₁ fs₂ : Fs} (p : Entry) : path ≠ [slash] → searchFile fs path ≠ invalidInode →
    GotInode fs (searchFile fs path).toInt (some p) fs₁ → (fs₁.inodeTable p).iMode = iRegular →
    (fs₁.inodeTable p).iCnt ≤ 1 → removeFile fs₁ p (searchFile fs path) = .ok fs₂ →
    Unlinked fs path 0 fs₂

theorem doUnlink_ok {user : Addr → Byte} {msg : Message} {r : Int}
    (h : doUnlink user fs msg = .ok (r, fs')) :
    ∃ path, getPath user msg = .ok path ∧ Unlinked fs path r fs' := by
  unfold doUnlink at h
  obtain ⟨path, hpath, h⟩ := bind_eq_ok.1 h
  refine ⟨path, hpath, ?_⟩
  by_cases hroot : path = [slash]
  · rw [if_pos hroot] at h
    obtain ⟨rfl, rfl⟩ := Prod.mk.inj (Except.ok.inj h)
    exact .absent (.inl hroot)
  rw [if_neg hroot] at h
  dsimp only at h
  by_cases hnr : searchFile fs path = invalidInode
  · rw [if_pos hnr] at h
    obtain ⟨rfl, rfl⟩ := Prod.mk.inj (Except.ok.inj h)
    exact .absent (.inr hnr)
  rw [if_neg hnr] at h
  split at h
  · rename_i hstrip
    exact absurd (show searchFile fs path = 0 by simp [searchFile, hstrip]) hnr
  obtain ⟨⟨pin, fs₁⟩, hget, h⟩ := bind_eq_ok.1 h
  have hgot := getInode_ok hget
  cases pin with
  | none => exact nomatch h
  | some pin =>
    dsimp only at h
    split_ifs at h with hmode hcnt
    · obtain ⟨rfl, rfl⟩ := Prod.mk.inj (Except.ok.inj h)
      exact .kept pin hroot hnr hgot (.inl hmode)
    · obtain ⟨rfl, rfl⟩ := Prod.mk.inj (Except.ok.inj h)
      exact .kept pin hroot hnr hgot (.inr hcnt)
    · obtain ⟨fs₂, hrem, h⟩ := bind_eq_ok.1 h
      obtain ⟨rfl, rfl⟩ := Prod.mk.inj (Except.ok.inj h)
      exact .removed pin hroot hnr hgot (not_not.1 hmode) (not_lt.1 hcnt) hrem

/-! ## fork and exit -/

/-- What `fs_fork` does with one entry of the child: its descriptor, if it has one, and the inode
of that are counted once more. -/
inductive FilpForked (fs : Fs) (child : Slot) (i : Entry) : Fs → Prop
  | unused : fs.filp child i = none → FilpForked fs child i fs
  | counted (d p : Entry) : fs.filp child i = some d → (fs.fDescTable d).fdInode = some p →
    FilpForked fs child i ((fs.setDesc d fun x => { x with fdCnt := x.fdCnt + 1 }).setInode p
      fun x => { x with iCnt := x.iCnt + 1 })

theorem forkFilp_forked {child : Slot} {i : Entry} (h : forkFilp child fs i = .ok fs') :
    FilpForked fs child i fs' := by
  unfold forkFilp at h
  split at h
  · rename_i hnone
    obtain rfl := Except.ok.inj h
    exact .unused hnone
  rename_i d hd
  split at h
  · exact nomatch h
  rename_i p hp
  obtain rfl := Except.ok.inj h
  exact .counted d p hd hp

/-- What `fs_exit` does with one entry of the process: its descriptor, if it has one, and the inode
of that are counted once less. -/
inductive FilpExited (fs : Fs) (pid : Slot) (i : Entry) : Fs → Prop
  | unused : fs.filp pid i = none → FilpExited fs pid i fs
  | dropped (d p : Entry) : fs.filp pid i = some d → (fs.fDescTable d).fdInode = some p →
    FilpExited fs pid i (((fs.setInode p fun x => { x with iCnt := x.iCnt - 1 }).setDesc d fun x =>
      { x with
        fdCnt := x.fdCnt - 1
        fdInode := if x.fdCnt - 1 = 0 then none else x.fdInode }).setFilp pid i none)

theorem exitFilp_exited {pid : Slot} {i : Entry} (h : exitFilp pid fs i = .ok fs') :
    FilpExited fs pid i fs' := by
  unfold exitFilp at h
  split at h
  · rename_i hnone
    obtain rfl := Except.ok.inj h
    exact .unused hnone
  rename_i d hd
  split at h
  · exact nomatch h
  rename_i p hp
  obtain rfl := Except.ok.inj h
  exact .dropped d p hd hp

end MyOS
