import MyOS.Proofs.FsInv
import MyOS.Fs.World

/-!
# What a request keeps

Each part of a request that changes the tables or the disk keeps what holds between requests, but
for the inode it has in hand.
-/

namespace MyOS

open Memory Block RefTable

variable {tight : Prop} {fs fs' fs₁ : Fs} {disk' : Bytes} {p : Entry} {num : Int}

/-! ## Inodes got and put back -/

theorem GotInode.sb {r : Option Entry} (h : GotInode fs num r fs') :
    fs'.sb = fs.sb ∧ fs'.rootInode = fs.rootInode ∧ fs'.disk = fs.disk := by
  cases h <;> exact ⟨rfl, rfl, rfl⟩

theorem Fs.setInode_setInode (fs : Fs) (p : Entry) (f g : Inode → Inode) :
    (fs.setInode p f).setInode p g = fs.setInode p fun x => g (f x) := by
  unfold Fs.setInode
  simp

namespace FsGood

variable {held : Entry → ℕ}

theorem got {n : ℕ} (h : FsGood tight noneHeld fs) (hn : Allocated fs.disk n) (hnum : num = n)
    (hgot : GotInode fs num (some p) fs') : FsGood tight (one p) fs' := by
  subst hnum
  have hother (q : Entry) (hq : q ≠ p) : fs.extra (one p) q ≤ fs.extra noneHeld q := by
    rw [extra_one, if_neg hq, Nat.add_zero]
  have hself : fs.extra (one p) p = fs.extra noneHeld p + 1 := by
    rw [extra_one, if_pos rfl]
  cases hgot with
  | hit _ hnum hcnt hp =>
    refine ⟨h.layout, counted_setInode h.refs ?_ hother, h.cache.setCnt fun _ => hcnt, h.disk⟩
    simp only [setInode_extra]
    omega
  | miss _ hnum hnone hzero hoff =>
    have hroot : p ≠ fs.rootInode := fun he => h.rootCnt (he ▸ hzero)
    refine ⟨h.layout, counted_setInode h.refs ?_ hother, ?_, h.disk⟩
    · simp only [setInode_extra]
      omega
    · refine h.cache.change (p := p) (n := n) (fun q hq => ?_) rfl rfl ?_ hn ?_
        (fun _ _ _ => ⟨rfl, rfl⟩) (fun q _ hq => hnone q hq) (fun he => absurd he hroot)
      · rw [Fs.setInode_inodeTable, if_neg hq]
      · rw [Fs.setInode_inodeTable, if_pos rfl]
      · rw [Fs.setInode_inodeTable, if_pos rfl, Fs.setInode_disk,
          readInode_rdSect h.layout hn.1 hn.2.1.le]

/-- An inode that is put back is counted as before; one that was read for this is free again. -/
theorem gotAndPut (h : FsGood tight noneHeld fs) (hgot : GotInode fs num (some p) fs₁) :
    FsGood tight noneHeld (fs₁.setInode p fun x => { x with iCnt := x.iCnt - 1 }) := by
  cases hgot with
  | hit _ hnum hcnt hp =>
    rw [Fs.setInode_setInode]
    refine ⟨h.layout, counted_setInode h.refs ?_ fun q _ => le_rfl,
      h.cache.setCnt (c := fun x => x.iCnt + 1 - 1) fun _ => hcnt, h.disk⟩
    simp only [setInode_extra]
    omega
  | miss _ hnum hnone hzero hoff =>
    have hroot : fs.rootInode ≠ p := fun he => h.rootCnt (he ▸ hzero)
    rw [Fs.setInode_setInode]
    refine ⟨h.layout, counted_setInode h.refs ?_ fun q _ => le_rfl,
      h.cache.slots rfl rfl ?_ fun q hq => ?_, h.disk⟩
    · simp only [setInode_extra]
      omega
    · rw [Fs.setInode_rootInode, Fs.setInode_inodeTable, if_neg hroot]
      exact h.cache.root
    · rw [Fs.setInode_inodeTable] at hq ⊢
      split_ifs at hq ⊢ with hqp
      · exact absurd rfl hq
      · exact ⟨hq, rfl, rfl⟩

/-! ## Descriptors -/

/-- Entries of `filp` and descriptors change; what the disk and the inodes are does not. -/
theorem withRefs {held' : Entry → ℕ} (h : FsGood tight held fs) (hdisk : fs'.disk = fs.disk)
    (hsb : fs'.sb = fs.sb) (hroot : fs'.rootInode = fs.rootInode)
    (hslot : ∀ q, (fs'.inodeTable q).iNum = (fs.inodeTable q).iNum ∧
      (fs'.inodeTable q).toDiskInode = (fs.inodeTable q).toDiskInode ∧
      ((fs'.inodeTable q).iCnt ≠ 0 → (fs.inodeTable q).iCnt ≠ 0))
    (hrefs : Counted fs'.table (fs.extra held')) : FsGood tight held' fs' where
  layout := hsb ▸ h.layout
  refs := by
    have hextra : fs'.extra held' = fs.extra held' := by
      unfold Fs.extra
      rw [hroot]
    rwa [hextra]
  cache := h.cache.slots hdisk hsb (by rw [hroot, (hslot _).1, h.cache.root]) fun q hq =>
    ⟨(hslot q).2.2 hq, (hslot q).1, (hslot q).2.1⟩
  disk := by
    rw [hdisk, hsb]
    exact h.disk

/-- `do_open` connects the inode it has in hand. -/
theorem connect {c : Slot} {fd d : Entry} {flags : BitVec 32} (h : FsGood tight (one p) fs)
    (hfd : fs.filp c fd = none) (hd : (fs.fDescTable d).fdInode = none) :
    FsGood tight noneHeld ((fs.setFilp c fd (some d)).setDesc d fun _ =>
      { fdMode := flags, fdPos := 0, fdCnt := 1, fdInode := some p }) := by
  refine h.withRefs rfl rfl rfl (fun q => ⟨rfl, rfl, id⟩) ?_
  have hc := h.refs.connect (i := (c, fd)) (d := d) (q := p) hfd hd (extra_one fs p)
  have htable : ((fs.setFilp c fd (some d)).setDesc d fun _ =>
      { fdMode := flags, fdPos := 0, fdCnt := 1, fdInode := some p }).table =
      { fs.table with
        ref := Function.update fs.table.ref (c, fd) (some d)
        cnt := Function.update fs.table.cnt d 1
        obj := Function.update fs.table.obj d (some p) } :=
    Table.ext (setFilp_ref ..) (setDesc_cnt ..) (setDesc_obj ..) rfl
  rwa [htable]

/-- A descriptor is dropped, by `do_close` or `fs_exit`: the file system with one entry of `filp`
empty, and the counts one less. -/
def dropped (fs : Fs) (c : Slot) (fd d p : Entry) : Fs :=
  ((fs.setInode p fun x => { x with iCnt := x.iCnt - 1 }).setDesc d fun x =>
    { x with fdCnt := x.fdCnt - 1, fdInode := if x.fdCnt - 1 = 0 then none else x.fdInode }).setFilp
      c fd none

theorem drop {c : Slot} {fd d : Entry} (h : FsGood tight held fs) (hfd : fs.filp c fd = some d)
    (hd : (fs.fDescTable d).fdInode = some p) : FsGood tight held (dropped fs c fd d p) := by
  have hcnt : 0 < (fs.inodeTable p).iCnt := h.refs.objCnt_pos hd
  refine h.withRefs rfl rfl rfl (fun q => ?_) ?_
  · have hslot : (dropped fs c fd d p).inodeTable q =
        (fs.setInode p fun x => { x with iCnt := x.iCnt - 1 }).inodeTable q := rfl
    rw [hslot, Fs.setInode_inodeTable]
    split_ifs with hq
    · rw [hq]
      exact ⟨rfl, rfl, fun _ => by omega⟩
    · exact ⟨rfl, rfl, id⟩
  have htable : (dropped fs c fd d p).table =
      { fs.table with
        ref := Function.update fs.table.ref (c, fd) none
        cnt := Function.update fs.table.cnt d (fs.table.cnt d - 1)
        obj := Function.update fs.table.obj d
          (if fs.table.cnt d - 1 = 0 then none else fs.table.obj d)
        objCnt := Function.update fs.table.objCnt p (fs.table.objCnt p - 1) } := by
    refine Table.ext (setFilp_ref ..) (funext fun e => ?_) (funext fun e => ?_) (funext fun q => ?_)
    · by_cases he : e = d <;> simp [dropped, Fs.table, Fs.setFilp, Fs.setDesc, Fs.setInode, he]
    · by_cases he : e = d
      · simp [dropped, Fs.table, Fs.setFilp, Fs.setDesc, Fs.setInode, he]
        rfl
      · simp [dropped, Fs.table, Fs.setFilp, Fs.setDesc, Fs.setInode, he]
    · by_cases hq : q = p <;> simp [dropped, Fs.table, Fs.setFilp, Fs.setDesc, Fs.setInode, hq]
  rw [htable]
  exact h.refs.drop (i := (c, fd)) hfd hd

/-- The file system with the entries of a list of `c` hidden. -/
def hidden (fs : Fs) (c : Slot) (l : List Entry) : Fs :=
  { fs with filp := fun c' fd => if c' = c ∧ fd ∈ l then none else fs.filp c' fd }

/-- `fs_fork` counts the next entry of the child. -/
theorem share {c : Slot} {i : Entry} {l : List Entry} (h : FsGood tight held (hidden fs c (i :: l)))
    (hi : i ∉ l) (hs : forkFilp c fs i = .ok fs') : FsGood tight held (hidden fs' c l) := by
  have hshow (c' : Slot) (fd : Entry) (hne : (c', fd) ≠ (c, i)) :
      (if c' = c ∧ fd ∈ l then none else fs.filp c' fd) =
        if c' = c ∧ fd ∈ i :: l then none else fs.filp c' fd := by
    have hiff : c' = c ∧ fd ∈ l ↔ c' = c ∧ fd ∈ i :: l := by
      refine and_congr_right fun hc => ?_
      rw [List.mem_cons, or_iff_right]
      rintro rfl
      exact hne (hc ▸ rfl)
    simp only [hiff]
  cases forkFilp_forked hs with
  | unused hnone =>
    have hsame : hidden fs c l = hidden fs c (i :: l) := by
      unfold hidden
      congr 1
      funext c' fd
      rcases eq_or_ne (c', fd) (c, i) with he | hne
      · obtain ⟨rfl, rfl⟩ := Prod.mk.inj he
        simp [hnone]
      · exact hshow c' fd hne
    rwa [hsame]
  | counted d p hd hp =>
    have hfree : (hidden fs c (i :: l)).table.ref (c, i) = none := if_pos ⟨rfl, List.mem_cons_self⟩
    have hobj : (hidden fs c (i :: l)).table.obj d = some p := hp
    have hcnt : 0 < (fs.inodeTable p).iCnt := h.refs.objCnt_pos hobj
    refine h.withRefs rfl rfl rfl (fun q => ?_) ?_
    · have hslot : (hidden ((fs.setDesc d fun x => { x with fdCnt := x.fdCnt + 1 }).setInode p
          fun x => { x with iCnt := x.iCnt + 1 }) c l).inodeTable q =
          (fs.setInode p fun x => { x with iCnt := x.iCnt + 1 }).inodeTable q := rfl
      have hsame : (hidden fs c (i :: l)).inodeTable q = fs.inodeTable q := rfl
      rw [hslot, hsame, Fs.setInode_inodeTable]
      split_ifs with hq
      · rw [hq]
        exact ⟨rfl, rfl, fun _ => by omega⟩
      · exact ⟨rfl, rfl, id⟩
    have htable : (hidden ((fs.setDesc d fun x => { x with fdCnt := x.fdCnt + 1 }).setInode p
        fun x => { x with iCnt := x.iCnt + 1 }) c l).table =
        { (hidden fs c (i :: l)).table with
          ref := Function.update (hidden fs c (i :: l)).table.ref (c, i) (some d)
          cnt := Function.update fs.table.cnt d (fs.table.cnt d + 1)
          objCnt := Function.update fs.table.objCnt p (fs.table.objCnt p + 1) } := by
      refine Table.ext (funext fun x => ?_) (funext fun e => ?_) (funext fun e => ?_)
        (funext fun q => ?_)
      · obtain ⟨c', fd⟩ := x
        change (if c' = c ∧ fd ∈ l then none else fs.filp c' fd) =
          Function.update (hidden fs c (i :: l)).table.ref (c, i) (some d) (c', fd)
        rcases eq_or_ne (c', fd) (c, i) with he | hne
        · obtain ⟨rfl, rfl⟩ := Prod.mk.inj he
          rw [Function.update_self, if_neg fun hl => hi hl.2, hd]
        · rw [Function.update_of_ne hne]
          exact hshow c' fd hne
      · by_cases he : e = d <;> simp [hidden, Fs.table, Fs.setDesc, Fs.setInode, he]
      · by_cases he : e = d <;> simp [hidden, Fs.table, Fs.setDesc, Fs.setInode, he]
      · by_cases hq : q = p <;> simp [hidden, Fs.table, Fs.setDesc, Fs.setInode, hq]
    rw [htable]
    exact h.refs.share hfree hobj

end FsGood

end MyOS
