import MyOS.Lib.ByteFile
import MyOS.Proofs.RdwtTurns
import MyOS.Proofs.FsRuns
import Mathlib.Data.List.ReduceOption

/-!
# A file is an array of bytes

A `WRITE` that fits into the sectors of a file replaces the bytes at the position of its descriptor,
and a `READ` of bytes the file has gives what was last written there. At the end of the file the
turns of a `READ` still go up to the end of a sector: it moves more than the file has, and then the
file has grown.
-/

namespace MyOS

open Memory Block

variable {fs fs' : Fs} {n : ℕ} {user : Addr → Byte} {caller : Slot} {msg : Message} {d p : Entry}

/-! ## A file -/

/-- Inode `n` is that of a regular file behind the inodes; entries of the table that are in use for
it are as on the disk. -/
structure FileAt (fs : Fs) (n : ℕ) : Prop where
  layout : Layout fs.sb
  pos : 1 ≤ n
  le : n ≤ 4096
  mode : (diskInode fs.sb fs.disk n).iMode = iRegular
  behind : fs.sb.n1stSect ≤ (diskInode fs.sb fs.disk n).iStartSect.toNat
  cached : ∀ p, (fs.inodeTable p).iCnt ≠ 0 → (fs.inodeTable p).iNum = n →
    (fs.inodeTable p).toDiskInode = diskInode fs.sb fs.disk n
  once : ∀ p q, (fs.inodeTable p).iCnt ≠ 0 → (fs.inodeTable q).iCnt ≠ 0 →
    (fs.inodeTable p).iNum = n → (fs.inodeTable q).iNum = n → p = q

/-- Descriptor `fd` of a process is an `O_RDWR` one of file `n`. -/
structure OpenFor (fs : Fs) (caller : Slot) (fd : BitVec 32) (n : ℕ) (d p : Entry) : Prop where
  desc : rdwtDesc fs caller fd = .ok (some (d, p))
  used : (fs.inodeTable p).iCnt ≠ 0
  num : (fs.inodeTable p).iNum = n

/-- A regular file that is open, where what holds between requests does. -/
theorem FsGood.fileAt {held : Entry → ℕ} (h : FsGood False held fs)
    (hp : (fs.inodeTable p).iCnt ≠ 0) (hmode : (fs.inodeTable p).iMode = iRegular) :
    FileAt fs (fs.inodeTable p).iNum.toNat := by
  obtain ⟨n, hnum, hn⟩ := h.cache.num p hp
  have hcoh := h.cache.coherent p hp
  rw [hnum, Int.toNat_natCast] at hcoh ⊢
  have hsects : (diskInode fs.sb fs.disk n).HasSects := by
    rw [← hcoh]
    exact .inl (by rw [hmode]; decide)
  refine ⟨h.layout, hn.1, hn.2.1.le, by rw [← hcoh, hmode], (h.disk.inside n hn hsects).1,
    fun q hq hqn => ?_, fun q q' hq hq' hqn hqn' =>
      h.cache.unique q q' hq hq' (hqn.trans hqn'.symm)⟩
  have := h.cache.coherent q hq
  rwa [hqn, Int.toNat_natCast] at this

/-! ## The size on the disk -/

theorem readInode_bytes {f g : Bytes} {a : ℕ} (h : readInode f a = readInode g a) {i : ℕ}
    (hi : i < 16) : f (a + i) = g (a + i) := by
  simp only [readInode, DiskInode.mk.injEq] at h
  obtain ⟨h0, h4, h8, h12⟩ := h
  have hbyte (k : ℕ) (hk : word f (a + k) = word g (a + k)) (hin : k ≤ i ∧ i < k + 4) :
      f (a + i) = g (a + i) := by
    have := byteOf_word f (a + k) (show i - k < 4 by omega)
    rw [hk, byteOf_word g (a + k) (by omega)] at this
    rw [show a + i = a + k + (i - k) by omega, this]
  rcases Nat.lt_or_ge i 4 with hlt | hge
  · exact hbyte 0 h0 (by omega)
  rcases Nat.lt_or_ge i 8 with hlt | hge
  · exact hbyte 4 h4 (by omega)
  rcases Nat.lt_or_ge i 12 with hlt | hge
  · exact hbyte 8 h8 (by omega)
  · exact hbyte 12 h12 (by omega)

theorem readInode_putSize (f : Bytes) (a : ℕ) (size : BitVec 32) :
    readInode (putWord f (a + 4) size) a = { readInode f a with iSize := size } := by
  unfold readInode
  rw [word_putWord, word_putWord_of_apart _ _ (by omega), word_putWord_of_apart _ _ (by omega),
    word_putWord_of_apart _ _ (by omega)]

/-- An inode that differs from that on the disk in its size is written back. -/
theorem syncInode_size {size : BitVec 32} (hL : Layout fs.sb) (hn : 1 ≤ n) (hn' : n ≤ 4096)
    (hnum : (fs.inodeTable p).iNum = n)
    (hinode : (fs.inodeTable p).toDiskInode = { diskInode fs.sb fs.disk n with iSize := size }) :
    syncInode fs p = .ok { fs with disk := putWord fs.disk (inodePos fs.sb n + 4) size } := by
  obtain ⟨fs', hs⟩ : ∃ fs', syncInode fs p = .ok fs' := by
    unfold syncInode
    dsimp only
    rw [hnum, inodeOff_eq hn, if_neg (by omega)]
    exact ⟨_, rfl⟩
  obtain ⟨disk', rfl, hdisk, hframe⟩ := syncInode_inode hL hnum hn hn' hs
  have hsame : disk' = putWord fs.disk (inodePos fs.sb n + 4) size := by
    have hread : readInode disk' (inodePos fs.sb n) =
        readInode (putWord fs.disk (inodePos fs.sb n + 4) size) (inodePos fs.sb n) := by
      rw [readInode_putSize]
      exact hdisk.trans hinode
    funext y
    by_cases hy : inodePos fs.sb n ≤ y ∧ y < inodePos fs.sb n + 16
    · obtain ⟨i, rfl⟩ := Nat.exists_eq_add_of_le hy.1
      exact readInode_bytes hread (by omega)
    · rw [hframe y (by omega), putWord_outside (by omega)]
  rw [hs, hsame]

/-! ## A request -/

/-- The caller's memory after a request for a file, through descriptor `d` and inode `p`. -/
def rdwtUser (user : Addr → Byte) (fs : Fs) (isRead : Bool) (msg : Message) (d p : Entry) :
    Addr → Byte :=
  if isRead then
    readTo msg.buf fs.disk
      (rdwtTurns (fs.inodeTable p).toDiskInode true (fs.fDescTable d).fdPos msg.cnt).2 user
  else user

/-- A descriptor moves on by `len` bytes. -/
def Fs.advance (fs : Fs) (d : Entry) (len : BitVec 32) : Fs :=
  fs.setDesc d fun x => { x with fdPos := x.fdPos + len }

/-- The `len` bytes of file `n` at the position of `d` are replaced, and its size is at least where
they end. -/
def Fs.wrote (fs : Fs) (d p : Entry) (n : ℕ) (len : BitVec 32) (bytes : Bytes) : Fs :=
  let pos := (fs.fDescTable d).fdPos.toNat
  let x := diskInode fs.sb fs.disk n
  let size := BitVec.ofNat 32 (max x.iSize.toNat (pos + len.toNat))
  { (fs.advance d len).setInode p fun x => { x with iSize := size } with
    disk := putWord (blit fs.disk (512 * x.iStartSect.toNat + pos) len.toNat bytes)
      (inodePos fs.sb n + 4) size }

/-- A `READ` stays within the file, a `WRITE` within its sectors; and the products of the code with
the size of a sector fit into 32 bits. -/
structure InRange (fs : Fs) (n : ℕ) (d : Entry) (isRead : Bool) (len : BitVec 32) : Prop where
  fits : (fs.fDescTable d).fdPos.toNat + len.toNat ≤
    if isRead then (diskInode fs.sb fs.disk n).iSize.toNat
    else (diskInode fs.sb fs.disk n).iNrSects.toNat * 512
  reach : (diskInode fs.sb fs.disk n).iStartSect.toNat +
    ((fs.fDescTable d).fdPos.toNat + len.toNat) / 512 < 2 ^ 22
  room : isRead = false → (diskInode fs.sb fs.disk n).iNrSects.toNat < 2 ^ 23

theorem OpenFor.doRdwt (ho : OpenFor fs caller msg.fd n d p) (h : FileAt fs n) (isRead : Bool) :
    doRdwt user fs caller isRead msg = rdwtFile user fs isRead msg d p := by
  have hmode : (fs.inodeTable p).iMode = iRegular := by rw [h.cached p ho.used ho.num, h.mode]
  unfold MyOS.doRdwt
  rw [ho.desc, ok_bind]
  dsimp only
  rw [if_neg (by rw [hmode]; decide)]

theorem rdwtFile_eq {isRead : Bool} {disk : Bytes} (hmode : (fs.inodeTable p).iMode = iRegular)
    (hdisk : rdwtDisk user msg.buf isRead fs.disk
      (rdwtTurns (fs.inodeTable p).toDiskInode isRead (fs.fDescTable d).fdPos msg.cnt).1
      (rdwtTurns (fs.inodeTable p).toDiskInode isRead (fs.fDescTable d).fdPos msg.cnt).2 =
        .ok disk) :
    rdwtFile user fs isRead msg d p = rdwtAdvance { fs with disk } d p
      (moved (rdwtTurns (fs.inodeTable p).toDiskInode isRead (fs.fDescTable d).fdPos
        msg.cnt).2) := by
  have hkind : (fs.inodeTable p).iMode = iRegular ∨ (fs.inodeTable p).iMode = iDirectory :=
    .inl hmode
  dsimp only [rdwtFile]
  rw [assert_of hkind, ok_bind, hdisk, ok_bind]
  rfl

theorem rdwtAdvance_stay {len : BitVec 32}
    (h : (fs.fDescTable d).fdPos.toNat + len.toNat ≤ (fs.inodeTable p).iSize.toNat) :
    rdwtAdvance fs d p len.toNat = .ok (len.toNat, fs.advance d len) := by
  have hof : BitVec.ofInt 32 (len.toNat : Int) = len := by
    rw [BitVec.ofInt_natCast, BitVec.ofNat_toNat, BitVec.setWidth_eq]
  have hsum : ((fs.fDescTable d).fdPos + len).toNat =
      (fs.fDescTable d).fdPos.toNat + len.toNat := by
    rw [BitVec.toNat_add, Nat.mod_eq_of_lt (by omega)]
  unfold rdwtAdvance
  dsimp only
  rw [hof]
  refine if_neg ?_
  change ¬ (fs.inodeTable p).iSize.toNat < _
  rw [hsum]
  omega

theorem rdwtAdvance_grow {len : BitVec 32} (hL : Layout fs.sb) (hn : 1 ≤ n) (hn' : n ≤ 4096)
    (hnum : (fs.inodeTable p).iNum = n)
    (hinode : (fs.inodeTable p).toDiskInode = diskInode fs.sb fs.disk n)
    (hsum : ((fs.fDescTable d).fdPos + len).toNat = (fs.fDescTable d).fdPos.toNat + len.toNat)
    (h : (fs.inodeTable p).iSize.toNat < (fs.fDescTable d).fdPos.toNat + len.toNat) :
    rdwtAdvance fs d p len.toNat = .ok (len.toNat,
      { (fs.advance d len).setInode p fun x =>
          { x with iSize := (fs.fDescTable d).fdPos + len } with
        disk := putWord fs.disk (inodePos fs.sb n + 4) ((fs.fDescTable d).fdPos + len) }) := by
  have hof : BitVec.ofInt 32 (len.toNat : Int) = len := by
    rw [BitVec.ofInt_natCast, BitVec.ofNat_toNat, BitVec.setWidth_eq]
  generalize hpos : (fs.fDescTable d).fdPos + len = fdPos at hsum
  generalize hgs : ((fs.advance d len).setInode p fun x => { x with iSize := fdPos }) = gs
  have hself : gs.inodeTable p = { fs.inodeTable p with iSize := fdPos } := by
    rw [← hgs, Fs.setInode_inodeTable, if_pos rfl]
    rfl
  have hsb : gs.sb = fs.sb := hgs ▸ rfl
  have hdisk : gs.disk = fs.disk := hgs ▸ rfl
  have hsize : (gs.inodeTable p).toDiskInode =
      { diskInode gs.sb gs.disk n with iSize := fdPos } := by
    rw [hself, hsb, hdisk, ← hinode]
  have hsync := syncInode_size (hsb ▸ hL) hn hn' (by rw [hself]; exact hnum) hsize
  rw [hsb, hdisk] at hsync
  unfold rdwtAdvance
  dsimp only
  rw [hof, hpos]
  refine (if_pos ?_).trans ?_
  · change (fs.inodeTable p).iSize.toNat < _
    rw [hsum]
    exact h
  · subst hpos
    change (syncInode ((fs.advance d len).setInode p _) p >>= _) = _
    rw [hgs, hsync, ok_bind, hsb]

/-- The turns of a request that is in range move all of it. -/
theorem InRange.turns {isRead : Bool} {len : BitVec 32} (hin : InRange fs n d isRead len) :
    len.toNat < 2 ^ 31 ∧
    Tiles (512 * (diskInode fs.sb fs.disk n).iStartSect.toNat + (fs.fDescTable d).fdPos.toNat)
      (rdwtTurns (diskInode fs.sb fs.disk n) isRead (fs.fDescTable d).fdPos len).1 0
      (rdwtTurns (diskInode fs.sb fs.disk n) isRead (fs.fDescTable d).fdPos len).2 ∧
    moved (rdwtTurns (diskInode fs.sb fs.disk n) isRead (fs.fDescTable d).fdPos len).2 =
      len.toNat := by
  have hreach := hin.reach
  have hfits := hin.fits
  have hend : (rdwtEnd (diskInode fs.sb fs.disk n) isRead (fs.fDescTable d).fdPos len).toNat =
      (fs.fDescTable d).fdPos.toNat + len.toNat := by
    cases isRead with
    | true =>
      rw [if_pos rfl] at hfits
      rw [rdwtEnd_read (by omega), min_eq_left hfits]
    | false =>
      rw [if_neg Bool.false_ne_true] at hfits
      rw [rdwtEnd_write (by omega) (hin.room rfl), min_eq_left hfits]
  have hlt : len.toNat < 2 ^ 31 := by omega
  obtain ⟨htiles, room, hgt, hmoved⟩ := rdwtTurns_tiles hlt (by omega)
    (show (diskInode fs.sb fs.disk n).iStartSect.toNat + (rdwtEnd (diskInode fs.sb fs.disk n) isRead
      (fs.fDescTable d).fdPos len).toNat / 512 < 2 ^ 22 by rw [hend]; exact hreach)
  rw [hend] at hgt
  refine ⟨hlt, htiles, hmoved.trans (min_eq_left ?_)⟩
  omega

namespace FileAt

/-- What is written to a file leaves the inodes as they are. -/
theorem blit_inode (h : FileAt fs n) (pos len : ℕ) (bytes : Bytes) :
    diskInode fs.sb
        (blit fs.disk (512 * (diskInode fs.sb fs.disk n).iStartSect.toNat + pos) len bytes)
      n = diskInode fs.sb fs.disk n := by
  have hpos := inodePos_bounds h.layout h.pos h.le
  have hbehind := h.behind
  exact diskInode_congr fun y hy hy' => blit_outside (.inl (by omega))

/-- A `WRITE` that is in range. -/
theorem write (h : FileAt fs n) (ho : OpenFor fs caller msg.fd n d p)
    (hin : InRange fs n d false msg.cnt) :
    doRdwt user fs caller false msg = .ok (msg.cnt.toInt,
      fs.wrote d p n msg.cnt fun i => user (msg.buf + BitVec.ofNat 32 i)) := by
  have hx := h.cached p ho.used ho.num
  have hmode : (fs.inodeTable p).iMode = iRegular := by rw [hx, h.mode]
  obtain ⟨hlt, htiles, hmoved⟩ := hin.turns
  have hdisk : rdwtDisk user msg.buf false fs.disk
      (rdwtTurns (diskInode fs.sb fs.disk n) false (fs.fDescTable d).fdPos msg.cnt).1
      (rdwtTurns (diskInode fs.sb fs.disk n) false (fs.fDescTable d).fdPos msg.cnt).2 =
      .ok (blit fs.disk
        (512 * (diskInode fs.sb fs.disk n).iStartSect.toNat + (fs.fDescTable d).fdPos.toNat)
        msg.cnt.toNat fun i => user (msg.buf + BitVec.ofNat 32 i)) := by
    refine (if_neg Bool.false_ne_true).trans ((htiles.writes user msg.buf fs.disk).trans ?_)
    simp only [hmoved, Int.toNat_natCast, Nat.add_zero, Nat.zero_add]
  rw [← hx] at hdisk hmoved
  rw [ho.doRdwt h, rdwtFile_eq hmode hdisk, hmoved, hx, BitVec.toInt_eq_toNat_of_lt (by omega)]
  have hsum : ((fs.fDescTable d).fdPos + msg.cnt).toNat =
      (fs.fDescTable d).fdPos.toNat + msg.cnt.toNat := by
    have hreach := hin.reach
    rw [BitVec.toNat_add, Nat.mod_eq_of_lt (by omega)]
  generalize hbytes : (fun i => user (msg.buf + BitVec.ofNat 32 i)) = bytes
  have hkept := h.blit_inode (fs.fDescTable d).fdPos.toNat msg.cnt.toNat bytes
  generalize hblit : blit fs.disk
    (512 * (diskInode fs.sb fs.disk n).iStartSect.toNat + (fs.fDescTable d).fdPos.toNat)
    msg.cnt.toNat bytes = disk at hkept
  have hsize : (fs.inodeTable p).iSize = (diskInode fs.sb fs.disk n).iSize := by rw [hx]
  by_cases hgrow : (diskInode fs.sb fs.disk n).iSize.toNat <
      (fs.fDescTable d).fdPos.toNat + msg.cnt.toNat
  · have hnew : BitVec.ofNat 32 (max (diskInode fs.sb fs.disk n).iSize.toNat
        ((fs.fDescTable d).fdPos.toNat + msg.cnt.toNat)) = (fs.fDescTable d).fdPos + msg.cnt := by
      rw [max_eq_right hgrow.le, ← hsum, BitVec.ofNat_toNat, BitVec.setWidth_eq]
    rw [← hsize] at hgrow
    refine Eq.trans
      (rdwtAdvance_grow h.layout h.pos h.le ho.num (hx.trans hkept.symm) hsum hgrow) ?_
    unfold Fs.wrote
    dsimp only
    rw [hnew, hblit]
    rfl
  · have hnew : BitVec.ofNat 32 (max (diskInode fs.sb fs.disk n).iSize.toNat
        ((fs.fDescTable d).fdPos.toNat + msg.cnt.toNat)) = (diskInode fs.sb fs.disk n).iSize := by
      rw [max_eq_left (by omega), BitVec.ofNat_toNat, BitVec.setWidth_eq]
    have hword : putWord disk (inodePos fs.sb n + 4) (diskInode fs.sb fs.disk n).iSize = disk := by
      rw [← hkept]
      exact putWord_word disk _
    have hsame : (fs.advance d msg.cnt).setInode p (fun x =>
        { x with iSize := (diskInode fs.sb fs.disk n).iSize }) = fs.advance d msg.cnt := by
      rw [← hsize]
      unfold Fs.setInode
      exact congrArg (fun table => { fs.advance d msg.cnt with inodeTable := table })
        (Function.update_eq_self p fs.inodeTable)
    rw [not_lt, ← hsize] at hgrow
    refine Eq.trans (rdwtAdvance_stay hgrow) ?_
    unfold Fs.wrote
    dsimp only
    rw [hnew, hblit, hword, hsame]
    rfl

/-- A `READ` that is in range. -/
theorem read (h : FileAt fs n) (user : Addr → Byte) (ho : OpenFor fs caller msg.fd n d p)
    (hin : InRange fs n d true msg.cnt) :
    doRdwt user fs caller true msg = .ok (msg.cnt.toInt, fs.advance d msg.cnt) ∧
      rdwtUser user fs true msg d p = poke user msg.buf msg.cnt.toNat (from_ fs.disk
        (512 * (diskInode fs.sb fs.disk n).iStartSect.toNat + (fs.fDescTable d).fdPos.toNat)) := by
  have hx := h.cached p ho.used ho.num
  have hmode : (fs.inodeTable p).iMode = iRegular := by rw [hx, h.mode]
  obtain ⟨hlt, htiles, hmoved⟩ := hin.turns
  have hdisk : rdwtDisk user msg.buf true fs.disk
      (rdwtTurns (diskInode fs.sb fs.disk n) true (fs.fDescTable d).fdPos msg.cnt).1
      (rdwtTurns (diskInode fs.sb fs.disk n) true (fs.fDescTable d).fdPos msg.cnt).2 =
        .ok fs.disk := by
    refine (if_pos rfl).trans ?_
    rw [htiles.readTurns]
    rfl
  constructor
  · rw [← hx] at hdisk hmoved
    rw [ho.doRdwt h, rdwtFile_eq hmode hdisk, hmoved, BitVec.toInt_eq_toNat_of_lt (by omega)]
    refine rdwtAdvance_stay ?_
    rw [hx]
    exact hin.fits
  · unfold rdwtUser
    rw [if_pos rfl, hx, htiles.reads msg.buf fs.disk user (by omega), hmoved]
    simp only [Int.toNat_natCast, BitVec.add_zero, Nat.add_zero]

end FileAt

/-! ## The array -/

/-- Inode `n` as a row of bytes. -/
def Fs.file (fs : Fs) (n : ℕ) : ByteFile :=
  ⟨from_ fs.disk (512 * (diskInode fs.sb fs.disk n).iStartSect.toNat),
    (diskInode fs.sb fs.disk n).iSize.toNat⟩

namespace FileAt

/-- What a `WRITE` makes of the file. -/
theorem wrote {len : BitVec 32} (bytes : Bytes) (h : FileAt fs n)
    (hp : (fs.inodeTable p).iCnt ≠ 0) (hnum : (fs.inodeTable p).iNum = n)
    (hin : InRange fs n d false len) :
    FileAt (fs.wrote d p n len bytes) n ∧ (fs.wrote d p n len bytes).file n =
      (fs.file n).write (fs.fDescTable d).fdPos.toNat len.toNat bytes := by
  have hbounds := inodePos_bounds h.layout h.pos h.le
  have hbehind := h.behind
  have hreach := hin.reach
  have hx := h.cached p hp hnum
  generalize hstart : (diskInode fs.sb fs.disk n).iStartSect.toNat = start at *
  generalize hsize : max (diskInode fs.sb fs.disk n).iSize.toNat
    ((fs.fDescTable d).fdPos.toNat + len.toNat) = size
  have htoNat : (BitVec.ofNat 32 size).toNat = size := by
    rw [BitVec.toNat_ofNat, Nat.mod_eq_of_lt (by omega)]
  have hdisk : (fs.wrote d p n len bytes).disk =
      putWord (blit fs.disk (512 * start + (fs.fDescTable d).fdPos.toNat) len.toNat bytes)
        (inodePos fs.sb n + 4) (BitVec.ofNat 32 size) := by
    rw [← hstart, ← hsize]
    rfl
  have hkept := h.blit_inode (fs.fDescTable d).fdPos.toNat len.toNat bytes
  rw [hstart] at hkept
  have hinode : diskInode fs.sb (fs.wrote d p n len bytes).disk n =
      { diskInode fs.sb fs.disk n with iSize := BitVec.ofNat 32 size } := by
    rw [hdisk, diskInode, readInode_putSize]
    exact congrArg (fun x : DiskInode => { x with iSize := BitVec.ofNat 32 size }) hkept
  have htable (q : Entry) : (fs.wrote d p n len bytes).inodeTable q =
      if q = p then { fs.inodeTable p with iSize := BitVec.ofNat 32 size }
      else fs.inodeTable q := by
    rw [← hsize]
    exact (Fs.setInode_inodeTable (fs.advance d len) p q fun x => { x with
      iSize := BitVec.ofNat 32 (max (diskInode fs.sb fs.disk n).iSize.toNat
        ((fs.fDescTable d).fdPos.toNat + len.toNat)) })
  have hslot (q : Entry) : ((fs.wrote d p n len bytes).inodeTable q).iCnt = (fs.inodeTable q).iCnt ∧
      ((fs.wrote d p n len bytes).inodeTable q).iNum = (fs.inodeTable q).iNum := by
    rw [htable]
    split_ifs with hq
    · rw [hq]
      exact ⟨rfl, rfl⟩
    · exact ⟨rfl, rfl⟩
  constructor
  · refine ⟨h.layout, h.pos, h.le, ?_, ?_, fun q hq hqn => ?_, fun q q' hq hq' hqn hqn' => ?_⟩
    · change (diskInode fs.sb _ n).iMode = _
      rw [hinode, ← h.mode]
    · change fs.sb.n1stSect ≤ (diskInode fs.sb _ n).iStartSect.toNat
      rw [hinode]
      exact hbehind.trans hstart.ge
    · rw [(hslot q).1] at hq
      rw [(hslot q).2] at hqn
      obtain rfl := h.once q p hq hp hqn hnum
      change _ = diskInode fs.sb _ n
      rw [htable, if_pos rfl, hinode, ← hx]
    · rw [(hslot q).1] at hq
      rw [(hslot q').1] at hq'
      rw [(hslot q).2] at hqn
      rw [(hslot q').2] at hqn'
      exact h.once q q' hq hq' hqn hqn'
  · refine ByteFile.ext ?_ ?_
    · change from_ (fs.wrote d p n len bytes).disk
        (512 * (diskInode fs.sb (fs.wrote d p n len bytes).disk n).iStartSect.toNat) = _
      rw [hinode]
      dsimp only
      rw [hstart, hdisk, putWord, from_blit_before (by omega), from_blit]
      exact congrArg (fun a => blit (from_ fs.disk (512 * a)) _ _ bytes) hstart.symm
    · change (diskInode fs.sb (fs.wrote d p n len bytes).disk n).iSize.toNat = _
      rw [hinode]
      exact htoNat.trans hsize.symm

/-- Entries of the table fall out of use, or are counted differently. -/
theorem slots (h : FileAt fs n) (hdisk : fs'.disk = fs.disk) (hsb : fs'.sb = fs.sb)
    (hslot : ∀ q, (fs'.inodeTable q).iCnt ≠ 0 → (fs'.inodeTable q).iNum = n →
      (fs.inodeTable q).iCnt ≠ 0 ∧ (fs.inodeTable q).iNum = n ∧
        (fs'.inodeTable q).toDiskInode = (fs.inodeTable q).toDiskInode) :
    FileAt fs' n ∧ fs'.file n = fs.file n := by
  refine ⟨⟨hsb ▸ h.layout, h.pos, h.le, ?_, ?_, fun q hq hqn => ?_,
    fun q q' hq hq' hqn hqn' => ?_⟩, ?_⟩
  · rw [hsb, hdisk, h.mode]
  · rw [hsb, hdisk]
    exact h.behind
  · obtain ⟨hcnt, hnum, hsame⟩ := hslot q hq hqn
    rw [hsame, hsb, hdisk, h.cached q hcnt hnum]
  · obtain ⟨hcnt, hnum, -⟩ := hslot q hq hqn
    obtain ⟨hcnt', hnum', -⟩ := hslot q' hq' hqn'
    exact h.once q q' hcnt hcnt' hnum hnum'
  · unfold Fs.file
    rw [hsb, hdisk]

theorem advance (h : FileAt fs n) (d : Entry) (len : BitVec 32) :
    FileAt (fs.advance d len) n ∧ (fs.advance d len).file n = fs.file n :=
  h.slots rfl rfl fun _ hq hqn => ⟨hq, hqn, rfl⟩

theorem got {num : Int} {r : Option Entry} (h : FileAt fs n) (hgot : GotInode fs num r fs') :
    FileAt fs' n ∧ fs'.file n = fs.file n := by
  cases hgot with
  | null => exact ⟨h, rfl⟩
  | hit p _ hcnt hnum =>
    refine h.slots rfl rfl fun q hq hqn => ?_
    rw [Fs.setInode_inodeTable] at hq hqn ⊢
    split_ifs at hq hqn ⊢ with hqp
    · subst hqp
      exact ⟨hcnt, hqn, rfl⟩
    · exact ⟨hq, hqn, rfl⟩
  | miss p _ hnone hzero _ =>
    by_cases hnum : num = n
    · -- the inode is read from the disk
      subst hnum
      have hread : readInode (rdSect fs.disk (inodeBlk fs.sb n)) (inodeOff n).toNat =
          diskInode fs.sb fs.disk n := readInode_rdSect h.layout h.pos h.le
      have honly (q : Entry) (hq : ((fs.setInode p fun _ =>
          { readInode (rdSect fs.disk (inodeBlk fs.sb n)) (inodeOff n).toNat with
            iCnt := 1, iNum := n }).inodeTable q).iCnt ≠ 0)
          (hqn : ((fs.setInode p fun _ =>
          { readInode (rdSect fs.disk (inodeBlk fs.sb n)) (inodeOff n).toNat with
            iCnt := 1, iNum := n }).inodeTable q).iNum = n) : q = p := by
        rw [Fs.setInode_inodeTable] at hq hqn
        by_contra hqp
        rw [if_neg hqp] at hq hqn
        exact hnone q hq hqn
      refine ⟨⟨h.layout, h.pos, h.le, h.mode, h.behind, fun q hq hqn => ?_,
        fun q q' hq hq' hqn hqn' => (honly q hq hqn).trans (honly q' hq' hqn').symm⟩, rfl⟩
      rw [honly q hq hqn, Fs.setInode_inodeTable, if_pos rfl]
      exact hread
    · refine h.slots rfl rfl fun q hq hqn => ?_
      rw [Fs.setInode_inodeTable] at hq hqn ⊢
      split_ifs at hq hqn ⊢ with hqp
      · exact absurd hqn hnum
      · exact ⟨hq, hqn, rfl⟩

end FileAt

/-! ## Runs -/

theorem doOpen_got {r : Int} (hcreat : msg.flags &&& oCreat = 0)
    (h : doOpen user fs caller msg = .ok (r, fs')) : ∃ num o fs₁, GotInode fs num o fs₁ ∧
      fs'.disk = fs₁.disk ∧ fs'.sb = fs₁.sb ∧ fs'.inodeTable = fs₁.inodeTable := by
  cases doOpen_done h with
  | refused path _ _ hopen =>
    rcases hopen.none with rfl | hnone
    · exact ⟨0, none, _, .null rfl, rfl, rfl, rfl⟩
    · exact absurd hcreat hnone.1
  | opened path fd d pin fs₁ _ _ _ hopen =>
    cases hopen with
    | created _ _ hc => exact absurd hcreat hc
    | got _ _ _ hgot => exact ⟨_, _, fs₁, hgot, rfl, rfl, rfl⟩

/-- An inode is put back. -/
theorem FileAt.put (h : FileAt fs n) (hdisk : fs'.disk = fs.disk) (hsb : fs'.sb = fs.sb)
    (hcnt : 0 < (fs.inodeTable p).iCnt)
    (htable : fs'.inodeTable = (fs.setInode p fun x => { x with iCnt := x.iCnt - 1 }).inodeTable) :
    FileAt fs' n ∧ fs'.file n = fs.file n := by
  refine h.slots hdisk hsb fun q hq hqn => ?_
  rw [htable, Fs.setInode_inodeTable] at hq hqn ⊢
  split_ifs at hq hqn ⊢ with hqp
  · rw [hqp]
    exact ⟨hcnt.ne', hqn, rfl⟩
  · exact ⟨hq, hqn, rfl⟩

/-- The requests in question: in-range ones for the file, with what they write, and those that open
files that are there, close them or ask for them. -/
inductive FileReq (fs : Fs) (n : ℕ) : FsRequest → Option ByteFile.Write → Prop
  | write {caller : Slot} {user : Addr → Byte} {msg : Message} {d p : Entry} :
    OpenFor fs caller msg.fd n d p → InRange fs n d false msg.cnt →
    FileReq fs n (.rdwt caller user false msg) (some ⟨(fs.fDescTable d).fdPos.toNat, msg.cnt.toNat,
      fun i => user (msg.buf + BitVec.ofNat 32 i)⟩)
  | read {caller : Slot} {user : Addr → Byte} {msg : Message} {d p : Entry} :
    OpenFor fs caller msg.fd n d p → InRange fs n d true msg.cnt →
    FileReq fs n (.rdwt caller user true msg) none
  | open {caller : Slot} {user : Addr → Byte} {msg : Message} : msg.flags &&& oCreat = 0 →
    FileReq fs n (.open caller user msg) none
  | close {caller : Slot} {msg : Message} : FileReq fs n (.close caller msg) none
  | stat {user : Addr → Byte} {msg : Message} : FileReq fs n (.stat user msg) none

def FileStep (n : ℕ) (fs : Fs) (w : Option ByteFile.Write) (fs' : Fs) : Prop :=
  ∃ r v, FileReq fs n r w ∧ fsCall fs r = .ok (v, fs')

theorem fileAt_step {w : Option ByteFile.Write} (h : FileAt fs n) (hs : FileStep n fs w fs') :
    FileAt fs' n ∧ fs'.file n = (fs.file n).after w.toList := by
  obtain ⟨r, v, hreq, hcall⟩ := hs
  cases hreq with
  | write ho hin =>
    obtain ⟨-, rfl⟩ := Prod.mk.inj (Except.ok.inj ((h.write ho hin).symm.trans hcall))
    exact h.wrote _ ho.used ho.num hin
  | read ho hin =>
    obtain ⟨-, rfl⟩ := Prod.mk.inj (Except.ok.inj ((h.read _ ho hin).1.symm.trans hcall))
    exact h.advance ..
  | «open» hcreat =>
    obtain ⟨num, o, fs₁, hgot, hdisk, hsb, htable⟩ := doOpen_got hcreat hcall
    obtain ⟨h₁, hfile⟩ := h.got hgot
    obtain ⟨h₂, hfile'⟩ := h₁.slots hdisk hsb fun q hq hqn => by
      rw [htable] at hq hqn ⊢
      exact ⟨hq, hqn, rfl⟩
    exact ⟨h₂, hfile'.trans hfile⟩
  | close =>
    obtain ⟨⟨fd, o⟩, -, hcall⟩ := bind_eq_ok.1 hcall
    cases o with
    | none => exact nomatch hcall
    | some e =>
      dsimp only at hcall
      split at hcall
      · exact nomatch hcall
      · obtain ⟨fs₁, hput, hcall⟩ := bind_eq_ok.1 hcall
        obtain ⟨hcnt, rfl⟩ := putInode_ok hput
        obtain ⟨-, rfl⟩ := Prod.mk.inj (Except.ok.inj hcall)
        exact h.put rfl rfl hcnt rfl
  | stat =>
    obtain ⟨⟨s, fs₁⟩, hstat, hcall⟩ := bind_eq_ok.1 hcall
    obtain ⟨-, rfl⟩ := Prod.mk.inj (Except.ok.inj hcall)
    cases s with
    | none =>
      rw [(doStat_none hstat).1]
      exact ⟨h, rfl⟩
    | some s =>
      obtain ⟨path, q, fs₂, -, hgot, -, hcnt, hput⟩ := doStat_some hstat
      obtain ⟨h₂, hfile⟩ := h.got hgot
      have hafter : FileAt fs₁ n ∧ fs₁.file n = fs₂.file n := by
        rw [hput]
        exact h₂.put rfl rfl hcnt rfl
      exact ⟨hafter.1, hafter.2.trans hfile⟩

/-- After a run the file is what the writes have made of it. -/
theorem fileAt_run {f : ByteFile} {t : List (Option ByteFile.Write)}
    (h : Run (fun fs => FileAt fs n ∧ fs.file n = f) (FileStep n) t fs) :
    FileAt fs n ∧ fs.file n = f.after t.reduceOption := by
  refine h.invariant (P := fun t fs => FileAt fs n ∧ fs.file n = f.after t.reduceOption)
    (fun fs hstart => hstart) fun t fs w fs' hinv hs => ?_
  obtain ⟨hat, hfile⟩ := fileAt_step hinv.1 hs
  refine ⟨hat, hfile.trans ?_⟩
  rw [hinv.2]
  cases w with
  | none => rfl
  | some w => rfl

/-- In every run of reads and writes that are in range, the file is what has been written to it: the
next write replaces its bytes, sets its size, and changes nothing else, and the next read gives its
bytes. -/
theorem rdwt_byte_array {f : ByteFile} {t : List (Option ByteFile.Write)}
    (h : Run (fun fs => FileAt fs n ∧ fs.file n = f) (FileStep n) t fs)
    (ho : OpenFor fs caller msg.fd n d p) {isRead : Bool} (hin : InRange fs n d isRead msg.cnt)
    (user : Addr → Byte) :
    fs.file n = f.after t.reduceOption ∧
      (isRead = false → ∃ bytes, bytes = (fun i => user (msg.buf + BitVec.ofNat 32 i)) ∧
        doRdwt user fs caller isRead msg =
          .ok (msg.cnt.toInt, fs.wrote d p n msg.cnt bytes) ∧
        (fs.wrote d p n msg.cnt bytes).file n = (f.after t.reduceOption).write
          (fs.fDescTable d).fdPos.toNat msg.cnt.toNat bytes) ∧
      (isRead = true →
        doRdwt user fs caller isRead msg = .ok (msg.cnt.toInt, fs.advance d msg.cnt) ∧
        rdwtUser user fs isRead msg d p = poke user msg.buf msg.cnt.toNat
          (from_ (f.after t.reduceOption).data (fs.fDescTable d).fdPos.toNat)) := by
  obtain ⟨hat, hfile⟩ := fileAt_run h
  refine ⟨hfile, ?_, ?_⟩
  · rintro rfl
    refine ⟨_, rfl, hat.write ho hin, ?_⟩
    rw [← hfile]
    exact (hat.wrote _ ho.used ho.num hin).2
  · rintro rfl
    obtain ⟨hcall, huser⟩ := hat.read user ho hin
    refine ⟨hcall, huser.trans ?_⟩
    rw [← hfile]
    congr 1
    funext i
    exact congrArg fs.disk (Nat.add_assoc ..)

/-- `INIT` opens `cmd.tar`. -/
def tarRun : List FsRequest := [.open init (textAt cmdTar) (nameMsg cmdTar oRdwr)]

/-- Its descriptor 0 is that of inode 5, in entry 1 of the table. -/
theorem tarRun_ok : ∃ fs, FileAt fs 5 ∧ OpenFor fs init 0 5 0 1 ∧ (fs.fDescTable 0).fdPos = 0 ∧
    diskInode fs.sb fs.disk 5 = ⟨iRegular, 0x100000, 0x8000, 0x800⟩ := by
  have hany : ((initFs (fun _ => 0) 40000).toOption.any fun fs =>
      (Run.exec fsFileStep ⟨fs, nativeLive⟩ tarRun).any fun w =>
        ((w.fs.inodeTable 1).iMode = iRegular ∧ (w.fs.inodeTable 1).iNum = 5 ∧
          (rdwtDesc w.fs init 0).toOption = some (some (0, 1)) ∧ (w.fs.inodeTable 1).iCnt ≠ 0) ∧
        (w.fs.fDescTable 0).fdPos = 0 ∧
        diskInode w.fs.sb w.fs.disk 5 = ⟨iRegular, 0x100000, 0x8000, 0x800⟩) = true := by
    decide +kernel
  obtain ⟨fs, hinit, hany⟩ := exists_ok_of_any hany
  obtain ⟨w, hexec, hw⟩ := (Option.any_eq_true _ _).1 hany
  obtain ⟨⟨hmode, hnum, hdesc, hcnt⟩, hpos, hinode⟩ := of_decide_eq_true hw
  have hgood := (worldInv_run regionsApart_40000 (okRun_of_exec hinit hexec)).good
  have hfile := hgood.fileAt hcnt hmode
  rw [hnum] at hfile
  exact ⟨w.fs, hfile, ⟨toOption_eq_some.1 hdesc, hcnt, hnum⟩, hpos, hinode⟩

/-- It writes 600 bytes, and could read them from a descriptor at the start of the file. -/
theorem rdwt_byte_array_tar : ∃ fs fs' f t,
    Run (fun fs => FileAt fs 5 ∧ fs.file 5 = f) (FileStep 5) t fs ∧
    doRdwt (fun _ => 7) fs init false (ioMsg 0 600) = .ok (600, fs') ∧
      fs'.file 5 = (f.after t.reduceOption).write 0 600 fun _ => 7 := by
  obtain ⟨fs, hfile, ho, hpos, hinode⟩ := tarRun_ok
  have hrun : Run (fun gs => FileAt gs 5 ∧ gs.file 5 = fs.file 5) (FileStep 5) [] fs :=
    .start ⟨hfile, rfl⟩
  have hin : InRange fs 5 0 false (ioMsg 0 600).cnt := by
    refine ⟨?_, ?_, ?_⟩ <;> rw [hinode]
    · rw [hpos]
      decide
    · rw [hpos]
      decide
    · decide
  obtain ⟨-, hwrite, -⟩ := rdwt_byte_array hrun ho hin fun _ => 7
  obtain ⟨bytes, rfl, hcall, hafter⟩ := hwrite rfl
  rw [hpos] at hafter
  exact ⟨fs, _, _, [], hrun, hcall, hafter⟩

/-! ## The end of the file -/

/-- What a request at a position before its end moves: where the end is before what is asked for
there is room for more than is left up to it. -/
theorem FileAt.rdwt_past {isRead : Bool} {stop : ℕ} (h : FileAt fs n)
    (ho : OpenFor fs caller msg.fd n d p) (hlen : msg.cnt.toNat < 2 ^ 31)
    (hstop : (rdwtEnd (diskInode fs.sb fs.disk n) isRead (fs.fDescTable d).fdPos msg.cnt).toNat =
      stop)
    (hpos : (fs.fDescTable d).fdPos.toNat ≤ stop)
    (hreach : (diskInode fs.sb fs.disk n).iStartSect.toNat + stop / 512 < 2 ^ 22) :
    ∃ (disk : Bytes) (room : Int), stop - (fs.fDescTable d).fdPos.toNat < room ∧
      doRdwt user fs caller isRead msg =
        rdwtAdvance { fs with disk } d p (min (msg.cnt.toNat : Int) room) := by
  have hx := h.cached p ho.used ho.num
  have hmode : (fs.inodeTable p).iMode = iRegular := by rw [hx, h.mode]
  obtain ⟨htiles, room, hroom, hmoved⟩ := rdwtTurns_tiles hlen (hstop.symm ▸ hpos)
    (show (diskInode fs.sb fs.disk n).iStartSect.toNat + (rdwtEnd (diskInode fs.sb fs.disk n) isRead
      (fs.fDescTable d).fdPos msg.cnt).toNat / 512 < 2 ^ 22 by rw [hstop]; exact hreach)
  rw [hstop] at hroom
  obtain ⟨disk, hdisk⟩ : ∃ disk, rdwtDisk user msg.buf isRead fs.disk
      (rdwtTurns (fs.inodeTable p).toDiskInode isRead (fs.fDescTable d).fdPos msg.cnt).1
      (rdwtTurns (fs.inodeTable p).toDiskInode isRead (fs.fDescTable d).fdPos msg.cnt).2 =
        .ok disk := by
    rw [hx]
    unfold rdwtDisk
    cases isRead with
    | true =>
      rw [if_pos rfl, htiles.readTurns]
      exact ⟨_, rfl⟩
    | false =>
      rw [if_neg Bool.false_ne_true]
      exact ⟨_, htiles.writes user msg.buf fs.disk⟩
  refine ⟨disk, room, hroom, ?_⟩
  rw [ho.doRdwt h, rdwtFile_eq hmode hdisk, hx, hmoved]

end MyOS
