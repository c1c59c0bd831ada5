import MyOS.Proofs.ByteFile
import MyOS.Proofs.HdTransfer

/-!
# What a request stays within

The end of a request is cut at the size of its file, or at its sectors, but the turns up to there
move what is left of the request, up to the end of their last sector: one that asks for more goes on
behind the end. And the driver answers only a request for 256 sectors at most.
-/

namespace MyOS

open Memory Block

variable {fs fs' : Fs} {n : ℕ} {user : Addr → Byte} {caller : Slot} {msg : Message} {d p : Entry}

/-! ## With the driver -/

/-- A request for a file is answered just where it is for 256 sectors at most. -/
theorem OpenFor.doRdwtHd (ho : OpenFor fs caller msg.fd n d p) (h : FileAt fs n)
    (user : Addr → Byte) (dev : BitVec 32) (isRead : Bool) :
    doRdwtHd user dev fs caller isRead msg =
      if rdwtSects (diskInode fs.sb fs.disk n) isRead (fs.fDescTable d).fdPos msg.cnt ≤ 256 then
        MyOS.doRdwt user fs caller isRead msg
      else .error .spin := by
  have hx := h.cached p ho.used ho.num
  have hmode : (fs.inodeTable p).iMode = iRegular := by rw [hx, h.mode]
  have hiff : (∀ m ∈ rdwtRequests dev (fs.inodeTable p).toDiskInode isRead (fs.fDescTable d).fdPos
      msg.cnt, m.Answered) ↔
        rdwtSects (diskInode fs.sb fs.disk n) isRead (fs.fDescTable d).fdPos msg.cnt ≤ 256 := by
    rw [hx]
    exact rdwt_answered_iff dev _ isRead _ msg.cnt
  unfold MyOS.doRdwtHd
  rw [ho.desc, ok_bind]
  dsimp only
  by_cases hle : rdwtSects (diskInode fs.sb fs.disk n) isRead (fs.fDescTable d).fdPos msg.cnt ≤ 256
  · rw [if_pos hle]
    exact if_neg fun hno => hno.2 (hiff.2 hle)
  · rw [if_neg hle]
    exact if_pos ⟨.inl hmode, fun hall => hle (hiff.1 hall)⟩

theorem OpenFor.doRdwtHd_ok {r : Int} (ho : OpenFor fs caller msg.fd n d p) (h : FileAt fs n)
    {dev : BitVec 32} {isRead : Bool} : MyOS.doRdwtHd user dev fs caller isRead msg = .ok (r, fs') ↔
      rdwtSects (diskInode fs.sb fs.disk n) isRead (fs.fDescTable d).fdPos msg.cnt ≤ 256 ∧
        MyOS.doRdwt user fs caller isRead msg = .ok (r, fs') := by
  rw [ho.doRdwtHd h]
  split_ifs with hle
  · exact (and_iff_right hle).symm
  · exact ⟨fun h => absurd h nofun, fun h => absurd h.1 hle⟩

/-- The sectors of a request whose end is known. -/
theorem rdwtSects_iff {isRead : Bool} {len : BitVec 32} {s : ℕ}
    (hstop : (rdwtEnd (diskInode fs.sb fs.disk n) isRead (fs.fDescTable d).fdPos len).toNat = s)
    (hpos : (fs.fDescTable d).fdPos.toNat ≤ s)
    (hreach : (diskInode fs.sb fs.disk n).iStartSect.toNat + s / 512 < 2 ^ 22) :
    rdwtSects (diskInode fs.sb fs.disk n) isRead (fs.fDescTable d).fdPos len ≤ 256 ↔
      s / 512 < (fs.fDescTable d).fdPos.toNat / 512 + 256 := by
  have hdiv : (fs.fDescTable d).fdPos.toNat / 512 ≤ s / 512 := Nat.div_le_div_right hpos
  unfold rdwtSects
  rw [rwSect_eq (by rw [hstop]; exact hreach), hstop, rwSect_eq (by omega)]
  omega

theorem rdwtAdvance_total (hnum : (fs.inodeTable p).iNum = n) (hn : 1 ≤ n) (r : Int) :
    ∃ fs', rdwtAdvance fs d p r = .ok (r, fs') := by
  have hsync (gs : Fs) (hgs : (gs.inodeTable p).iNum = n) :
      ∃ fs', (syncInode gs p >>= fun fs => .ok (r, fs)) = .ok (r, fs') := by
    obtain ⟨fs', hok⟩ := syncInode_total hgs hn
    exact ⟨fs', by rw [hok, ok_bind]⟩
  unfold rdwtAdvance
  dsimp only
  split_ifs
  · refine hsync _ ?_
    rw [Fs.setInode_inodeTable, if_pos rfl]
    exact hnum
  · exact ⟨_, rfl⟩

/-! ## Reading -/

/-- A `READ` with this result has returned what is left of the file up to the count, given these
bytes to the caller, and left the disk and the size as they were. -/
def ReadStops (user : Addr → Byte) (fs : Fs) (msg : Message) (n : ℕ) (d p : Entry)
    (result : Except Fault (Int × Fs)) : Prop :=
  ∃ r : ℕ, r = min msg.cnt.toNat
      ((diskInode fs.sb fs.disk n).iSize.toNat - (fs.fDescTable d).fdPos.toNat) ∧
    ∃ fs', result = .ok (r, fs') ∧ fs'.disk = fs.disk ∧
      (fs'.inodeTable p).iSize = (fs.inodeTable p).iSize ∧
      (fs'.fDescTable d).fdPos.toNat = (fs.fDescTable d).fdPos.toNat + r ∧
      rdwtUser user fs true msg d p = poke user msg.buf r
        (from_ (fs.file n).data (fs.fDescTable d).fdPos.toNat)

/-- Where a file ends before the count does, more than is left of it is read. -/
theorem FileAt.read_past (h : FileAt fs n) (ho : OpenFor fs caller msg.fd n d p)
    (hpos : (fs.fDescTable d).fdPos.toNat ≤ (diskInode fs.sb fs.disk n).iSize.toNat)
    (hlen : msg.cnt.toNat < 2 ^ 31) (hreach : (diskInode fs.sb fs.disk n).iStartSect.toNat +
      (diskInode fs.sb fs.disk n).iSize.toNat / 512 < 2 ^ 22)
    (hend : (diskInode fs.sb fs.disk n).iSize.toNat <
      (fs.fDescTable d).fdPos.toNat + msg.cnt.toNat) (user : Addr → Byte) :
    ∃ (room : Int) (fs' : Fs),
      (diskInode fs.sb fs.disk n).iSize.toNat - (fs.fDescTable d).fdPos.toNat < room ∧
      doRdwt user fs caller true msg = .ok (min (msg.cnt.toNat : Int) room, fs') := by
  have hstop : (rdwtEnd (diskInode fs.sb fs.disk n) true (fs.fDescTable d).fdPos msg.cnt).toNat =
      (diskInode fs.sb fs.disk n).iSize.toNat := by
    rw [rdwtEnd_read (by omega), min_eq_right (by omega)]
  obtain ⟨disk, room, hroom, heq⟩ := h.rdwt_past ho hlen hstop hpos hreach
  obtain ⟨fs', hok⟩ := @rdwtAdvance_total { fs with disk } n d p ho.num h.pos
    (min (msg.cnt.toNat : Int) room)
  exact ⟨room, fs', hroom, heq.trans hok⟩

theorem FileAt.readStops (h : FileAt fs n) (ho : OpenFor fs caller msg.fd n d p)
    (hlen : msg.cnt.toNat < 2 ^ 31) (hreach : (diskInode fs.sb fs.disk n).iStartSect.toNat +
      (diskInode fs.sb fs.disk n).iSize.toNat / 512 < 2 ^ 22)
    (hend : (fs.fDescTable d).fdPos.toNat + msg.cnt.toNat ≤
      (diskInode fs.sb fs.disk n).iSize.toNat) (user : Addr → Byte) :
    ReadStops user fs msg n d p (doRdwt user fs caller true msg) := by
  have hin : InRange fs n d true msg.cnt := ⟨hend, by omega, fun hw => nomatch hw⟩
  obtain ⟨hcall, huser⟩ := h.read user ho hin
  refine ⟨msg.cnt.toNat, by omega, fs.advance d msg.cnt, ?_, rfl, rfl, ?_, huser.trans ?_⟩
  · rw [hcall, BitVec.toInt_eq_toNat_of_lt (by omega)]
  · simp only [Fs.advance, Fs.setDesc, Function.update_self]
    rw [BitVec.toNat_add, Nat.mod_eq_of_lt (by omega)]
  · congr 1
    funext i
    exact congrArg fs.disk (Nat.add_assoc ..)

/-- A `READ` at a position within a file does so just where the file does not end before the count
does, and the request is for 256 sectors at most. -/
theorem read_stops_at_end_iff (h : FileAt fs n) (ho : OpenFor fs caller msg.fd n d p)
    (hpos : (fs.fDescTable d).fdPos.toNat ≤ (diskInode fs.sb fs.disk n).iSize.toNat)
    (hlen : msg.cnt.toNat < 2 ^ 31) (hreach : (diskInode fs.sb fs.disk n).iStartSect.toNat +
      (diskInode fs.sb fs.disk n).iSize.toNat / 512 < 2 ^ 22) (user : Addr → Byte)
    (dev : BitVec 32) :
    ReadStops user fs msg n d p (doRdwtHd user dev fs caller true msg) ↔
      (fs.fDescTable d).fdPos.toNat + msg.cnt.toNat ≤ (diskInode fs.sb fs.disk n).iSize.toNat ∧
      ((fs.fDescTable d).fdPos.toNat + msg.cnt.toNat) / 512 <
        (fs.fDescTable d).fdPos.toNat / 512 + 256 := by
  have hsects (hend : (fs.fDescTable d).fdPos.toNat + msg.cnt.toNat ≤
      (diskInode fs.sb fs.disk n).iSize.toNat) :
      rdwtSects (diskInode fs.sb fs.disk n) true (fs.fDescTable d).fdPos msg.cnt ≤ 256 ↔
        ((fs.fDescTable d).fdPos.toNat + msg.cnt.toNat) / 512 <
          (fs.fDescTable d).fdPos.toNat / 512 + 256 := by
    refine rdwtSects_iff ?_ (by omega) (by omega)
    rw [rdwtEnd_read (by omega), min_eq_left hend]
  constructor
  · rintro ⟨r, hr, fs', hs, -⟩
    obtain ⟨hle, hs⟩ := (ho.doRdwtHd_ok h).1 hs
    have hend : (fs.fDescTable d).fdPos.toNat + msg.cnt.toNat ≤
        (diskInode fs.sb fs.disk n).iSize.toNat := by
      by_contra hend
      obtain ⟨room, fs'', hroom, heq⟩ := h.read_past ho hpos hlen hreach (not_le.1 hend) user
      obtain ⟨hmoved, -⟩ := Prod.mk.inj (Except.ok.inj (hs.symm.trans heq))
      omega
    exact ⟨hend, (hsects hend).1 hle⟩
  · rintro ⟨hend, hle⟩
    rw [ho.doRdwtHd h, if_pos ((hsects hend).2 hle)]
    exact h.readStops ho hlen hreach hend user

/-- 512 bytes of `cmd.tar` are read from its start. -/
theorem read_stops_at_end_iff_tar : ∃ fs, FileAt fs 5 ∧ OpenFor fs init 0 5 0 1 ∧
    ReadStops (fun _ => 0) fs (ioMsg 0 512) 5 0 1
      (doRdwtHd (fun _ => 0) 0 fs init true (ioMsg 0 512)) := by
  obtain ⟨fs, hfile, ho, hpos, hinode⟩ := tarRun_ok
  have ho' : OpenFor fs init (ioMsg 0 512).fd 5 0 1 := ho
  refine ⟨fs, hfile, ho, (read_stops_at_end_iff hfile ho' ?_ (by decide) ?_ _ 0).2 ⟨?_, ?_⟩⟩
  · rw [hpos]
    exact Nat.zero_le _
  · rw [hinode]
    decide
  · rw [hpos, hinode]
    decide
  · rw [hpos]
    decide

/-! ## At the end of a file -/

theorem OpenFor.advance {fd : BitVec 32} (h : OpenFor fs caller fd n d p) (len : BitVec 32) :
    OpenFor (fs.advance d len) caller fd n d p := by
  refine ⟨?_, h.used, h.num⟩
  have hdesc := h.desc
  unfold rdwtDesc at hdesc ⊢
  obtain ⟨⟨i, o⟩, hfilp, hdesc⟩ := bind_eq_ok.1 hdesc
  have hfilp' : filpAt (fs.advance d len) caller fd = .ok (i, o) := hfilp
  rw [hfilp', ok_bind]
  cases o with
  | none => exact nomatch hdesc
  | some d' =>
    have hmode : ((fs.advance d len).fDescTable d').fdMode = (fs.fDescTable d').fdMode := by
      simp only [Fs.advance, Fs.setDesc, Function.update_apply]
      split_ifs with hd
      · rw [hd]
      · rfl
    have hinode : ((fs.advance d len).fDescTable d').fdInode = (fs.fDescTable d').fdInode := by
      simp only [Fs.advance, Fs.setDesc, Function.update_apply]
      split_ifs with hd
      · rw [hd]
      · rfl
    dsimp only at hdesc ⊢
    rw [hmode, hinode]
    exact hdesc

theorem Fs.advance_fdPos (fs : Fs) (d : Entry) (len : BitVec 32) :
    ((fs.advance d len).fDescTable d).fdPos = (fs.fDescTable d).fdPos + len := by
  simp only [Fs.advance, Fs.setDesc, Function.update_self]

theorem Fs.advance_zero (fs : Fs) (d : Entry) : fs.advance d (BitVec.ofNat 32 0) = fs := by
  simp only [Fs.advance, Fs.setDesc, BitVec.add_zero, Function.update_eq_self]

theorem Fs.advance_advance (fs : Fs) (d : Entry) (len len' : BitVec 32) :
    (fs.advance d len).advance d len' = fs.advance d (len + len') := by
  simp only [Fs.advance, Fs.setDesc, Function.update_self, Function.update_idem, BitVec.add_assoc]

/-- Reads of `len` bytes, one after the other. -/
theorem FileAt.read_blocks {fd : BitVec 32} (len dev : BitVec 32) (h : FileAt fs n)
    (ho : OpenFor fs caller fd n d p) (hlen : len.toNat ≤ 255 * 512)
    (hreach : (diskInode fs.sb fs.disk n).iStartSect.toNat +
      (diskInode fs.sb fs.disk n).iSize.toNat / 512 < 2 ^ 22)
    (hpos : (fs.fDescTable d).fdPos = 0) (user : Addr → Byte) : ∀ j : ℕ,
    j * len.toNat ≤ (diskInode fs.sb fs.disk n).iSize.toNat →
      (List.replicate j (ioMsg fd len)).foldlM
          (fun fs msg => (doRdwtHd user dev fs caller true msg).map Prod.snd) fs =
        .ok (fs.advance d (BitVec.ofNat 32 (j * len.toNat)))
  | 0, _ => by
    rw [Nat.zero_mul, Fs.advance_zero]
    rfl
  | j + 1, hj => by
    rw [Nat.add_mul, Nat.one_mul] at hj
    have hrest := FileAt.read_blocks len dev h ho hlen hreach hpos user j (by omega)
    generalize hgs : fs.advance d (BitVec.ofNat 32 (j * len.toNat)) = gs at hrest
    have hgs' : FileAt gs n := hgs ▸ (h.advance ..).1
    have hos : OpenFor gs caller (ioMsg fd len).fd n d p := hgs ▸ ho.advance _
    have hat : (gs.fDescTable d).fdPos.toNat = j * len.toNat := by
      have hsum : (0 : BitVec 32) + BitVec.ofNat 32 (j * len.toNat) =
          BitVec.ofNat 32 (j * len.toNat) := BitVec.zero_add _
      rw [← hgs, Fs.advance_fdPos, hpos, hsum, BitVec.toNat_ofNat, Nat.mod_eq_of_lt (by omega)]
    have hsame : diskInode gs.sb gs.disk n = diskInode fs.sb fs.disk n := by
      rw [← hgs]
      rfl
    have hcnt : (ioMsg fd len).cnt = len := rfl
    have hin : InRange gs n d true (ioMsg fd len).cnt := by
      refine ⟨?_, ?_, fun hw => nomatch hw⟩
      · rw [if_pos rfl, hat, hcnt, hsame]
        exact hj
      · rw [hat, hcnt, hsame]
        omega
    have hsects : rdwtSects (diskInode gs.sb gs.disk n) true (gs.fDescTable d).fdPos
        (ioMsg fd len).cnt ≤ 256 := by
      rw [hcnt]
      refine (rdwtSects_iff (s := j * len.toNat + len.toNat) ?_ (by omega) ?_).2 (by omega)
      · rw [rdwtEnd_read (by rw [hat]; omega), hat, hsame, min_eq_left hj]
      · rw [hsame]
        omega
    have hcall := (hgs'.read user hos hin).1
    rw [List.replicate_succ', List.foldlM_append, hrest, ok_bind, List.foldlM_cons,
      hos.doRdwtHd hgs', if_pos hsects, hcall, Except.map, ok_bind, List.foldlM_nil, hcnt, ← hgs,
      Fs.advance_advance, Nat.add_mul, Nat.one_mul, BitVec.ofNat_add, BitVec.ofNat_toNat,
      BitVec.setWidth_eq]
    rfl

/-- `cmd.tar` has been read by 64 KiB at a time, up to its end. -/
theorem tarEnd_ok : ∃ fs₀ fs, (FileAt fs₀ 5 ∧ (fs₀.fDescTable 0).fdPos = 0) ∧
    (List.replicate 16 (ioMsg 0 0x10000)).foldlM
      (fun fs msg => (doRdwtHd (fun _ => 0) 0 fs init true msg).map Prod.snd) fs₀ = .ok fs ∧
    FileAt fs 5 ∧ OpenFor fs init 0 5 0 1 ∧ (fs.fDescTable 0).fdPos = 0x100000 ∧
    diskInode fs.sb fs.disk 5 = ⟨iRegular, 0x100000, 0x8000, 0x800⟩ := by
  obtain ⟨fs, hfile, ho, hpos, hinode⟩ := tarRun_ok
  have hread := FileAt.read_blocks 0x10000 0 hfile ho (by decide) (by rw [hinode]; decide) hpos
    (fun _ => 0) 16 (by rw [hinode]; decide)
  refine ⟨fs, _, ⟨hfile, hpos⟩, hread, (hfile.advance ..).1, ho.advance _, ?_, hinode⟩
  rw [Fs.advance_fdPos, hpos]
  decide

/-- At the end of `cmd.tar` a `READ` of one byte returns 1, and the file grows. -/
theorem read_grows_file : ∃ fs₀ fs fs', (FileAt fs₀ 5 ∧ (fs₀.fDescTable 0).fdPos = 0) ∧
    (List.replicate 16 (ioMsg 0 0x10000)).foldlM
      (fun fs msg => (doRdwtHd (fun _ => 0) 0 fs init true msg).map Prod.snd) fs₀ = .ok fs ∧
    FileAt fs 5 ∧ OpenFor fs init 0 5 0 1 ∧
    (fs.fDescTable 0).fdPos = 0x100000 ∧ (diskInode fs.sb fs.disk 5).iSize = 0x100000 ∧
    doRdwtHd (fun _ => 0) 0 fs init true (ioMsg 0 1) = .ok (1, fs') ∧
    ¬ ReadStops (fun _ => 0) fs (ioMsg 0 1) 5 0 1
      (doRdwtHd (fun _ => 0) 0 fs init true (ioMsg 0 1)) := by
  obtain ⟨fs₀, fs, hstart, hread, hfile, ho, hpos, hinode⟩ := tarEnd_ok
  have ho' : OpenFor fs init (ioMsg 0 1).fd 5 0 1 := ho
  have hsects : rdwtSects (diskInode fs.sb fs.disk 5) true (fs.fDescTable 0).fdPos
      (ioMsg 0 1).cnt ≤ 256 := by
    rw [hpos, hinode]
    decide
  have hsize : (diskInode fs.sb fs.disk 5).iSize.toNat = 0x100000 := by
    rw [hinode]
    rfl
  have hat : (fs.fDescTable 0).fdPos.toNat = 0x100000 := by
    rw [hpos]
    rfl
  obtain ⟨room, fs', hroom, heq⟩ := hfile.read_past ho' (by omega) (by decide)
    (by rw [hinode]; decide) (by rw [hat, hsize]; decide) fun _ => 0
  rw [hsize, hat] at hroom
  have hone : min ((ioMsg 0 1).cnt.toNat : Int) room = 1 := by
    have hcnt : (ioMsg 0 1).cnt.toNat = 1 := rfl
    omega
  rw [hone] at heq
  have hcall := (ho'.doRdwtHd hfile (fun _ => 0) 0 true).trans (if_pos hsects)
  rw [heq] at hcall
  refine ⟨fs₀, fs, fs', hstart, hread, hfile, ho, hpos, by rw [hinode], hcall, ?_⟩
  rintro ⟨r, hr, fs'', hs, -⟩
  rw [hcall] at hs
  obtain ⟨hr', -⟩ := Prod.mk.inj (Except.ok.inj hs)
  rw [hsize, hat] at hr
  omega

/-! ## Writing -/

/-- The bytes that the sectors of file `n` hold. -/
def fileRoom (fs : Fs) (n : ℕ) : ℕ := (diskInode fs.sb fs.disk n).iNrSects.toNat * 512

/-- No byte is changed but those of the file's sectors and of its own entry in the inode array. -/
def OnlyFile (fs : Fs) (n : ℕ) (disk' : Bytes) : Prop :=
  ∀ y, y < 512 * (diskInode fs.sb fs.disk n).iStartSect.toNat ∨
      512 * (diskInode fs.sb fs.disk n).iStartSect.toNat + fileRoom fs n ≤ y →
    y < inodePos fs.sb n ∨ inodePos fs.sb n + inodeSize ≤ y → disk' y = fs.disk y

/-- A `WRITE` with this result has stayed within its file: it has moved what there is room for. -/
def WriteStays (fs : Fs) (msg : Message) (n : ℕ) (d p : Entry)
    (result : Except Fault (Int × Fs)) : Prop :=
  ∃ (r : ℕ) (fs' : Fs), r = min msg.cnt.toNat (fileRoom fs n - (fs.fDescTable d).fdPos.toNat) ∧
    result = .ok (r, fs') ∧ OnlyFile fs n fs'.disk ∧ (fs'.inodeTable p).iSize.toNat ≤ fileRoom fs n

theorem wrote_iSize {len : BitVec 32} (bytes : Bytes)
    (h : max (diskInode fs.sb fs.disk n).iSize.toNat ((fs.fDescTable d).fdPos.toNat + len.toNat) <
      2 ^ 32) : ((fs.wrote d p n len bytes).inodeTable p).iSize.toNat =
        max (diskInode fs.sb fs.disk n).iSize.toNat
          ((fs.fDescTable d).fdPos.toNat + len.toNat) := by
  unfold Fs.wrote
  dsimp only
  rw [Fs.setInode_inodeTable, if_pos rfl, BitVec.toNat_ofNat, Nat.mod_eq_of_lt h]

theorem wrote_only {len : BitVec 32} (bytes : Bytes)
    (hfits : (fs.fDescTable d).fdPos.toNat + len.toNat ≤ fileRoom fs n) :
    OnlyFile fs n (fs.wrote d p n len bytes).disk := by
  intro y hfile hinode
  have hsize : inodeSize = 32 := rfl
  unfold Fs.wrote
  dsimp only
  rw [putWord_outside (by omega), blit_outside (by omega)]

theorem rdwtEnd_room (hpos : (fs.fDescTable d).fdPos.toNat ≤ fileRoom fs n)
    (hlen : msg.cnt.toNat < 2 ^ 31) (hreach : (diskInode fs.sb fs.disk n).iStartSect.toNat +
      (diskInode fs.sb fs.disk n).iNrSects.toNat < 2 ^ 22) :
    (rdwtEnd (diskInode fs.sb fs.disk n) false (fs.fDescTable d).fdPos msg.cnt).toNat =
      min ((fs.fDescTable d).fdPos.toNat + msg.cnt.toNat) (fileRoom fs n) := by
  unfold fileRoom at hpos ⊢
  exact rdwtEnd_write (by omega) (by omega)

/-- Where the sectors end before the request does it moves more than they have room for. -/
theorem FileAt.write_past (h : FileAt fs n) (ho : OpenFor fs caller msg.fd n d p)
    (hpos : (fs.fDescTable d).fdPos.toNat ≤ fileRoom fs n) (hlen : msg.cnt.toNat < 2 ^ 31)
    (hreach : (diskInode fs.sb fs.disk n).iStartSect.toNat +
      (diskInode fs.sb fs.disk n).iNrSects.toNat < 2 ^ 22)
    (hend : fileRoom fs n < (fs.fDescTable d).fdPos.toNat + msg.cnt.toNat) (user : Addr → Byte) :
    ∃ (room : Int) (fs' : Fs), fileRoom fs n - (fs.fDescTable d).fdPos.toNat < room ∧
      doRdwt user fs caller false msg = .ok (min (msg.cnt.toNat : Int) room, fs') := by
  have hstop : (rdwtEnd (diskInode fs.sb fs.disk n) false (fs.fDescTable d).fdPos msg.cnt).toNat =
      fileRoom fs n := by
    rw [rdwtEnd_room hpos hlen hreach, min_eq_right hend.le]
  obtain ⟨disk, room, hroom, heq⟩ := h.rdwt_past ho hlen hstop hpos (by unfold fileRoom; omega)
  obtain ⟨fs', hok⟩ := @rdwtAdvance_total { fs with disk } n d p ho.num h.pos
    (min (msg.cnt.toNat : Int) room)
  exact ⟨room, fs', hroom, heq.trans hok⟩

/-- Where they do not, the file has what was written to it. -/
theorem FileAt.write_fits (h : FileAt fs n) (ho : OpenFor fs caller msg.fd n d p)
    (hreach : (diskInode fs.sb fs.disk n).iStartSect.toNat +
      (diskInode fs.sb fs.disk n).iNrSects.toNat < 2 ^ 22)
    (hfits : (fs.fDescTable d).fdPos.toNat + msg.cnt.toNat ≤ fileRoom fs n) (user : Addr → Byte) :
    ∃ fs', doRdwt user fs caller false msg = .ok (msg.cnt.toInt, fs') ∧ OnlyFile fs n fs'.disk ∧
      (fs'.inodeTable p).iSize.toNat = max (diskInode fs.sb fs.disk n).iSize.toNat
        ((fs.fDescTable d).fdPos.toNat + msg.cnt.toNat) := by
  have hlt := (diskInode fs.sb fs.disk n).iSize.isLt
  have hroom : fileRoom fs n < 2 ^ 32 := by
    unfold fileRoom
    omega
  refine ⟨_, h.write ho ⟨hfits, ?_, fun _ => ?_⟩, wrote_only _ hfits, wrote_iSize _ (by omega)⟩
  · unfold fileRoom at hfits
    omega
  · omega

/-- For every regular file, descriptor and request: it does so just where the request ends within
the sectors of the file and is for 256 sectors at most, and the size of the file does not already
exceed its sectors. -/
theorem write_stays_iff (h : FileAt fs n) (ho : OpenFor fs caller msg.fd n d p)
    (hpos : (fs.fDescTable d).fdPos.toNat ≤ fileRoom fs n) (hlen : msg.cnt.toNat < 2 ^ 31)
    (hreach : (diskInode fs.sb fs.disk n).iStartSect.toNat +
      (diskInode fs.sb fs.disk n).iNrSects.toNat < 2 ^ 22) (user : Addr → Byte) (dev : BitVec 32) :
    WriteStays fs msg n d p (doRdwtHd user dev fs caller false msg) ↔
      (fs.fDescTable d).fdPos.toNat + msg.cnt.toNat ≤ fileRoom fs n ∧
        ((fs.fDescTable d).fdPos.toNat + msg.cnt.toNat) / 512 <
          (fs.fDescTable d).fdPos.toNat / 512 + 256 ∧
        (diskInode fs.sb fs.disk n).iSize.toNat ≤ fileRoom fs n := by
  have hsects (hfits : (fs.fDescTable d).fdPos.toNat + msg.cnt.toNat ≤ fileRoom fs n) :
      rdwtSects (diskInode fs.sb fs.disk n) false (fs.fDescTable d).fdPos msg.cnt ≤ 256 ↔
        ((fs.fDescTable d).fdPos.toNat + msg.cnt.toNat) / 512 <
          (fs.fDescTable d).fdPos.toNat / 512 + 256 := by
    refine rdwtSects_iff ?_ (by omega) ?_
    · rw [rdwtEnd_room hpos hlen hreach, min_eq_left hfits]
    · unfold fileRoom at hfits
      omega
  constructor
  · rintro ⟨r, fs', hr, hs, -, hsize⟩
    obtain ⟨hle, hs⟩ := (ho.doRdwtHd_ok h).1 hs
    have hfits : (fs.fDescTable d).fdPos.toNat + msg.cnt.toNat ≤ fileRoom fs n := by
      by_contra hend
      obtain ⟨room, fs'', hroom, heq⟩ := h.write_past ho hpos hlen hreach (not_le.1 hend) user
      obtain ⟨hmoved, -⟩ := Prod.mk.inj (Except.ok.inj (hs.symm.trans heq))
      omega
    obtain ⟨fs'', heq, -, hgrown⟩ := h.write_fits ho hreach hfits user
    obtain ⟨-, rfl⟩ := Prod.mk.inj (Except.ok.inj (hs.symm.trans heq))
    rw [hgrown] at hsize
    exact ⟨hfits, (hsects hfits).1 hle, (le_max_left _ _).trans hsize⟩
  · rintro ⟨hfits, hle, hsize⟩
    obtain ⟨fs', heq, honly, hgrown⟩ := h.write_fits ho hreach hfits user
    rw [BitVec.toInt_eq_toNat_of_lt (by omega)] at heq
    rw [ho.doRdwtHd h, if_pos ((hsects hfits).2 hle), heq]
    refine ⟨msg.cnt.toNat, fs', by omega, rfl, honly, ?_⟩
    rw [hgrown]
    exact max_le hsize hfits

/-- `cmd.tar` is written from its start. -/
theorem write_stays_iff_tar : ∃ fs, FileAt fs 5 ∧ OpenFor fs init 0 5 0 1 ∧
    WriteStays fs (ioMsg 0 600) 5 0 1 (doRdwtHd (fun _ => 7) 0 fs init false (ioMsg 0 600)) := by
  obtain ⟨fs, hfile, ho, hpos, hinode⟩ := tarRun_ok
  have ho' : OpenFor fs init (ioMsg 0 600).fd 5 0 1 := ho
  have hroom : fileRoom fs 5 = 0x100000 := by
    rw [fileRoom, hinode]
    rfl
  refine ⟨fs, hfile, ho, (write_stays_iff hfile ho' ?_ (by decide) ?_ _ 0).2 ⟨?_, ?_, ?_⟩⟩
  · rw [hpos]
    exact Nat.zero_le _
  · rw [hinode]
    decide
  · rw [hpos, hroom]
    decide
  · rw [hpos]
    decide
  · rw [hinode, hroom]
    decide

/-- At the end of its sectors a `WRITE` of one byte goes on behind them. -/
theorem write_past_end : ∃ fs₀ fs fs', (FileAt fs₀ 5 ∧ (fs₀.fDescTable 0).fdPos = 0) ∧
    (List.replicate 16 (ioMsg 0 0x10000)).foldlM
      (fun fs msg => (doRdwtHd (fun _ => 0) 0 fs init true msg).map Prod.snd) fs₀ = .ok fs ∧
    FileAt fs 5 ∧ OpenFor fs init 0 5 0 1 ∧
    (fs.fDescTable 0).fdPos = 0x100000 ∧ fileRoom fs 5 = 0x100000 ∧
    doRdwtHd (fun _ => 7) 0 fs init false (ioMsg 0 1) = .ok (1, fs') ∧
    ¬ WriteStays fs (ioMsg 0 1) 5 0 1 (doRdwtHd (fun _ => 7) 0 fs init false (ioMsg 0 1)) := by
  obtain ⟨fs₀, fs, hstart, hread, hfile, ho, hpos, hinode⟩ := tarEnd_ok
  have ho' : OpenFor fs init (ioMsg 0 1).fd 5 0 1 := ho
  have hroom : fileRoom fs 5 = 0x100000 := by
    rw [fileRoom, hinode]
    rfl
  have hsects : rdwtSects (diskInode fs.sb fs.disk 5) false (fs.fDescTable 0).fdPos
      (ioMsg 0 1).cnt ≤ 256 := by
    rw [hpos, hinode]
    decide
  have hat : (fs.fDescTable 0).fdPos.toNat = 0x100000 := by
    rw [hpos]
    rfl
  obtain ⟨room, fs', hmore, heq⟩ := hfile.write_past ho' (by omega) (by decide)
    (by rw [hinode]; decide) (by rw [hat, hroom]; decide) fun _ => 7
  rw [hroom, hat] at hmore
  have hone : min ((ioMsg 0 1).cnt.toNat : Int) room = 1 := by
    have hcnt : (ioMsg 0 1).cnt.toNat = 1 := rfl
    omega
  rw [hone] at heq
  have hcall := (ho'.doRdwtHd hfile (fun _ => 7) 0 false).trans (if_pos hsects)
  rw [heq] at hcall
  refine ⟨fs₀, fs, fs', hstart, hread, hfile, ho, hpos, hroom, hcall, ?_⟩
  rintro ⟨r, fs'', hr, hs, -⟩
  rw [hcall] at hs
  obtain ⟨hr', -⟩ := Prod.mk.inj (Except.ok.inj hs)
  rw [hroom, hat] at hr
  omega

end MyOS
