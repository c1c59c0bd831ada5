import MyOS.Proofs.DiskMaps
import MyOS.Lib.RefTable

/-!
# What holds between requests

On the disk, the sectors of the files whose inodes are marked are the sectors that are marked, each
one of one file. In memory, an inode in use is one of those, is in the table once, and is as on the
disk. And the counts of descriptors and inodes are those of the references to them.
-/

namespace MyOS

open Memory Block RefTable

/-! ## On the disk -/

/-- A file or a directory, which has sectors. -/
def DiskInode.HasSects (x : DiskInode) : Prop :=
  x.iMode &&& iTypeMask = iRegular ∨ x.iMode &&& iTypeMask = iDirectory

instance (x : DiskInode) : Decidable x.HasSects := inferInstanceAs (Decidable (_ ∨ _))

/-- Bit `b` of the sector map is that of one of its sectors. -/
def DiskInode.Owns (sb : SuperBlock) (x : DiskInode) (b : ℕ) : Prop :=
  x.HasSects ∧ x.iStartSect.toNat ≤ b - 1 + sb.n1stSect ∧
    b - 1 + sb.n1stSect < x.iStartSect.toNat + x.iNrSects.toNat

instance (sb : SuperBlock) (x : DiskInode) (b : ℕ) : Decidable (x.Owns sb b) :=
  inferInstanceAs (Decidable (_ ∧ _))

/-- The number of an inode that is marked in the map. -/
def Allocated (disk : Bytes) (n : ℕ) : Prop := 1 ≤ n ∧ n < 4096 ∧ imapBit disk n = true

instance (disk : Bytes) (n : ℕ) : Decidable (Allocated disk n) :=
  inferInstanceAs (Decidable (_ ∧ _ ∧ _))

/-- The sectors of marked inodes are apart, behind the inodes and marked; where `tight` holds, no
other sector is. -/
structure DiskOk (tight : Prop) (sb : SuperBlock) (disk : Bytes) : Prop where
  imap0 : imapBit disk 0 = true
  smap0 : smapBit sb disk 0 = true
  root : imapBit disk 1 = true
  rootMode : (diskInode sb disk 1).iMode = iDirectory
  rootStart : (diskInode sb disk 1).iStartSect.toNat = sb.n1stSect
  inside : ∀ n, Allocated disk n → (diskInode sb disk n).HasSects →
    sb.n1stSect ≤ (diskInode sb disk n).iStartSect.toNat ∧
      (diskInode sb disk n).iStartSect.toNat + (diskInode sb disk n).iNrSects.toNat <
        sb.n1stSect + 4096 * sb.nrSmapSects
  owned : ∀ b, 1 ≤ b → b < 4096 * sb.nrSmapSects →
    (∃ n, Allocated disk n ∧ (diskInode sb disk n).Owns sb b) → smapBit sb disk b = true
  taken : tight → ∀ b, 1 ≤ b → b < 4096 * sb.nrSmapSects → smapBit sb disk b = true →
    ∃ n, Allocated disk n ∧ (diskInode sb disk n).Owns sb b
  apart : ∀ n n' b, Allocated disk n → Allocated disk n' → 1 ≤ b → (diskInode sb disk n).Owns sb b →
    (diskInode sb disk n').Owns sb b → n = n'

/-- The same but for the size. -/
def DiskInode.SameSects (x y : DiskInode) : Prop :=
  x.iMode = y.iMode ∧ x.iStartSect = y.iStartSect ∧ x.iNrSects = y.iNrSects

theorem DiskInode.SameSects.hasSects {x y : DiskInode} (h : x.SameSects y) :
    x.HasSects ↔ y.HasSects := by
  rw [HasSects, HasSects, h.1]

theorem DiskInode.SameSects.owns {x y : DiskInode} (h : x.SameSects y) (sb : SuperBlock) (b : ℕ) :
    x.Owns sb b ↔ y.Owns sb b := by
  rw [Owns, Owns, h.hasSects, h.2.1, h.2.2]

variable {tight : Prop} {sb : SuperBlock} {disk disk' : Bytes} {fs fs' : Fs}

namespace DiskOk

theorem allocated_one (h : DiskOk tight sb disk) : Allocated disk 1 := ⟨le_rfl, by decide, h.root⟩

/-- Only sizes of marked inodes change, and other inodes. -/
theorem congr (h : DiskOk tight sb disk) (hL : Layout sb)
    (himap : ∀ n < 4096, imapBit disk' n = imapBit disk n)
    (hsmap : ∀ b < 4096 * sb.nrSmapSects, smapBit sb disk' b = smapBit sb disk b)
    (hinode : ∀ n, Allocated disk n → (diskInode sb disk' n).SameSects (diskInode sb disk n)) :
    DiskOk tight sb disk' := by
  have hpos := hL.smap
  have hall (n : ℕ) : Allocated disk' n ↔ Allocated disk n := by
    unfold Allocated
    exact and_congr_right fun _ => and_congr_right fun hn => by rw [himap n hn]
  refine ⟨?_, ?_, ?_, ?_, ?_, fun n hn hs => ?_, fun b hb hb' => ?_, fun he b hb hb' hset => ?_,
    fun n n' b hn hn' hb ho ho' => ?_⟩
  · rw [himap 0 (by decide), h.imap0]
  · rw [hsmap 0 (by omega), h.smap0]
  · rw [himap 1 (by decide), h.root]
  · rw [(hinode 1 h.allocated_one).1, h.rootMode]
  · rw [(hinode 1 h.allocated_one).2.1, h.rootStart]
  · have hn := (hall n).1 hn
    rw [(hinode n hn).2.1, (hinode n hn).2.2]
    exact h.inside n hn ((hinode n hn).hasSects.1 hs)
  · rintro ⟨n, hn, ho⟩
    have hn := (hall n).1 hn
    rw [hsmap b hb']
    exact h.owned b hb hb' ⟨n, hn, ((hinode n hn).owns sb b).1 ho⟩
  · rw [hsmap b hb'] at hset
    obtain ⟨n, hn, ho⟩ := h.taken he b hb hb' hset
    exact ⟨n, (hall n).2 hn, ((hinode n hn).owns sb b).2 ho⟩
  · have hn := (hall n).1 hn
    have hn' := (hall n').1 hn'
    exact h.apart n n' b hn hn' hb (((hinode n hn).owns sb b).1 ho)
      (((hinode n' hn').owns sb b).1 ho')

/-- What `DiskOk` depends on below the sectors of files. -/
theorem of_below (h : DiskOk tight sb disk) (hL : Layout sb)
    (hbelow : ∀ y < 512 * sb.n1stSect, disk' y = disk y) : DiskOk tight sb disk' := by
  have hfirst := hL.first
  refine h.congr hL (fun n hn => imapBit_congr (fun y hy => hbelow y (by omega)) hn)
    (fun b hb => smapBit_congr hL (fun y hy => hbelow y (by omega)) hb) fun n hn => ?_
  have hpos := inodePos_bounds hL hn.1 hn.2.1.le
  rw [diskInode_congr fun y hy hy' => hbelow y (by omega)]
  exact ⟨rfl, rfl, rfl⟩

/-- A new file: inode `n` and the sectors of the bits from `b` on. -/
theorem create {n b c : ℕ} (h : DiskOk tight sb disk) (hL : Layout sb) (hn : 1 ≤ n) (hn' : n < 4096)
    (hfree : imapBit disk n = false)
    (himap : ∀ k < 4096, imapBit disk' k = (imapBit disk k || decide (k = n)))
    (hb : 1 ≤ b) (hc : b + c ≤ 4096 * sb.nrSmapSects)
    (hclear : ∀ k, b ≤ k → k < b + c → smapBit sb disk k = false)
    (hsmap : ∀ k < 4096 * sb.nrSmapSects,
      smapBit sb disk' k = (smapBit sb disk k || decide (b ≤ k ∧ k < b + c)))
    (hinode : ∀ k, Allocated disk k → diskInode sb disk' k = diskInode sb disk k)
    (hnew : (diskInode sb disk' n).HasSects)
    (hstart : (diskInode sb disk' n).iStartSect.toNat + 1 = b + sb.n1stSect)
    (hnr : (diskInode sb disk' n).iNrSects.toNat = c) : DiskOk tight sb disk' := by
  have hsm := hL.smap
  have hall (k : ℕ) : Allocated disk' k ↔ Allocated disk k ∨ k = n := by
    unfold Allocated
    constructor
    · rintro ⟨hk, hk', hbit⟩
      rw [himap k hk', Bool.or_eq_true, decide_eq_true_eq] at hbit
      exact hbit.imp_left fun hbit => ⟨hk, hk', hbit⟩
    · rintro (⟨hk, hk', hbit⟩ | rfl)
      · exact ⟨hk, hk', by rw [himap k hk', hbit, Bool.true_or]⟩
      · exact ⟨hn, hn', by rw [himap k hn', decide_eq_true rfl, Bool.or_true]⟩
  have hone := h.allocated_one
  -- the sectors of the new file
  have howns (k : ℕ) (hk : 1 ≤ k) : (diskInode sb disk' n).Owns sb k ↔ b ≤ k ∧ k < b + c := by
    unfold DiskInode.Owns
    rw [and_iff_right hnew, hnr]
    omega
  have hnone (k m : ℕ) (hk : 1 ≤ k) (hm : Allocated disk m) (ho : (diskInode sb disk m).Owns sb k)
      (hin : b ≤ k ∧ k < b + c) : False := by
    have hset := h.owned k hk (by omega) ⟨m, hm, ho⟩
    exact Bool.false_ne_true ((hclear k hin.1 hin.2).symm.trans hset)
  refine ⟨?_, ?_, ?_, ?_, ?_, fun k hk hs => ?_, fun k hk hk' => ?_, fun he k hk hk' hset => ?_,
    fun m m' k hm hm' hk ho ho' => ?_⟩
  · rw [himap 0 (by decide), h.imap0, Bool.true_or]
  · rw [hsmap 0 (by omega), h.smap0, Bool.true_or]
  · rw [himap 1 (by decide), h.root, Bool.true_or]
  · rw [hinode 1 hone, h.rootMode]
  · rw [hinode 1 hone, h.rootStart]
  · rcases (hall k).1 hk with hk | rfl
    · rw [hinode k hk] at hs ⊢
      exact h.inside k hk hs
    · omega
  · rintro ⟨m, hm, ho⟩
    rw [hsmap k hk', Bool.or_eq_true, decide_eq_true_eq]
    rcases (hall m).1 hm with hm | rfl
    · exact .inl (h.owned k hk hk' ⟨m, hm, by rwa [← hinode m hm]⟩)
    · exact .inr ((howns k hk).1 ho)
  · rw [hsmap k hk', Bool.or_eq_true, decide_eq_true_eq] at hset
    rcases hset with hset | hin
    · obtain ⟨m, hm, ho⟩ := h.taken he k hk hk' hset
      exact ⟨m, (hall m).2 (.inl hm), by rwa [hinode m hm]⟩
    · exact ⟨n, (hall n).2 (.inr rfl), (howns k hk).2 hin⟩
  · rcases (hall m).1 hm with hm | rfl
    · rw [hinode m hm] at ho
      rcases (hall m').1 hm' with hm' | rfl
      · rw [hinode m' hm'] at ho'
        exact h.apart m m' k hm hm' hk ho ho'
      · exact (hnone k m hk hm ho ((howns k hk).1 ho')).elim
    · rcases (hall m').1 hm' with hm' | rfl
      · rw [hinode m' hm'] at ho'
        exact (hnone k m' hk hm' ho' ((howns k hk).1 ho)).elim
      · rfl

/-- A file that is gone: inode `n`, which is not the root, and its sectors. -/
theorem remove {n b c : ℕ} (h : DiskOk tight sb disk) (hL : Layout sb) (hn : Allocated disk n)
    (hroot : n ≠ 1) (hsects : (diskInode sb disk n).HasSects)
    (hstart : (diskInode sb disk n).iStartSect.toNat + 1 = b + sb.n1stSect)
    (hnr : (diskInode sb disk n).iNrSects.toNat = c)
    (himap : ∀ k < 4096, imapBit disk' k = (imapBit disk k && ! decide (k = n)))
    (hsmap : ∀ k < 4096 * sb.nrSmapSects,
      smapBit sb disk' k = (smapBit sb disk k && ! decide (b ≤ k ∧ k < b + c)))
    (hinode : ∀ k, Allocated disk k → k ≠ n → diskInode sb disk' k = diskInode sb disk k) :
    DiskOk tight sb disk' := by
  have hsm := hL.smap
  have hn₁ := hn.1
  have hin := (h.inside n hn hsects).1
  have hall (k : ℕ) : Allocated disk' k ↔ Allocated disk k ∧ k ≠ n := by
    unfold Allocated
    constructor
    · rintro ⟨hk, hk', hbit⟩
      rw [himap k hk', Bool.and_eq_true, Bool.not_eq_true', decide_eq_false_iff_not] at hbit
      exact ⟨⟨hk, hk', hbit.1⟩, hbit.2⟩
    · rintro ⟨⟨hk, hk', hbit⟩, hne⟩
      exact ⟨hk, hk', by rw [himap k hk', hbit, decide_eq_false hne]; rfl⟩
  have hone := h.allocated_one
  have howns (k : ℕ) (hk : 1 ≤ k) : (diskInode sb disk n).Owns sb k ↔ b ≤ k ∧ k < b + c := by
    unfold DiskInode.Owns
    rw [and_iff_right hsects, hnr]
    omega
  refine ⟨?_, ?_, ?_, ?_, ?_, fun k hk hs => ?_, fun k hk hk' => ?_, fun he k hk hk' hset => ?_,
    fun m m' k hm hm' hk ho ho' => ?_⟩
  · rw [himap 0 (by decide), h.imap0, decide_eq_false (by omega)]
    rfl
  · rw [hsmap 0 (by omega), h.smap0, decide_eq_false (by omega)]
    rfl
  · rw [himap 1 (by decide), h.root, decide_eq_false (Ne.symm hroot)]
    rfl
  · rw [hinode 1 hone (Ne.symm hroot), h.rootMode]
  · rw [hinode 1 hone (Ne.symm hroot), h.rootStart]
  · obtain ⟨hk, hne⟩ := (hall k).1 hk
    rw [hinode k hk hne] at hs ⊢
    exact h.inside k hk hs
  · rintro ⟨m, hm, ho⟩
    rw [hsmap k hk', Bool.and_eq_true, Bool.not_eq_true', decide_eq_false_iff_not, ← howns k hk]
    obtain ⟨hm, hne⟩ := (hall m).1 hm
    rw [hinode m hm hne] at ho
    exact ⟨h.owned k hk hk' ⟨m, hm, ho⟩, fun hno => hne (h.apart m n k hm hn hk ho hno)⟩
  · rw [hsmap k hk', Bool.and_eq_true, Bool.not_eq_true', decide_eq_false_iff_not,
      ← howns k hk] at hset
    obtain ⟨m, hm, ho⟩ := h.taken he k hk hk' hset.1
    have hne : m ≠ n := by
      rintro rfl
      exact hset.2 ho
    exact ⟨m, (hall m).2 ⟨hm, hne⟩, by rwa [hinode m hm hne]⟩
  · obtain ⟨hm, hne⟩ := (hall m).1 hm
    obtain ⟨hm', hne'⟩ := (hall m').1 hm'
    rw [hinode m hm hne] at ho
    rw [hinode m' hm' hne'] at ho'
    exact h.apart m m' k hm hm' hk ho ho'

end DiskOk

/-! ## In memory -/

/-- An inode in use is marked, is in the table once, and is as on the disk. -/
structure CacheOk (fs : Fs) : Prop where
  num : ∀ p, (fs.inodeTable p).iCnt ≠ 0 →
    ∃ n : ℕ, (fs.inodeTable p).iNum = n ∧ Allocated fs.disk n
  coherent : ∀ p, (fs.inodeTable p).iCnt ≠ 0 → (fs.inodeTable p).toDiskInode =
    diskInode fs.sb fs.disk (fs.inodeTable p).iNum.toNat
  unique : ∀ p q, (fs.inodeTable p).iCnt ≠ 0 → (fs.inodeTable q).iCnt ≠ 0 →
    (fs.inodeTable p).iNum = (fs.inodeTable q).iNum → p = q
  root : (fs.inodeTable fs.rootInode).iNum = rootInodeNr

namespace CacheOk

/-- Inodes fall out of use, or are counted differently. -/
theorem slots (h : CacheOk fs) (hdisk : fs'.disk = fs.disk) (hsb : fs'.sb = fs.sb)
    (hroot : (fs'.inodeTable fs'.rootInode).iNum = rootInodeNr)
    (hslot : ∀ p, (fs'.inodeTable p).iCnt ≠ 0 → (fs.inodeTable p).iCnt ≠ 0 ∧
      (fs'.inodeTable p).iNum = (fs.inodeTable p).iNum ∧
      (fs'.inodeTable p).toDiskInode = (fs.inodeTable p).toDiskInode) : CacheOk fs' where
  num p hp := by
    obtain ⟨hp, hnum, -⟩ := hslot p hp
    rw [hdisk, hnum]
    exact h.num p hp
  coherent p hp := by
    obtain ⟨hp, hnum, hinode⟩ := hslot p hp
    rw [hdisk, hsb, hnum, hinode]
    exact h.coherent p hp
  unique p q hp hq hpq := by
    obtain ⟨hp, hnum, -⟩ := hslot p hp
    obtain ⟨hq, hnum', -⟩ := hslot q hq
    exact h.unique p q hp hq (by rw [← hnum, hpq, hnum'])
  root := hroot

/-- The disk changes where no inode in use is, nor its bit. -/
theorem onDisk (h : CacheOk fs) (hkeep : ∀ p, (fs.inodeTable p).iCnt ≠ 0 → ∀ n : ℕ,
      (fs.inodeTable p).iNum = n → Allocated fs.disk n →
        imapBit disk' n = imapBit fs.disk n ∧
          diskInode fs.sb disk' n = diskInode fs.sb fs.disk n) :
    CacheOk { fs with disk := disk' } where
  num p hp := by
    obtain ⟨n, hnum, hn⟩ := h.num p hp
    exact ⟨n, hnum, hn.1, hn.2.1, by rw [(hkeep p hp n hnum hn).1, hn.2.2]⟩
  coherent p hp := by
    obtain ⟨n, hnum, hn⟩ := h.num p hp
    refine (h.coherent p hp).trans ?_
    dsimp only
    rw [hnum, Int.toNat_natCast, (hkeep p hp n hnum hn).2]
  unique := h.unique
  root := h.root

theorem of_below (h : CacheOk fs) (hL : Layout fs.sb)
    (hbelow : ∀ y < 512 * fs.sb.n1stSect, disk' y = fs.disk y) :
    CacheOk { fs with disk := disk' } := by
  have hfirst := hL.first
  refine h.onDisk fun p hp n hnum hn => ⟨imapBit_congr (fun y hy => hbelow y (by omega)) hn.2.1, ?_⟩
  have hpos := inodePos_bounds hL hn.1 hn.2.1.le
  exact diskInode_congr fun y hy hy' => hbelow y (by omega)

/-- An entry of the table is that of an inode that no other one is of. -/
theorem change {p : Entry} {n : ℕ} (h : CacheOk fs)
    (hrest : ∀ q, q ≠ p → fs'.inodeTable q = fs.inodeTable q) (hsb : fs'.sb = fs.sb)
    (hrootInode : fs'.rootInode = fs.rootInode) (hnum : (fs'.inodeTable p).iNum = n)
    (hn : Allocated fs'.disk n)
    (hinode : (fs'.inodeTable p).toDiskInode = diskInode fs.sb fs'.disk n)
    (hkeep : ∀ k, Allocated fs.disk k → k ≠ n → imapBit fs'.disk k = imapBit fs.disk k ∧
      diskInode fs.sb fs'.disk k = diskInode fs.sb fs.disk k)
    (hother : ∀ q, q ≠ p → (fs.inodeTable q).iCnt ≠ 0 → (fs.inodeTable q).iNum ≠ n)
    (hroot : p = fs.rootInode → n = rootInodeNr) : CacheOk fs' where
  num q hq := by
    rcases eq_or_ne q p with rfl | hqp
    · exact ⟨n, hnum, hn⟩
    · rw [hrest q hqp] at hq ⊢
      obtain ⟨k, hk, hk'⟩ := h.num q hq
      have hkn : k ≠ n := fun he => hother q hqp hq (he ▸ hk)
      exact ⟨k, hk, hk'.1, hk'.2.1, by rw [(hkeep k hk' hkn).1, hk'.2.2]⟩
  coherent q hq := by
    rcases eq_or_ne q p with rfl | hqp
    · rw [hnum, hsb, hinode, Int.toNat_natCast]
    · rw [hrest q hqp] at hq ⊢
      obtain ⟨k, hk, hk'⟩ := h.num q hq
      have hkn : k ≠ n := fun he => hother q hqp hq (he ▸ hk)
      rw [h.coherent q hq, hk, hsb, Int.toNat_natCast, (hkeep k hk' hkn).2]
  unique q r hq hr hqr := by
    rcases eq_or_ne q p with rfl | hqp
    · rcases eq_or_ne r q with rfl | hrq
      · rfl
      · rw [hnum, hrest r hrq] at hqr
        rw [hrest r hrq] at hr
        exact absurd hqr.symm (hother r hrq hr)
    · rcases eq_or_ne r p with rfl | hrp
      · rw [hnum, hrest q hqp] at hqr
        rw [hrest q hqp] at hq
        exact absurd hqr (hother q hqp hq)
      · rw [hrest q hqp, hrest r hrp] at hqr
        rw [hrest q hqp] at hq
        rw [hrest r hrp] at hr
        exact h.unique q r hq hr hqr
  root := by
    rw [hrootInode]
    rcases eq_or_ne fs.rootInode p with he | hrp
    · rw [he, hnum, hroot he.symm]
    · rw [hrest _ hrp]
      exact h.root

/-- An entry of the table is changed and written back. -/
theorem write {p : Entry} {f : Inode → Inode} {n : ℕ} (h : CacheOk fs) (hL : Layout fs.sb)
    (hn : Allocated fs.disk n) (hnum : (f (fs.inodeTable p)).iNum = n)
    (hother : ∀ q, q ≠ p → (fs.inodeTable q).iCnt ≠ 0 → (fs.inodeTable q).iNum ≠ n)
    (hroot : p = fs.rootInode → n = rootInodeNr) (hs : syncInode (fs.setInode p f) p = .ok fs') :
    CacheOk fs' ∧ ∃ disk', fs' = { fs.setInode p f with disk := disk' } ∧
      diskInode fs.sb disk' n = (f (fs.inodeTable p)).toDiskInode ∧
      ∀ y, y < inodePos fs.sb n ∨ inodePos fs.sb n + 16 ≤ y → disk' y = fs.disk y := by
  have hself : (fs.setInode p f).inodeTable p = f (fs.inodeTable p) := by
    rw [Fs.setInode_inodeTable, if_pos rfl]
  have hsync : ∃ disk', fs' = { fs.setInode p f with disk := disk' } ∧
      diskInode fs.sb disk' n = (f (fs.inodeTable p)).toDiskInode ∧
      ∀ y, y < inodePos fs.sb n ∨ inodePos fs.sb n + 16 ≤ y → disk' y = fs.disk y := by
    have hw := @syncInode_inode (fs.setInode p f) _ p n hL (by rw [hself, hnum]) hn.1 hn.2.1.le hs
    rwa [hself] at hw
  obtain ⟨disk', rfl, hinode, hframe⟩ := hsync
  have hpos := inodePos_bounds hL hn.1 hn.2.1.le
  have himap (k : ℕ) (hk : k < 4096) : imapBit disk' k = imapBit fs.disk k :=
    imapBit_congr (fun y hy => hframe y (by omega)) hk
  refine ⟨?_, disk', rfl, hinode, hframe⟩
  refine h.change (p := p) (n := n) (fun q hq => ?_) rfl rfl ?_ ?_ ?_ (fun k hk hkn => ?_) hother
    hroot
  · exact (Fs.setInode_inodeTable ..).trans (if_neg hq)
  · exact (congrArg Inode.iNum hself).trans hnum
  · exact ⟨hn.1, hn.2.1, by rw [himap n hn.2.1, hn.2.2]⟩
  · exact (congrArg Inode.toDiskInode hself).trans hinode.symm
  · have hapart := inodePos_apart hL hn.1 hk.1 hkn
    exact ⟨himap k hk.2.1, diskInode_congr fun y hy hy' => hframe y (by omega)⟩

/-- The inodes of an entry that is free, or of the number it had, are counted as they are. -/
theorem setCnt {p : Entry} {c : Inode → Int} (h : CacheOk fs)
    (hp : c (fs.inodeTable p) ≠ 0 → (fs.inodeTable p).iCnt ≠ 0) :
    CacheOk (fs.setInode p fun x => { x with iCnt := c x }) := by
  have hslot (q : Entry) : ((fs.setInode p fun x => { x with iCnt := c x }).inodeTable q).iNum =
      (fs.inodeTable q).iNum ∧
      ((fs.setInode p fun x => { x with iCnt := c x }).inodeTable q).toDiskInode =
        (fs.inodeTable q).toDiskInode := by
    rw [Fs.setInode_inodeTable]
    split_ifs with hq
    · exact hq ▸ ⟨rfl, rfl⟩
    · exact ⟨rfl, rfl⟩
  refine h.slots rfl rfl ((hslot _).1.trans h.root) fun q hq => ⟨?_, hslot q⟩
  rw [Fs.setInode_inodeTable] at hq
  split_ifs at hq with hqp
  · rw [hqp]
    exact hp hq
  · exact hq

end CacheOk

/-! ## Counts -/

/-- The entries of `filp`, the descriptors and the inodes. -/
def Fs.table (fs : Fs) : Table (Slot × Entry) Entry Entry where
  ref i := fs.filp i.1 i.2
  cnt d := (fs.fDescTable d).fdCnt
  obj d := (fs.fDescTable d).fdInode
  objCnt p := (fs.inodeTable p).iCnt

theorem setFilp_ref (fs : Fs) (c : Slot) (fd : Entry) (v : Option Entry) :
    (fs.setFilp c fd v).table.ref = Function.update fs.table.ref (c, fd) v := by
  funext i
  obtain ⟨c', fd'⟩ := i
  by_cases hc : c' = c
  · subst hc
    by_cases hfd : fd' = fd <;> simp [Fs.table, Fs.setFilp, hfd]
  · simp [Fs.table, Fs.setFilp, hc]

theorem setDesc_cnt (fs : Fs) (d : Entry) (f : FileDesc → FileDesc) :
    (fs.setDesc d f).table.cnt = Function.update fs.table.cnt d (f (fs.fDescTable d)).fdCnt := by
  funext e
  by_cases he : e = d <;> simp [Fs.table, Fs.setDesc, he]

theorem setDesc_obj (fs : Fs) (d : Entry) (f : FileDesc → FileDesc) :
    (fs.setDesc d f).table.obj = Function.update fs.table.obj d (f (fs.fDescTable d)).fdInode := by
  funext e
  by_cases he : e = d <;> simp [Fs.table, Fs.setDesc, he]

/-- The references to an inode that are not from descriptors: that of `root_inode`, and those the
code has in hand. -/
def Fs.extra (fs : Fs) (held : Entry → ℕ) (p : Entry) : ℕ :=
  (if p = fs.rootInode then 1 else 0) + held p

/-- A reference to one inode in hand. -/
def one (p q : Entry) : ℕ := if q = p then 1 else 0

/-- None in hand. -/
def noneHeld (_ : Entry) : ℕ := 0

@[simp] theorem setInode_extra (fs : Fs) (p : Entry) (f : Inode → Inode) (held : Entry → ℕ) :
    (fs.setInode p f).extra held = fs.extra held := rfl

theorem extra_one (fs : Fs) (p q : Entry) :
    fs.extra (one p) q = fs.extra noneHeld q + if q = p then 1 else 0 := rfl

/-- One entry of the table is changed, so that its count allows for what is in hand. -/
theorem counted_setInode {p : Entry} {f : Inode → Inode} {extra extra' : Entry → ℕ}
    (h : Counted fs.table extra)
    (hp : (fs.inodeTable p).iCnt + extra' p ≤ (f (fs.inodeTable p)).iCnt + extra p)
    (hq : ∀ q, q ≠ p → extra' q ≤ extra q) : Counted (fs.setInode p f).table extra' := by
  refine h.count _ fun q => ?_
  change (fs.inodeTable q).iCnt + _ ≤ ((fs.setInode p f).inodeTable q).iCnt + _
  rw [Fs.setInode_inodeTable]
  split_ifs with hqp
  · rw [hqp]
    exact hp
  · have := hq q hqp
    omega

structure FsGood (tight : Prop) (held : Entry → ℕ) (fs : Fs) : Prop where
  layout : Layout fs.sb
  refs : Counted fs.table (fs.extra held)
  cache : CacheOk fs
  disk : DiskOk tight fs.sb fs.disk

namespace FsGood

variable {held held' : Entry → ℕ}

theorem loosen (h : FsGood True held fs) : FsGood False held fs where
  layout := h.layout
  refs := h.refs
  cache := h.cache
  disk := { h.disk with taken := False.elim }

/-- What is in hand may be forgotten, but is not put back. -/
theorem forget (h : FsGood tight held fs) : FsGood tight noneHeld fs where
  layout := h.layout
  refs := h.refs.count fs.table.objCnt fun q => by
    unfold Fs.extra noneHeld
    push_cast
    omega
  cache := h.cache
  disk := h.disk

theorem rootCnt (h : FsGood tight held fs) : (fs.inodeTable fs.rootInode).iCnt ≠ 0 := by
  have := h.refs.enough fs.rootInode
  rw [Fs.extra, if_pos rfl] at this
  push_cast at this
  change _ ≤ (fs.inodeTable fs.rootInode).iCnt at this
  omega

theorem cnt_nonneg (h : FsGood tight held fs) (p : Entry) : 0 ≤ (fs.inodeTable p).iCnt :=
  h.refs.objCnt_nonneg p

/-- The root directory, as it is in the table. -/
theorem rootDir (h : FsGood tight held fs) :
    (fs.inodeTable fs.rootInode).toDiskInode = diskInode fs.sb fs.disk 1 := by
  rw [h.cache.coherent _ h.rootCnt, h.cache.root]
  rfl

theorem of_below (h : FsGood tight held fs)
    (hbelow : ∀ y < 512 * fs.sb.n1stSect, disk' y = fs.disk y) :
    FsGood tight held { fs with disk := disk' } where
  layout := h.layout
  refs := h.refs
  cache := h.cache.of_below h.layout hbelow
  disk := h.disk.of_below h.layout hbelow

/-- An inode in use gets another size, and is written back. -/
theorem resize {p : Entry} (size : Inode → BitVec 32) (h : FsGood tight held fs)
    (hp : (fs.inodeTable p).iCnt ≠ 0)
    (hs : syncInode (fs.setInode p fun x => { x with iSize := size x }) p = .ok fs') :
    FsGood tight held fs' := by
  obtain ⟨n, hnum, hn⟩ := h.cache.num p hp
  obtain ⟨hcache, disk', rfl, hinode, hframe⟩ := h.cache.write h.layout hn hnum
    (fun q hq hcnt he => hq (h.cache.unique q p hcnt hp (he.trans hnum.symm)))
    (fun hr => by
      have := h.cache.root
      rw [hr] at hnum
      omega) hs
  have hpos := inodePos_bounds h.layout hn.1 hn.2.1.le
  have hfirst := h.layout.first
  have hrefs : Counted (fs.setInode p fun x => { x with iSize := size x }).table (fs.extra held) :=
    counted_setInode h.refs le_rfl fun q _ => le_rfl
  refine ⟨h.layout, hrefs, hcache, h.disk.congr h.layout
    (fun k hk => imapBit_congr (fun y hy => hframe y (by omega)) hk)
    (fun b hb => smapBit_congr h.layout (fun y hy => hframe y (by omega)) hb) fun k hk => ?_⟩
  change (diskInode fs.sb disk' k).SameSects _
  rcases eq_or_ne k n with rfl | hne
  · have hcoh := h.cache.coherent p hp
    rw [hnum, Int.toNat_natCast] at hcoh
    rw [hinode, ← hcoh]
    exact ⟨rfl, rfl, rfl⟩
  · have hapart := inodePos_apart h.layout hn.1 hk.1 hne
    have hsame : diskInode fs.sb disk' k = diskInode fs.sb fs.disk k :=
      diskInode_congr fun y hy hy' => hframe y (by omega)
    rw [hsame]
    exact ⟨rfl, rfl, rfl⟩

end FsGood

end MyOS
