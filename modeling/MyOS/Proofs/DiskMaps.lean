import MyOS.Proofs.Mkfs
import MyOS.Proofs.FsOutcome

/-!
# The maps and the inodes on the disk

Bit `n` of the inode map, bit `b` of the sector map and inode `n` of the inode array, by their
position on the disk. `alloc_imap_bit`, `alloc_smap_bit` and the two ends of `do_unlink` each change
a stretch of bits and nothing else, and `sync_inode` changes one inode.
-/

namespace MyOS

open Memory Block

def imapBit (disk : Bytes) (n : ℕ) : Bool := bit disk (8 * sectorSize * 2 + n)

def smapBit (sb : SuperBlock) (disk : Bytes) (b : ℕ) : Bool :=
  bit disk (8 * sectorSize * (2 + sb.nrImapSects) + b)

/-- Where inode `n` is on the disk, -/
def inodePos (sb : SuperBlock) (n : ℕ) : ℕ :=
  sectorSize * (2 + sb.nrImapSects + sb.nrSmapSects) + inodeSize * (n - 1)

/-- and what it is there. -/
def diskInode (sb : SuperBlock) (disk : Bytes) (n : ℕ) : DiskInode := readInode disk (inodePos sb n)

/-- A super block whose regions follow one another, with a sector map below sector `0x8000`. -/
structure Layout (sb : SuperBlock) : Prop where
  imap : sb.nrImapSects = 1
  smap : 1 ≤ sb.nrSmapSects
  first : sb.n1stSect = 259 + sb.nrSmapSects
  small : sb.n1stSect ≤ 0x8000

variable {sb : SuperBlock} {fs fs' : Fs} {disk disk' : Bytes}

theorem smapBit_eq (hL : Layout sb) (disk : Bytes) (b : ℕ) :
    smapBit sb disk b = bit disk (4096 * 3 + b) := by
  rw [smapBit, hL.imap]
  rfl

/-! ## Stretches of bits -/

/-- The bits of `f'` are those of `f` and the `c` bits from `lo` on, which were clear. -/
structure Marked (f f' : Bytes) (lo c : ℕ) : Prop where
  bit_eq : ∀ x, bit f' x = (bit f x || decide (lo ≤ x ∧ x < lo + c))
  clear : ∀ x, lo ≤ x → x < lo + c → bit f x = false

/-- The bits of `f'` are those of `f` without the `c` bits from `lo` on. -/
def Unmarked (f f' : Bytes) (lo c : ℕ) : Prop :=
  ∀ x, bit f' x = (bit f x && ! decide (lo ≤ x ∧ x < lo + c))

/-- Bytes with the same bits. -/
theorem eq_of_bits {f g : Bytes} {y : ℕ} (h : ∀ x, x / 8 = y → bit f x = bit g x) : f y = g y := by
  refine BitVec.eq_of_getLsbD_eq fun i hi => ?_
  have := h (8 * y + i) (by omega)
  simpa only [bit, show (8 * y + i) / 8 = y by omega, show (8 * y + i) % 8 = i by omega] using this

namespace Marked

variable {f f' f'' : Bytes} {lo c c' : ℕ}

theorem refl (f : Bytes) (lo : ℕ) : Marked f f lo 0 where
  bit_eq x := by
    rw [decide_eq_false (by omega), Bool.or_false]
  clear x hlo hc := by omega

theorem trans (h : Marked f f' lo c) (h' : Marked f' f'' (lo + c) c') :
    Marked f f'' lo (c + c') where
  bit_eq x := by
    rw [h'.bit_eq, h.bit_eq, Bool.or_assoc]
    congr 1
    rw [← Bool.decide_or]
    exact decide_eq_decide.2 (by omega)
  clear x hlo hc := by
    by_cases hx : x < lo + c
    · exact h.clear x hlo hx
    · have hclear := h'.clear x (by omega) (by omega)
      rw [h.bit_eq, Bool.or_eq_false_iff] at hclear
      exact hclear.1

theorem set (h : bit f lo = false) : Marked f (setBit f lo) lo 1 where
  bit_eq x := by
    rw [bit_setBit, Bool.or_comm]
    congr 1
    exact decide_eq_decide.2 (by omega)
  clear x hlo hc := by
    obtain rfl : x = lo := by omega
    exact h

theorem byte_eq (h : Marked f f' lo c) {y : ℕ} (hy : 8 * y + 8 ≤ lo ∨ lo + c ≤ 8 * y) :
    f' y = f y :=
  eq_of_bits fun x hx => by
    rw [h.bit_eq, decide_eq_false (by omega), Bool.or_false]

/-- What is marked within a sector in hand is marked on the disk. -/
theorem wrSect (disk : Bytes) {s : ℕ} (hs : s < 2 ^ 22) (h : Marked f f' lo c)
    (hlo : lo + c ≤ 4096) :
    Marked (wrSect disk s f) (wrSect disk s f') (4096 * s + lo) c where
  bit_eq x := by
    rw [bit_wrSect hs, bit_wrSect hs]
    by_cases hx : 4096 * s ≤ x ∧ x < 4096 * s + 4096
    · rw [if_pos hx, if_pos hx, h.bit_eq]
      congr 1
      exact decide_eq_decide.2 (by omega)
    · rw [if_neg hx, if_neg hx, decide_eq_false (by omega), Bool.or_false]
  clear x hx hc := by
    rw [bit_wrSect hs, if_pos (by omega)]
    exact h.clear _ (by omega) (by omega)

end Marked

namespace Unmarked

variable {f f' f'' : Bytes} {lo c c' : ℕ}

theorem refl (f : Bytes) (lo : ℕ) : Unmarked f f lo 0 := by
  intro x
  rw [decide_eq_false (by omega), Bool.not_false, Bool.and_true]

theorem trans (h : Unmarked f f' lo c) (h' : Unmarked f' f'' (lo + c) c') :
    Unmarked f f'' lo (c + c') := by
  intro x
  rw [h' x, h x, Bool.and_assoc, ← Bool.not_or, ← Bool.decide_or]
  congr 2
  exact decide_eq_decide.2 (by omega)

theorem clear (f : Bytes) (lo : ℕ) : Unmarked f (clearBit f lo) lo 1 := by
  intro x
  rw [bit_clearBit, Bool.and_comm, ← decide_not]
  congr 1
  exact decide_eq_decide.2 (by omega)

theorem byte_eq (h : Unmarked f f' lo c) {y : ℕ} (hy : 8 * y + 8 ≤ lo ∨ lo + c ≤ 8 * y) :
    f' y = f y :=
  eq_of_bits fun x hx => by
    rw [h x, decide_eq_false (by omega), Bool.not_false, Bool.and_true]

theorem wrSect (disk : Bytes) {s : ℕ} (hs : s < 2 ^ 22) (h : Unmarked f f' lo c)
    (hlo : lo + c ≤ 4096) :
    Unmarked (wrSect disk s f) (wrSect disk s f') (4096 * s + lo) c := by
  intro x
  rw [bit_wrSect hs, bit_wrSect hs]
  by_cases hx : 4096 * s ≤ x ∧ x < 4096 * s + 4096
  · rw [if_pos hx, if_pos hx, h]
    congr 2
    exact decide_eq_decide.2 (by omega)
  · rw [if_neg hx, if_neg hx, decide_eq_false (by omega), Bool.not_false, Bool.and_true]

/-- A byte is masked: the bits below `c` are cleared. -/
theorem put_and (f : Bytes) (j : ℕ) {c : ℕ} (hc : c ≤ 8) :
    Unmarked f (put f j (f j &&& 0xFF <<< c)) (8 * j) c := by
  have hmask : ∀ c ≤ 8, ∀ i < 8, (((0xFF <<< c : ℕ) : Byte)).getLsbD i = ! decide (i < c) := by
    decide
  intro x
  unfold bit put
  by_cases hx : x / 8 = j
  · rw [if_pos hx, BitVec.getLsbD_and, hmask c hc _ (Nat.mod_lt _ (by decide)), hx]
    congr 2
    exact decide_eq_decide.2 (by omega)
  · rw [if_neg hx, decide_eq_false (by omega), Bool.not_false, Bool.and_true]

end Unmarked

/-! ## The inode map -/

theorem firstClear_ok {f : Bytes} {j : ℕ} (h : f j ≠ 0xFF) :
    firstClear f j < 8 ∧ bit f (8 * j + firstClear f j) = false ∧
      ∀ x < firstClear f j, bit f (8 * j + x) = true := by
  unfold firstClear
  cases hf : (List.range 8).find? fun k => bit f (8 * j + k) = false with
  | none =>
    refine absurd (eq_ff_iff.2 fun k hk => ?_) h
    have := List.find?_eq_none.1 hf k (List.mem_range.2 hk)
    simpa using this
  | some k =>
    rw [List.find?_range_eq_some] at hf
    obtain ⟨hbit, hmem, hbefore⟩ := hf
    rw [Option.getD_some]
    exact ⟨List.mem_range.1 hmem, by simpa using hbit, fun x hx => by simpa using hbefore x hx⟩

theorem imapBit_rdSect (disk : Bytes) (k : ℕ) : bit (rdSect disk (1 + 1)) k = imapBit disk k := by
  have hsect : 8 * sectorSize * 2 = 8192 := rfl
  refine bit_congr ?_ (by omega)
  rw [show (1 + 1 : Int) = (2 : ℕ) from rfl, rdSect_apply (by decide)]
  congr 1
  omega

/-- With the first sector of the map full `alloc_imap_bit` returns 0, -/
theorem allocImapBit_full (h0 : fs.sb.nrImapSects ≠ 0)
    (hset : ∀ k < 4096, imapBit fs.disk k = true) : allocImapBit fs = .ok (0, fs) := by
  have hfull : ∀ j ∈ List.range sectorSize, rdSect fs.disk (1 + 1) j = 0xFF := fun j hj => by
    have hj : j < 512 := List.mem_range.1 hj
    refine eq_ff_iff.2 fun k hk => ?_
    rw [imapBit_rdSect]
    exact hset _ (by omega)
  unfold allocImapBit
  dsimp only
  rw [if_neg h0, List.find?_eq_none.2 fun j hj => by simpa using hfull j hj]

/-- and else the smallest number that is not in use, which it marks. -/
theorem allocImapBit_first (h0 : fs.sb.nrImapSects ≠ 0) {k : ℕ} (hk : k < 4096)
    (hclear : imapBit fs.disk k = false) :
    ∃ n disk', allocImapBit fs = .ok (n, { fs with disk := disk' }) ∧ n ≤ k ∧
      (∀ m < n, imapBit fs.disk m = true) ∧ Marked fs.disk disk' (8 * sectorSize * 2 + n) 1 := by
  have hmem : k / 8 ∈ List.range sectorSize :=
    List.mem_range.2 (show k / 8 < 512 by omega)
  have hbyte : ¬ rdSect fs.disk (1 + 1) (k / 8) = 0xFF := fun hff => by
    have hbit := eq_ff_iff.1 hff (k % 8) (by omega)
    rw [imapBit_rdSect, show 8 * (k / 8) + k % 8 = k by omega, hclear] at hbit
    exact Bool.false_ne_true hbit
  unfold allocImapBit
  dsimp only
  rw [if_neg h0]
  cases hf : (List.range sectorSize).find? fun j => rdSect fs.disk (1 + 1) j ≠ 0xFF with
  | none => exact absurd (List.find?_eq_none.1 hf (k / 8) hmem) (by simpa using hbyte)
  | some j =>
    rw [List.find?_range_eq_some] at hf
    obtain ⟨hne, hj, hbefore⟩ := hf
    have hj : j < 512 := List.mem_range.1 hj
    obtain ⟨hlt, hbit, hset⟩ := firstClear_ok (of_decide_eq_true hne)
    have hmark := (Marked.set hbit).wrSect fs.disk (s := 2) (by decide) (by omega)
    have hback : wrSect fs.disk (2 : ℕ) (rdSect fs.disk (2 : ℕ)) = fs.disk :=
      wrSect_rdSect (s := 2) (by decide) fs.disk
    have hfirst : ∀ m < 8 * j + firstClear (rdSect fs.disk (1 + 1)) j,
        imapBit fs.disk m = true := fun m hm => by
      rw [← imapBit_rdSect, show m = 8 * (m / 8) + m % 8 by omega]
      by_cases hmj : m / 8 = j
      · rw [hmj]
        exact hset _ (by omega)
      · have hff : rdSect fs.disk (1 + 1) (m / 8) = 0xFF := by
          simpa using hbefore (m / 8) (by omega)
        exact eq_ff_iff.1 hff _ (by omega)
    refine ⟨_, _, rfl, ?_, hfirst, ?_⟩
    · by_contra hlt'
      rw [hfirst k (by omega)] at hclear
      exact absurd hclear.symm Bool.false_ne_true
    · rw [show ((2 : ℕ) : Int) = 1 + 1 from rfl] at hmark hback
      rwa [hback] at hmark

/-- Unless it returns 0, `alloc_imap_bit` marks a bit of the first sector of the map. -/
theorem allocImapBit_ok {n : ℕ} (h : allocImapBit fs = .ok (n, fs')) :
    n = 0 ∨ n < 4096 ∧ ∃ disk', fs' = { fs with disk := disk' } ∧
      Marked fs.disk disk' (8 * sectorSize * 2 + n) 1 := by
  have h0 : fs.sb.nrImapSects ≠ 0 := fun h0 => by
    unfold allocImapBit at h
    rw [if_pos h0] at h
    exact absurd h (by simp)
  by_cases hset : ∀ k < 4096, imapBit fs.disk k = true
  · rw [allocImapBit_full h0 hset] at h
    exact .inl (Prod.mk.inj (Except.ok.inj h)).1.symm
  · simp only [not_forall] at hset
    obtain ⟨k, hk, hclear⟩ := hset
    obtain ⟨m, disk', hok, hle, -, hmark⟩ := allocImapBit_first h0 hk (by simpa using hclear)
    rw [hok] at h
    obtain ⟨rfl, rfl⟩ := Prod.mk.inj (Except.ok.inj h)
    exact .inr ⟨by omega, disk', rfl, hmark⟩

/-! ## Inodes -/

theorem readInode_congr {f g : Bytes} {a b : ℕ} (h : ∀ i < 16, f (a + i) = g (b + i)) :
    readInode f a = readInode g b := by
  have hword (k : ℕ) (hk : k + 4 ≤ 16) : word f (a + k) = word g (b + k) :=
    word_congr fun i hi => by rw [Nat.add_assoc, h _ (by omega), Nat.add_assoc]
  have h0 := hword 0 (by decide)
  simp only [Nat.add_zero] at h0
  simp only [readInode, h0, hword 4 (by decide), hword 8 (by decide), hword 12 (by decide)]

theorem writeInode_outside {f : Bytes} {off y : ℕ} {x : DiskInode} (h : y < off ∨ off + 16 ≤ y) :
    writeInode f off x y = f y := by
  unfold writeInode
  rw [putWord_outside (by omega), putWord_outside (by omega), putWord_outside (by omega),
    putWord_outside (by omega)]

theorem readInode_writeInode (f : Bytes) (off : ℕ) (x : DiskInode) :
    readInode (writeInode f off x) off = x := by
  unfold readInode writeInode
  rw [word_putWord, word_putWord_of_apart _ _ (by omega), word_putWord_of_apart _ _ (by omega),
    word_putWord_of_apart _ _ (by omega), word_putWord, word_putWord_of_apart _ _ (by omega),
    word_putWord_of_apart _ _ (by omega), word_putWord, word_putWord_of_apart _ _ (by omega),
    word_putWord]

theorem inodePos_eq (hL : Layout sb) (n : ℕ) :
    inodePos sb n = 512 * (3 + sb.nrSmapSects + (n - 1) / 16) + (n - 1) % 16 * 32 := by
  simp only [inodePos, hL.imap, sectorSize, inodeSize]
  omega

section Place

variable {n : ℕ} (hL : Layout sb) (hn : 1 ≤ n)

include hL hn in
theorem inodeBlk_eq : inodeBlk sb n = (3 + sb.nrSmapSects + (n - 1) / 16 : ℕ) := by
  have hsub : (n : Int) - 1 = (n - 1 : ℕ) := by omega
  have hdiv : sectorSize / inodeSize = 16 := rfl
  rw [inodeBlk, hL.imap, hsub, hdiv, Int.tdiv_eq_ediv_of_nonneg (by omega)]
  omega

include hn in
theorem inodeOff_eq : inodeOff n = ((n - 1) % 16 * 32 : ℕ) := by
  have hsub : (n : Int) - 1 = (n - 1 : ℕ) := by omega
  have hdiv : sectorSize / inodeSize = 16 := rfl
  have hsize : inodeSize = 32 := rfl
  rw [inodeOff, hsub, hdiv, hsize, Int.tmod_eq_emod_of_nonneg (by omega)]
  omega

include hL hn in
/-- What is read of the sector of an inode. -/
theorem readInode_rdSect (hn' : n ≤ 4096) :
    readInode (rdSect disk (inodeBlk sb n)) (inodeOff n).toNat = diskInode sb disk n := by
  have hsmall := hL.small
  have hfirst := hL.first
  rw [inodeBlk_eq hL hn, inodeOff_eq hn, Int.toNat_natCast, diskInode, inodePos_eq hL]
  refine readInode_congr fun i hi => ?_
  rw [rdSect_apply (by omega)]
  congr 1
  omega

end Place

theorem syncInode_total {p : Entry} {n : ℕ} (hnum : (fs.inodeTable p).iNum = n) (hn : 1 ≤ n) :
    ∃ fs', syncInode fs p = .ok fs' := by
  unfold syncInode
  dsimp only
  rw [hnum, inodeOff_eq hn, if_neg (by omega)]
  exact ⟨_, rfl⟩

/-- `sync_inode` writes the inode of its number, and nothing else. -/
theorem syncInode_inode {p : Entry} {n : ℕ} (hL : Layout fs.sb)
    (hnum : (fs.inodeTable p).iNum = n) (hn : 1 ≤ n) (hn' : n ≤ 4096)
    (h : syncInode fs p = .ok fs') :
    ∃ disk', fs' = { fs with disk := disk' } ∧
      diskInode fs.sb disk' n = (fs.inodeTable p).toDiskInode ∧
      ∀ y, y < inodePos fs.sb n ∨ inodePos fs.sb n + 16 ≤ y → disk' y = fs.disk y := by
  have hsmall := hL.small
  have hfirst := hL.first
  have hlt : 3 + fs.sb.nrSmapSects + (n - 1) / 16 < 2 ^ 22 := by omega
  unfold syncInode at h
  dsimp only at h
  rw [hnum, inodeOff_eq hn, inodeBlk_eq hL hn, if_neg (by omega), Int.toNat_natCast] at h
  refine ⟨_, (Except.ok.inj h).symm, ?_, fun y hy => ?_⟩
  · rw [diskInode, inodePos_eq hL]
    refine (readInode_congr fun i hi => ?_).trans (readInode_writeInode
      (rdSect fs.disk (3 + fs.sb.nrSmapSects + (n - 1) / 16 : ℕ)) ((n - 1) % 16 * 32) _)
    rw [wrSect_apply hlt, if_pos (by omega)]
    congr 1
    omega
  · rw [inodePos_eq hL] at hy
    rw [wrSect_apply hlt]
    split_ifs with hin
    · rw [writeInode_outside (by omega), rdSect_apply hlt]
      congr 1
      omega
    · rfl

/-! ## What is kept of the maps and the inodes -/

section Congr

variable {n b : ℕ}

theorem imapBit_congr (h : ∀ y < 512 * 3, disk' y = disk y) (hn : n < 4096) :
    imapBit disk' n = imapBit disk n := by
  have hsect : 8 * sectorSize * 2 = 8192 := rfl
  exact bit_congr (h _ (by omega)) rfl

theorem smapBit_congr (hL : Layout sb) (h : ∀ y < 512 * (3 + sb.nrSmapSects), disk' y = disk y)
    (hb : b < 4096 * sb.nrSmapSects) : smapBit sb disk' b = smapBit sb disk b := by
  have hsect : 8 * sectorSize = 4096 := rfl
  have himap := hL.imap
  exact bit_congr (h _ (by rw [hsect, himap]; omega)) rfl

theorem diskInode_congr
    (h : ∀ y, inodePos sb n ≤ y → y < inodePos sb n + 16 → disk' y = disk y) :
    diskInode sb disk' n = diskInode sb disk n :=
  readInode_congr fun i hi => h _ (by omega) (by omega)

/-- The inodes lie behind the maps, and before the first sector of files. -/
theorem inodePos_bounds (hL : Layout sb) (hn : 1 ≤ n) (hn' : n ≤ 4096) :
    512 * (3 + sb.nrSmapSects) ≤ inodePos sb n ∧ inodePos sb n + 16 ≤ 512 * sb.n1stSect := by
  have hfirst := hL.first
  rw [inodePos_eq hL]
  omega

theorem inodePos_apart (hL : Layout sb) {k : ℕ} (hn : 1 ≤ n) (hk : 1 ≤ k) (hne : k ≠ n) :
    inodePos sb k + 16 ≤ inodePos sb n ∨ inodePos sb n + 16 ≤ inodePos sb k := by
  rw [inodePos_eq hL, inodePos_eq hL]
  omega

/-! A row of bits that is marked: that of an inode, or those of sectors. -/

variable {c : ℕ}

theorem imapBit_inode (h : Marked disk disk' (8 * sectorSize * 2 + n) 1) (k : ℕ) :
    imapBit disk' k = (imapBit disk k || decide (k = n)) := by
  unfold imapBit
  rw [h.bit_eq]
  congr 1
  exact decide_eq_decide.2 (by omega)

theorem imapBit_sects {k : ℕ} (h : Marked disk disk' (4096 * 3 + b) c) (hk : k < 4096) :
    imapBit disk' k = imapBit disk k := by
  have hsect : 8 * sectorSize * 2 = 8192 := rfl
  unfold imapBit
  rw [h.bit_eq, decide_eq_false (by omega), Bool.or_false]

theorem smapBit_inode (hL : Layout sb) (h : Marked disk disk' (8 * sectorSize * 2 + n) 1)
    (hn : n < 4096) (k : ℕ) : smapBit sb disk' k = smapBit sb disk k := by
  have hsect : 8 * sectorSize * 2 = 8192 := rfl
  rw [smapBit_eq hL, smapBit_eq hL, h.bit_eq, decide_eq_false (by omega), Bool.or_false]

theorem smapBit_sects (hL : Layout sb) (h : Marked disk disk' (4096 * 3 + b) c) (k : ℕ) :
    smapBit sb disk' k = (smapBit sb disk k || decide (b ≤ k ∧ k < b + c)) := by
  rw [smapBit_eq hL, smapBit_eq hL, h.bit_eq]
  congr 1
  exact decide_eq_decide.2 (by omega)

/-- The inodes are not among them. -/
theorem diskInode_marked {lo : ℕ} (hL : Layout sb) (h : Marked disk disk' lo c)
    (hlo : lo + c ≤ 4096 * (3 + sb.nrSmapSects)) (hn : 1 ≤ n) (hn' : n < 4096) :
    diskInode sb disk' n = diskInode sb disk n := by
  have hpos := inodePos_bounds hL hn hn'.le
  exact diskInode_congr fun y hy hy' => h.byte_eq (by omega)

end Congr

/-! ## Writing to files -/

theorem le_sectPos {s : ℕ} (hs : s < 2 ^ 23) : 512 * s ≤ sectPos s := by
  rcases Nat.lt_or_ge s (2 ^ 22) with hlt | hge
  · rw [sectPos_of_lt hlt, Nat.mul_comm]
  · unfold sectPos
    have hprod : BitVec.ofInt 32 ((s : Int) * sectorSize) = BitVec.ofNat 32 (s * 512) := by
      rw [show ((s : Int) * sectorSize) = ((s * 512 : ℕ) : Int) by simp [sectorSize],
        BitVec.ofInt_natCast]
    have hmsb : (BitVec.ofNat 32 (s * 512)).msb = true := by
      rw [BitVec.msb_eq_decide, BitVec.toNat_ofNat, Nat.mod_eq_of_lt (by omega)]
      exact decide_eq_true (by omega)
    rw [hprod, BitVec.toNat_setWidth, BitVec.toNat_ushiftRight, BitVec.toNat_signExtend, hmsb,
      BitVec.toNat_setWidth, BitVec.toNat_ofNat, Nat.shiftRight_eq_div_pow, if_pos rfl]
    simp only [sectorSize]
    omega

theorem wrSect_below {s k y : ℕ} {f : Bytes} (hk : k ≤ s) (hs : s < 2 ^ 23) (hy : y < 512 * k) :
    wrSect disk s f y = disk y :=
  blit_outside (.inl (by have := le_sectPos hs; omega))

/-- A turn lies in the sectors of files, where it moves anything. -/
def RdwtTurn.Behind (first : ℕ) (t : RdwtTurn) : Prop :=
  t.bytes ≠ 0 → (first : Int) ≤ t.sect ∧ t.sect < 2 ^ 23

instance (first : ℕ) (t : RdwtTurn) : Decidable (t.Behind first) :=
  inferInstanceAs (Decidable (_ → _))

theorem writeTurn_below {user : Addr → Byte} {buf : Addr} {chunk : Int} {t : RdwtTurn} {k y : ℕ}
    (ht : t.Behind k) (hy : y < 512 * k) (h : writeTurn user buf chunk disk t = .ok disk') :
    disk' y = disk y := by
  unfold writeTurn at h
  split_ifs at h with hneg
  obtain rfl := Except.ok.inj h
  by_cases hin : sectPos t.sect ≤ y ∧ y < sectPos t.sect + (chunk * sectorSize).toNat
  · have hnone : t.bytes = 0 := by
      by_contra hne
      obtain ⟨hk, hlt⟩ := ht hne
      obtain ⟨s, hs⟩ := Int.eq_ofNat_of_zero_le (show 0 ≤ t.sect by omega)
      have := le_sectPos (s := s) (by omega)
      rw [hs] at hin hk
      omega
    unfold blit
    rw [if_pos hin, hnone, if_neg (by simp), from_apply]
    congr 1
    omega
  · exact if_neg hin

theorem rdwtDisk_below {user : Addr → Byte} {buf : Addr} {isRead : Bool} {chunk : Int}
    {turns : List RdwtTurn} {k y : ℕ} (ht : isRead = false → ∀ t ∈ turns, t.Behind k)
    (hy : y < 512 * k) (h : rdwtDisk user buf isRead disk chunk turns = .ok disk') :
    disk' y = disk y := by
  unfold rdwtDisk at h
  split_ifs at h with hread
  · obtain ⟨u, -, h⟩ := bind_eq_ok.1 h
    rw [Except.ok.inj h]
  · have ht := ht (by simpa using hread)
    induction turns generalizing disk with
    | nil => rw [Except.ok.inj h]
    | cons t l ih =>
      rw [List.foldlM_cons] at h
      obtain ⟨disk₁, h₁, h⟩ := bind_eq_ok.1 h
      rw [List.forall_mem_cons] at ht
      rw [ih (fun _ => ht.2) h ht.2, writeTurn_below ht.1 hy h₁]

end MyOS
