import MyOS.Boot
import Mathlib.Tactic.Ring

/-!
# What the boot sector and the loader load

A FAT entry is one and a half bytes, so that two sectors hold it wherever it starts, and a cluster's
number leads to the entry that holds the next one. A turn of the loop reads a cluster to the next
512 bytes, and the stack keeps its number meanwhile. The loop knows one end of a chain only: what
follows every other mark is taken for a sector, which is not on the disk.
-/

namespace MyOS

open Memory Block

/-! ## The disk -/

def sectorsPerTrack : ℕ := 18
def numHeads : ℕ := 2
def numCylinders : ℕ := 80
def totSec : ℕ := 2880

namespace DiskRead

/-- The first of the sectors, counted over the whole disk. -/
def lba (r : DiskRead) : ℕ :=
  (r.ch.toNat * numHeads + r.dh.toNat) * sectorsPerTrack + (r.cl.toNat - 1)

def addr (r : DiskRead) : ℕ := linearAddr r.es r.bx

def size (r : DiskRead) : ℕ := 512 * r.al.toNat

/-- Sectors of one track of the disk, to memory that is not on both sides of a 64K boundary. -/
structure Valid (r : DiskRead) : Prop where
  some : 0 < r.al.toNat
  first : 0 < r.cl.toNat
  last : r.cl.toNat - 1 + r.al.toNat ≤ sectorsPerTrack
  cylinder : r.ch.toNat < numCylinders
  head : r.dh.toNat < numHeads
  drive : r.dl = bsDrvNum
  boundary : r.addr % 0x10000 + r.size ≤ 0x10000

end DiskRead

/-- What is documented about `int 13h`: a read changes nothing but the buffer, and one that is right
succeeds within a number of tries, while another fails. -/
structure BiosWorks (bios : Bios) (disk : Bytes) (tries : ℕ) : Prop where
  frame : ∀ k r mem x, x < r.addr ∨ r.addr + r.size ≤ x → (bios k r mem).2 x = mem x
  reads : ∀ k r mem, r.Valid → (bios k r mem).1 = false →
    ∀ j < r.size, (bios k r mem).2 (r.addr + j) = disk (512 * r.lba + j)
  succeeds : ∀ r, r.Valid → ∃ k < tries, ∀ mem, (bios k r mem).1 = false
  fails : ∀ k r mem, ¬ r.Valid → (bios k r mem).1 = true

theorem goOnReading_succ (bios : Bios) (r : DiskRead) (n k : ℕ) (mem : Bytes) :
    goOnReading bios r (n + 1) k mem = if (bios k r mem).1 then
      goOnReading bios r n (k + 1) (bios k r mem).2 else .ok (bios k r mem).2 := rfl

section Reads

variable {bios : Bios} {disk : Bytes} {tries n : ℕ} {r : DiskRead} {mem : Bytes}
  (hb : BiosWorks bios disk tries)

include hb

theorem goOnReading_spin (hr : ¬ r.Valid) : ∀ {n k : ℕ} {mem : Bytes},
    goOnReading bios r n k mem = .error .spin
  | 0, _, _ => rfl
  | n + 1, k, mem => by
    rw [goOnReading_succ, if_pos (hb.fails k r mem hr), goOnReading_spin hr]

/-- The tries end with the one that succeeds. -/
theorem goOnReading_ok (hr : r.Valid) : ∀ {n k t : ℕ} {mem : Bytes}, k ≤ t → t < k + n →
    (∀ mem, (bios t r mem).1 = false) →
      goOnReading bios r n k mem = .ok (blit mem r.addr r.size (from_ disk (512 * r.lba)))
  | 0, _, _, _, hkt, ht, _ => by omega
  | n + 1, k, t, mem, hkt, ht, hsucc => by
    rw [goOnReading_succ]
    cases hc : (bios k r mem).1 with
    | true =>
      have hne : k ≠ t := by
        rintro rfl
        rw [hsucc] at hc
        cases hc
      rw [if_pos rfl, goOnReading_ok hr (t := t) (by omega) (by omega) hsucc]
      congr 1
      funext x
      unfold blit
      split_ifs with hx
      · rfl
      · exact hb.frame k r mem x (by omega)
    | false =>
      rw [if_neg Bool.false_ne_true]
      congr 1
      funext x
      unfold blit
      split_ifs with hx
      · have := hb.reads k r mem hr hc (x - r.addr) (by omega)
        rwa [Nat.add_sub_cancel' hx.1] at this
      · exact hb.frame k r mem x (by omega)

end Reads

/-! ## Sectors -/

/-- The request for `c` sectors from sector `s` on. -/
def sectorRead (s : ℕ) (c : Byte) (es bx : BitVec 16) : DiskRead where
  al := c
  ch := BitVec.ofNat 8 (s / 36)
  cl := BitVec.ofNat 8 (s % 18 + 1)
  dh := BitVec.ofNat 8 (s / 18 % 2)
  dl := bsDrvNum
  es := es
  bx := bx

variable {s : ℕ} {c : Byte} {es bx : BitVec 16}

theorem sectorRead_lba (hs : s < 4608) : (sectorRead s c es bx).lba = s := by
  have hch : (BitVec.ofNat 8 (s / 36)).toNat = s / 36 := Nat.mod_eq_of_lt (by omega)
  have hcl : (BitVec.ofNat 8 (s % 18 + 1)).toNat = s % 18 + 1 := Nat.mod_eq_of_lt (by omega)
  have hdh : (BitVec.ofNat 8 (s / 18 % 2)).toNat = s / 18 % 2 := Nat.mod_eq_of_lt (by omega)
  rw [DiskRead.lba, sectorRead, hch, hcl, hdh, numHeads, sectorsPerTrack]
  omega

theorem sectorRead_valid (hc : 0 < c.toNat) (hlast : s % 18 + c.toNat ≤ 18) (hs : s < totSec)
    (hfit : linearAddr es bx % 0x10000 + 512 * c.toNat ≤ 0x10000) :
    (sectorRead s c es bx).Valid := by
  have htot : totSec = 2880 := rfl
  have hch : (BitVec.ofNat 8 (s / 36)).toNat = s / 36 := Nat.mod_eq_of_lt (by omega)
  have hcl : (BitVec.ofNat 8 (s % 18 + 1)).toNat = s % 18 + 1 := Nat.mod_eq_of_lt (by omega)
  have hdh : (BitVec.ofNat 8 (s / 18 % 2)).toNat = s / 18 % 2 := Nat.mod_eq_of_lt (by omega)
  have hcyl : numCylinders = 80 := rfl
  have htrk : sectorsPerTrack = 18 := rfl
  have hheads : numHeads = 2 := rfl
  constructor
  · exact hc
  · exact hcl ▸ Nat.succ_pos _
  · show (BitVec.ofNat 8 (s % 18 + 1)).toNat - 1 + c.toNat ≤ _
    omega
  · show (BitVec.ofNat 8 (s / 36)).toNat < _
    omega
  · show (BitVec.ofNat 8 (s / 18 % 2)).toNat < _
    omega
  · rfl
  · exact hfit

/-- There is no sector behind the last one. -/
theorem sectorRead_not_valid (hs : totSec ≤ s) (hs' : s < 4608) :
    ¬ (sectorRead s c es bx).Valid := by
  intro h
  have htot : totSec = 2880 := rfl
  have hcyl : numCylinders = 80 := rfl
  have hch : (BitVec.ofNat 8 (s / 36)).toNat = s / 36 := Nat.mod_eq_of_lt (by omega)
  have : (BitVec.ofNat 8 (s / 36)).toNat < _ := h.cylinder
  omega

/-- `ReadSector` asks for the sector in `ax`. -/
theorem readSector_eq (bios : Bios) (n : ℕ) {m : Boot} (hax : m.ax = BitVec.ofNat 16 s)
    (hs : s < 4608) : ∃ ax cx dx, readSector bios n m =
      goOnReading bios (sectorRead s (m.cx.setWidth 8) m.es m.bx) n 0 m.mem >>= fun mem =>
        .ok { m with ax, cx, dx, mem,
                     reads := m.reads ++ [sectorRead s (m.cx.setWidth 8) m.es m.bx] } := by
  have hax' : m.ax.toNat = s := by
    rw [hax, BitVec.toNat_ofNat]
    exact Nat.mod_eq_of_lt (by omega)
  have hdiv : (m.ax / bpbSecPerTrk.setWidth 16).toNat = s / 18 := by
    rw [BitVec.toNat_udiv, hax']
    rfl
  have hmod : (m.ax % bpbSecPerTrk.setWidth 16).toNat = s % 18 := by
    rw [BitVec.toNat_umod, hax']
    rfl
  have hal : ((m.ax / bpbSecPerTrk.setWidth 16).setWidth 8).toNat = s / 18 := by
    rw [BitVec.toNat_setWidth, hdiv]
    exact Nat.mod_eq_of_lt (by omega)
  have hch : (m.ax / bpbSecPerTrk.setWidth 16).setWidth 8 >>> 1 = BitVec.ofNat 8 (s / 36) := by
    refine BitVec.eq_of_toNat_eq ?_
    rw [BitVec.toNat_ushiftRight, hal, BitVec.toNat_ofNat, Nat.shiftRight_eq_div_pow]
    omega
  have hdh : (m.ax / bpbSecPerTrk.setWidth 16).setWidth 8 &&& 1 = BitVec.ofNat 8 (s / 18 % 2) := by
    refine BitVec.eq_of_toNat_eq ?_
    rw [BitVec.toNat_and, hal, BitVec.toNat_ofNat, show (1 : Byte).toNat = 1 from rfl,
      Nat.and_one_is_mod]
    omega
  have hcl : (m.ax % bpbSecPerTrk.setWidth 16).setWidth 8 + 1 = BitVec.ofNat 8 (s % 18 + 1) := by
    refine BitVec.eq_of_toNat_eq ?_
    rw [BitVec.toNat_add, BitVec.toNat_setWidth, hmod, BitVec.toNat_ofNat,
      show (1 : Byte).toNat = 1 from rfl]
    omega
  rw [readSector]
  dsimp only
  rw [if_neg (by omega), hch, hdh, hcl]
  exact ⟨_, _, _, rfl⟩

/-- A sector that is there is read. -/
theorem readSector_ok {bios : Bios} {disk : Bytes} {tries n : ℕ} (hb : BiosWorks bios disk tries)
    (hn : tries ≤ n) {m : Boot} (hax : m.ax = BitVec.ofNat 16 s) (hcx : m.cx.setWidth 8 = c)
    (hc : 0 < c.toNat) (hlast : s % 18 + c.toNat ≤ 18) (hs : s < totSec)
    (hfit : linearAddr m.es m.bx % 0x10000 + 512 * c.toNat ≤ 0x10000) :
    ∃ ax cx dx, readSector bios n m = .ok
      { m with ax, cx, dx,
               mem := blit m.mem (linearAddr m.es m.bx) (512 * c.toNat) (from_ disk (512 * s)),
               reads := m.reads ++ [sectorRead s c m.es m.bx] } := by
  have htot : totSec = 2880 := rfl
  have hvalid := sectorRead_valid hc hlast hs hfit
  obtain ⟨ax, cx, dx, hread⟩ := readSector_eq bios n hax (by omega)
  obtain ⟨t, ht, hsucc⟩ := hb.succeeds _ hvalid
  refine ⟨ax, cx, dx, ?_⟩
  rw [hread, hcx, goOnReading_ok hb hvalid (Nat.zero_le t) (by omega) hsucc,
    sectorRead_lba (by omega), ok_bind]
  rfl

/-- Where there is none, or the buffer is on a boundary, the tries never end. -/
theorem readSector_spin {bios : Bios} {disk : Bytes} {tries n : ℕ} (hb : BiosWorks bios disk tries)
    {m : Boot} (hax : m.ax = BitVec.ofNat 16 s) (hs : s < 4608)
    (hr : ¬ (sectorRead s (m.cx.setWidth 8) m.es m.bx).Valid) :
    readSector bios n m = .error .spin := by
  obtain ⟨ax, cx, dx, hread⟩ := readSector_eq bios n hax hs
  rw [hread, goOnReading_spin hb hr]
  rfl

/-! ## Entries of the FAT -/

/-- The twelve bits at one and a half bytes for each cluster, in the first FAT. -/
def fatEntry (disk : Bytes) (c : ℕ) : ℕ :=
  let w := (disk (512 + 3 * c / 2)).toNat + 256 * (disk (512 + 3 * c / 2 + 1)).toNat
  if c % 2 = 1 then w / 16 else w % 0x1000

theorem word16_toNat (mem : Bytes) (a : ℕ) :
    (word16 mem a).toNat = (mem a).toNat + 256 * (mem (a + 1)).toNat := by
  have h1 := (mem a).isLt
  rw [word16, BitVec.toNat_append, ← Nat.shiftLeft_add_eq_or_of_lt h1, Nat.shiftLeft_eq]
  omega

theorem fatEntry_lt (disk : Bytes) (c : ℕ) : fatEntry disk c < 0x1000 := by
  have h1 := (disk (512 + 3 * c / 2)).isLt
  have h2 := (disk (512 + 3 * c / 2 + 1)).isLt
  rw [fatEntry]
  split_ifs <;> omega

/-- What is made of a word that holds an entry. -/
theorem entry_of_word {disk : Bytes} {c : ℕ} {w : BitVec 16} {bOdd : Byte}
    (hw : w = word16 disk (512 + 3 * c / 2)) (hodd : bOdd = if c % 2 = 1 then 1 else 0) :
    (if bOdd = 1 then w >>> 4 else w) &&& 0xFFF = BitVec.ofNat 16 (fatEntry disk c) := by
  have hmask : (0xFFF : BitVec 16).toNat = 2 ^ 12 - 1 := rfl
  have hlt := fatEntry_lt disk c
  have h1 := (disk (512 + 3 * c / 2)).isLt
  have h2 := (disk (512 + 3 * c / 2 + 1)).isLt
  refine BitVec.eq_of_toNat_eq ?_
  rw [BitVec.toNat_and, hmask, Nat.and_two_pow_sub_one_eq_mod, BitVec.toNat_ofNat,
    Nat.mod_eq_of_lt (a := fatEntry disk c) (by omega), fatEntry]
  by_cases hc : c % 2 = 1
  · rw [if_pos hc] at hodd ⊢
    rw [hodd, if_pos rfl, hw, BitVec.toNat_ushiftRight, word16_toNat, Nat.shiftRight_eq_div_pow]
    omega
  · rw [if_neg hc] at hodd ⊢
    rw [hodd, if_neg (by decide), hw, word16_toNat]

namespace Boot

variable {m : Boot}

theorem setCl_low (v : Byte) : (m.setCl v).cx.setWidth 8 = v := by
  have hv := v.isLt
  refine BitVec.eq_of_toNat_eq ?_
  rw [setCl, BitVec.toNat_setWidth, BitVec.toNat_append, ← Nat.shiftLeft_add_eq_or_of_lt hv,
    Nat.shiftLeft_eq]
  omega

@[simp] theorem pop_push (v : BitVec 16) : (m.push v).pop = .ok (v, m) := rfl

theorem mulBx_eq {a b : ℕ} (ha : m.ax.toNat = a) (hb : m.bx.toNat = b) (h : a * b < 0x10000) :
    m.mulBx = { m with ax := BitVec.ofNat 16 (a * b), dx := 0 } := by
  rw [mulBx, ha, hb, Nat.div_eq_of_lt h]
  rfl

theorem divBx_eq {a b : ℕ} (ha : m.ax.toNat = a) (hb : m.bx.toNat = b) (hpos : 0 < b)
    (hdx : m.dx = 0) : m.divBx =
      .ok { m with ax := BitVec.ofNat 16 (a / b), dx := BitVec.ofNat 16 (a % b) } := by
  have hle : a / b < 0x10000 := (Nat.div_le_self _ _).trans_lt (ha ▸ m.ax.isLt)
  have hbx : m.bx ≠ 0 := by
    intro h
    rw [h] at hb
    exact hpos.ne hb
  have hzero : m.dx.toNat * 0x10000 + a = a := by
    rw [hdx]
    exact Nat.zero_add _
  rw [divBx, ha, hb, hzero, if_neg (not_or.2 ⟨hbx, by omega⟩)]

end Boot

/-- The place two sectors of the FAT are read to. -/
def fatBuf (seg : BitVec 16) : ℕ := linearAddr (seg - 0x100) 0

/-- The sector an entry starts in. -/
def fatSector (c : ℕ) : ℕ := 3 * c / 2 / 512 + 1

theorem locateEntry_ok (seg : BitVec 16) {c : ℕ} {m : Boot} (hax : m.ax = BitVec.ofNat 16 c)
    (hc : c ≤ 2848) : ∃ cx : BitVec 16, cx.setWidth 8 = (2 : Byte) ∧ locateEntry seg m = .ok
      { m with ax := BitVec.ofNat 16 (fatSector c), bx := 0, cx,
               dx := BitVec.ofNat 16 (3 * c / 2 % 512), es := seg - 0x100,
               stack := BitVec.ofNat 16 (3 * c / 2 % 512) :: m.bx :: m.es :: m.stack,
               bOdd := if c % 2 = 1 then 1 else 0 } := by
  have hax' : m.ax.toNat = c := by
    rw [hax, BitVec.toNat_ofNat]
    exact Nat.mod_eq_of_lt (by omega)
  have hthree : (BitVec.ofNat 16 (c * 3)).toNat = 3 * c := by
    rw [BitVec.toNat_ofNat]
    omega
  have hhalf : (BitVec.ofNat 16 (3 * c / 2)).toNat = 3 * c / 2 := by
    rw [BitVec.toNat_ofNat]
    omega
  have hsector : BitVec.ofNat 16 (3 * c / 2 / 512) + sectorNoOfFAT1 =
      BitVec.ofNat 16 (fatSector c) := BitVec.ofNat_add (3 * c / 2 / 512) 1 |>.symm
  have hrem : BitVec.ofNat 16 (3 * c % 2) = 0 ↔ c % 2 = 0 := by
    rw [← BitVec.toNat_inj, BitVec.toNat_ofNat, show (0 : BitVec 16).toNat = 0 from rfl]
    omega
  refine ⟨(m.setCl 2).cx, m.setCl_low 2, ?_⟩
  · rw [locateEntry, Boot.pop]
    dsimp only [Boot.push]
    rw [ok_bind]
    dsimp only
    rw [Boot.mulBx_eq (a := c) (b := 3) ?_ ?_ (by omega)]
    · dsimp only
      rw [Boot.divBx_eq (a := 3 * c) (b := 2) ?_ ?_ (by decide) ?_, ok_bind]
      · dsimp only
        rcases Nat.mod_two_eq_zero_or_one c with hodd | hodd
        · rw [if_pos (hrem.2 hodd),
            Boot.divBx_eq (a := 3 * c / 2) (b := 512) hhalf rfl (by decide) rfl, ok_bind,
            if_neg (by omega)]
          dsimp only
          rw [hsector]
          rfl
        · rw [if_neg (mt hrem.1 (by omega)),
            Boot.divBx_eq (a := 3 * c / 2) (b := 512) hhalf rfl (by decide) rfl, ok_bind,
            if_pos hodd]
          dsimp only
          rw [hsector]
          rfl
      · exact hthree
      · rfl
      · rfl
    · exact hax'
    · rfl

/-- A word across two sectors of the disk that are in memory. -/
theorem word16_blit {mem disk : Bytes} {a n p d : ℕ} (hd : d + 1 < n) :
    word16 (blit mem a n (from_ disk p)) (a + d) = word16 disk (p + d) := by
  rw [word16, word16, Nat.add_assoc a, blit_inside (by omega), blit_inside (by omega), from_apply,
    from_apply, Nat.add_assoc]

theorem takeEntry_ok {m : Boot} {dx bx es : BitVec 16} {stack : List (BitVec 16)}
    (hstack : m.stack = dx :: bx :: es :: stack) (hbx : m.bx = 0) : takeEntry m = .ok
      { m with ax := (if m.bOdd = 1 then word16 m.mem (linearAddr m.es dx) >>> 4
                 else word16 m.mem (linearAddr m.es dx)) &&& 0xFFF,
               bx, dx, es, stack } := by
  obtain ⟨ax', bx', cx', dx', es', stack', bOdd, mem, reads⟩ := m
  dsimp only at hstack hbx
  subst hstack hbx
  have hzero : (0 : BitVec 16) + dx = dx := BitVec.zero_add dx
  simp only [takeEntry, Boot.pop, ok_bind, hzero]
  split_ifs <;> rfl

/-- `GetFATEntry` finds the entry of every cluster. -/
theorem getFATEntry_ok {bios : Bios} {disk : Bytes} {tries n c : ℕ} {seg : BitVec 16} {m : Boot}
    (hb : BiosWorks bios disk tries) (hn : tries ≤ n)
    (hfit : fatBuf seg % 0x10000 + 1024 ≤ 0x10000) (hax : m.ax = BitVec.ofNat 16 c)
    (hc : c ≤ 2848) : ∃ cx dx bOdd, getFATEntry bios n seg m = .ok
      { m with ax := BitVec.ofNat 16 (fatEntry disk c), cx, dx, bOdd,
               mem := blit m.mem (fatBuf seg) 1024 (from_ disk (512 * fatSector c)),
               reads := m.reads ++ [sectorRead (fatSector c) 2 (seg - 0x100) 0] } := by
  have htot : totSec = 2880 := rfl
  have htwo : (2 : Byte).toNat = 2 := rfl
  have hsec : fatSector c ≤ 9 := by
    rw [fatSector]
    omega
  have haddr : linearAddr (seg - 0x100) (BitVec.ofNat 16 (3 * c / 2 % 512)) =
      fatBuf seg + 3 * c / 2 % 512 := by
    rw [fatBuf, linearAddr, linearAddr, BitVec.toNat_ofNat, Nat.mod_eq_of_lt (by omega)]
    rfl
  have hpos : 512 * fatSector c + 3 * c / 2 % 512 = 512 + 3 * c / 2 := by
    rw [fatSector]
    omega
  have hword : word16 (blit m.mem (fatBuf seg) 1024 (from_ disk (512 * fatSector c)))
      (linearAddr (seg - 0x100) (BitVec.ofNat 16 (3 * c / 2 % 512))) =
        word16 disk (512 + 3 * c / 2) := by
    rw [haddr, word16_blit (by omega), hpos]
  obtain ⟨cx, hcx, hlocate⟩ := locateEntry_ok seg hax hc
  obtain ⟨ax', cx', dx', hread⟩ := readSector_ok hb hn
    (m := { m with ax := BitVec.ofNat 16 (fatSector c), bx := 0, cx,
                   dx := BitVec.ofNat 16 (3 * c / 2 % 512), es := seg - 0x100,
                   stack := BitVec.ofNat 16 (3 * c / 2 % 512) :: m.bx :: m.es :: m.stack,
                   bOdd := if c % 2 = 1 then 1 else 0 })
    rfl hcx (by decide) (by omega) (by omega) (by exact hfit)
  refine ⟨cx', BitVec.ofNat 16 (3 * c / 2 % 512), if c % 2 = 1 then 1 else 0, ?_⟩
  rw [getFATEntry, hlocate, ok_bind, hread, ok_bind, takeEntry_ok rfl rfl,
    ← entry_of_word hword rfl]
  rfl

/-! ## A turn of the loop -/

/-- The sector of a cluster: behind the boot sector, two FATs and the root directory. -/
def clusterSector (c : ℕ) : ℕ := 1 + 2 * 9 + 14 + (c - 2)

/-- A number that stands for a cluster of the disk. -/
def IsCluster (c : ℕ) : Prop := 2 ≤ c ∧ c ≤ 2848

/-- Where the loop puts the blocks of a file: how many have room, and where they are. -/
structure BlockLayout (seg : BitVec 16) (addBx : Boot → Boot) where
  place : ℕ → BitVec 16 × BitVec 16
  base : ℕ
  room : ℕ
  addr : ∀ i < room, linearAddr (place i).1 (place i).2 = base + 512 * i
  fits : ∀ i < room, linearAddr (place i).1 (place i).2 % 0x10000 + 512 ≤ 0x10000
  next : ∀ i < room, ∀ m : Boot, m.es = (place i).1 → m.bx = (place i).2 →
    addBx m = { m with es := (place (i + 1)).1, bx := (place (i + 1)).2 }
  fatBuf_fits : fatBuf seg % 0x10000 + 1024 ≤ 0x10000
  fatBuf_below : fatBuf seg + 1024 ≤ base

section Loop

variable {bios : Bios} {disk : Bytes} {tries k : ℕ} {seg : BitVec 16} {addBx : Boot → Boot}
  {L : BlockLayout seg addBx} {stack : List (BitVec 16)}

/-- The loop is about to read the cluster that is on the stack, to the block `i`. -/
structure At (L : BlockLayout seg addBx) (i c : ℕ) (stack : List (BitVec 16)) (m : Boot) :
    Prop where
  ax : m.ax = BitVec.ofNat 16 (c + 31)
  es : m.es = (L.place i).1
  bx : m.bx = (L.place i).2
  stack : m.stack = BitVec.ofNat 16 c :: stack

/-- What a turn leaves, where the entry of the cluster is `ax`. -/
structure TurnDone (L : BlockLayout seg addBx) (disk : Bytes) (i c : ℕ)
    (stack : List (BitVec 16)) (m m₁ : Boot) : Prop where
  ax : m₁.ax = BitVec.ofNat 16 (fatEntry disk c)
  es : m₁.es = (L.place i).1
  bx : m₁.bx = (L.place i).2
  stack : m₁.stack = stack
  mem : m₁.mem = blit (blit m.mem (L.base + 512 * i) 512 (from_ disk (512 * (c + 31))))
    (fatBuf seg) 1024 (from_ disk (512 * fatSector c))
  reads : m₁.reads = m.reads ++ [sectorRead (c + 31) 1 (L.place i).1 (L.place i).2] ++
    [sectorRead (fatSector c) 2 (seg - 0x100) 0]

theorem goonLoadingFile_turn (hb : BiosWorks bios disk tries) (hk : tries ≤ k) {i c : ℕ} {m : Boot}
    (hi : i < L.room) (hc : IsCluster c) (hm : At L i c stack m) :
    ∃ m₁, TurnDone L disk i c stack m m₁ ∧ ∀ n, goonLoadingFile bios k seg addBx (n + 1) m =
      if m₁.ax = 0xFFF then .ok m₁
      else goonLoadingFile bios k seg addBx n (addBx (nextSector m₁)) := by
  have htot : totSec = 2880 := rfl
  have hone : (1 : Byte).toNat = 1 := rfl
  obtain ⟨hlo, hhi⟩ := hc
  have haddr : linearAddr m.es m.bx = L.base + 512 * i := by
    rw [hm.es, hm.bx, L.addr i hi]
  have hfits : linearAddr m.es m.bx % 0x10000 + 512 ≤ 0x10000 := by
    rw [hm.es, hm.bx]
    exact L.fits i hi
  obtain ⟨ax, cx, dx, hread⟩ := readSector_ok hb hk (m := m.setCl 1) hm.ax (m.setCl_low 1)
    (by decide) (by omega) (by omega) hfits
  obtain ⟨m₁, hentry, hdone⟩ : ∃ m₁, getFATEntry bios k seg
      { m with ax := BitVec.ofNat 16 c, cx, dx, stack,
               mem := blit m.mem (linearAddr m.es m.bx) 512 (from_ disk (512 * (c + 31))),
               reads := m.reads ++ [sectorRead (c + 31) 1 m.es m.bx] } = .ok m₁ ∧
        TurnDone L disk i c stack m m₁ := by
    obtain ⟨cx', dx', bOdd, hentry⟩ := getFATEntry_ok hb hk L.fatBuf_fits (c := c)
      (m := { m with ax := BitVec.ofNat 16 c, cx, dx, stack,
                     mem := blit m.mem (linearAddr m.es m.bx) 512 (from_ disk (512 * (c + 31))),
                     reads := m.reads ++ [sectorRead (c + 31) 1 m.es m.bx] }) rfl hhi
    refine ⟨_, hentry, rfl, hm.es, hm.bx, rfl, ?_, ?_⟩
    · dsimp only
      rw [haddr]
    · dsimp only
      rw [hm.es, hm.bx]
  refine ⟨m₁, hdone, fun n => ?_⟩
  rw [goonLoadingFile, hread, ok_bind, Boot.pop]
  dsimp only [Boot.setCl]
  rw [hm.stack]
  dsimp only
  rw [ok_bind]
  exact (congrArg (· >>= _) hentry).trans rfl

/-- The next turn reads what the entry says, to the next block. -/
theorem at_next {i c : ℕ} {m m₁ : Boot} (hi : i < L.room) (h : TurnDone L disk i c stack m m₁) :
    At L (i + 1) (fatEntry disk c) stack (addBx (nextSector m₁)) ∧
      (addBx (nextSector m₁)).mem = m₁.mem ∧ (addBx (nextSector m₁)).reads = m₁.reads := by
  rw [L.next i hi (nextSector m₁) h.es h.bx]
  refine ⟨⟨?_, rfl, rfl, ?_⟩, rfl, rfl⟩
  · show m₁.ax + rootDirSectors + deltaSectorNo = _
    rw [h.ax, BitVec.ofNat_add, BitVec.add_assoc]
    rfl
  · show m₁.ax :: m₁.stack = _
    rw [h.ax, h.stack]

/-- A sector that is not there, or a block without room, is tried for ever. -/
theorem goonLoadingFile_stuck (hb : BiosWorks bios disk tries) {i c : ℕ} {m : Boot}
    (hm : At L i c stack m) (hc : c < 0x1000)
    (hr : ¬ (sectorRead (c + 31) 1 (L.place i).1 (L.place i).2).Valid) :
    ∀ n, goonLoadingFile bios k seg addBx n m = .error .spin
  | 0 => rfl
  | n + 1 => by
    have hspin := readSector_spin (n := k) hb (m := m.setCl 1) hm.ax (by omega)
      (by rw [m.setCl_low 1]; show ¬ (sectorRead (c + 31) 1 m.es m.bx).Valid; rwa [hm.es, hm.bx])
    rw [goonLoadingFile, hspin]
    rfl

/-! ## A chain of clusters -/

/-- The entries of the clusters are those of the next ones, and at the end `mark`. -/
def Links (disk : Bytes) : List ℕ → ℕ → Prop
  | [], _ => False
  | [c], mark => fatEntry disk c = mark
  | c :: c' :: chain, mark => fatEntry disk c = c' ∧ Links disk (c' :: chain) mark

/-- The sectors that are read one by one, and where to. -/
def fileReads (reads : List DiskRead) : List (ℕ × ℕ) :=
  (reads.filter (·.al = 1)).map fun r => (r.lba, r.addr)

theorem clusterSector_eq {c : ℕ} (hc : IsCluster c) : clusterSector c = c + 31 := by
  have hlo := hc.1
  rw [clusterSector]
  omega

theorem filter_one (s : ℕ) (es bx : BitVec 16) :
    [sectorRead s 1 es bx].filter (·.al = 1) = [sectorRead s 1 es bx] := rfl

theorem filter_two (s : ℕ) (es bx : BitVec 16) :
    [sectorRead s 2 es bx].filter (·.al = 1) = [] := rfl

theorem ofNat_ne_last {e : ℕ} (he : e < 0x1000) (hne : e ≠ 0xFFF) : BitVec.ofNat 16 e ≠ 0xFFF := by
  intro h
  have := congrArg BitVec.toNat h
  rw [BitVec.toNat_ofNat, Nat.mod_eq_of_lt (by omega)] at this
  exact hne this

namespace TurnDone

variable {i c : ℕ} {m m₁ : Boot} (h : TurnDone L disk i c stack m m₁)

include h

theorem fileReads (hi : i < L.room) (hc : IsCluster c) : MyOS.fileReads m₁.reads =
    MyOS.fileReads m.reads ++ [(clusterSector c, L.base + 512 * i)] := by
  have hhi := hc.2
  have hone : (sectorRead (c + 31) 1 (L.place i).1 (L.place i).2).lba = c + 31 :=
    sectorRead_lba (by omega)
  have haddr : (sectorRead (c + 31) 1 (L.place i).1 (L.place i).2).addr = L.base + 512 * i :=
    L.addr i hi
  rw [MyOS.fileReads, h.reads, List.filter_append, List.filter_append, List.map_append,
    List.map_append, filter_one, filter_two, List.map_singleton, hone, haddr, clusterSector_eq hc,
    List.map_nil, List.append_nil]
  rfl

/-- The block holds the cluster. -/
theorem block (hc : IsCluster c) {x : ℕ} (hx : x < 512) :
    m₁.mem (L.base + 512 * i + x) = disk (512 * clusterSector c + x) := by
  have hbelow := L.fatBuf_below
  rw [h.mem, blit_outside (by omega), blit_inside hx, from_apply, clusterSector_eq hc]

/-- The blocks before it stay as they are. -/
theorem before {x : ℕ} (hlo : L.base ≤ x) (hhi : x < L.base + 512 * i) : m₁.mem x = m.mem x := by
  have hbelow := L.fatBuf_below
  rw [h.mem, blit_outside (by omega), blit_outside (by omega)]

end TurnDone

/-- The clusters of a chain that ends as the loop expects it are put one behind the other. -/
theorem goonLoadingFile_ok (hb : BiosWorks bios disk tries) (hk : tries ≤ k) :
    ∀ {chain : List ℕ} {i c : ℕ} {m : Boot}, Links disk (c :: chain) 0xFFF →
      (∀ c' ∈ c :: chain, IsCluster c') → i + (c :: chain).length ≤ L.room → At L i c stack m →
      ∃ m', (∀ n, chain.length < n → goonLoadingFile bios k seg addBx n m = .ok m') ∧
        (∀ x, L.base ≤ x → x < L.base + 512 * i → m'.mem x = m.mem x) ∧
        (∀ j (hj : j < (c :: chain).length), ∀ x < 512,
          m'.mem (L.base + 512 * (i + j) + x) = disk (512 * clusterSector (c :: chain)[j] + x)) ∧
        fileReads m'.reads = fileReads m.reads ++
          ((c :: chain).zipIdx i).map fun p => (clusterSector p.1, L.base + 512 * p.2)
  | [], i, c, m, hlinks, hcl, hroom, hm => by
    have hc := hcl c List.mem_cons_self
    have hi : i < L.room := hroom
    obtain ⟨m₁, hdone, hturn⟩ := goonLoadingFile_turn hb hk hi hc hm
    have hend : m₁.ax = 0xFFF := by
      rw [hdone.ax, show fatEntry disk c = 0xFFF from hlinks]
      rfl
    refine ⟨m₁, fun n hn => ?_, fun x => hdone.before, fun j hj x hx => ?_, hdone.fileReads hi hc⟩
    · obtain ⟨n, rfl⟩ := Nat.exists_eq_succ_of_ne_zero (Nat.ne_of_gt hn)
      rw [hturn, if_pos hend]
    · obtain rfl : j = 0 := Nat.lt_one_iff.1 hj
      exact hdone.block hc hx
  | c' :: chain, i, c, m, hlinks, hcl, hroom, hm => by
    obtain ⟨hc, hcl⟩ := List.forall_mem_cons.1 hcl
    have hi : i < L.room := by
      rw [List.length_cons] at hroom
      omega
    obtain ⟨m₁, hdone, hturn⟩ := goonLoadingFile_turn hb hk hi hc hm
    obtain ⟨hat, hmem, hreads⟩ := at_next hi hdone
    rw [hlinks.1] at hat
    obtain ⟨m', hrun, hbefore, hblocks, hfile⟩ := goonLoadingFile_ok hb hk hlinks.2 hcl
      (by rw [List.length_cons] at hroom; omega) hat
    have hc' := (hcl c' List.mem_cons_self).2
    have hgo : m₁.ax ≠ 0xFFF := by
      rw [hdone.ax, hlinks.1]
      exact ofNat_ne_last (by omega) (by omega)
    refine ⟨m', fun n hn => ?_, fun x hlo hhi => ?_, fun j hj x hx => ?_, ?_⟩
    · obtain ⟨n, rfl⟩ := Nat.exists_eq_succ_of_ne_zero (Nat.ne_of_gt (Nat.zero_lt_of_lt hn))
      rw [hturn, if_neg hgo]
      exact hrun n (Nat.lt_of_succ_lt_succ hn)
    · rw [hbefore x hlo (by omega), hmem]
      exact hdone.before hlo hhi
    · cases j with
      | zero =>
        rw [hbefore _ (by omega) (by omega), hmem]
        exact hdone.block hc hx
      | succ j =>
        have := hblocks j (Nat.lt_of_succ_lt_succ hj) x hx
        rwa [Nat.add_right_comm i 1 j] at this
    · rw [hfile, hreads, hdone.fileReads hi hc, List.append_assoc]
      rfl

/-- Another mark is taken for a cluster, and the block behind the last one that has room is tried
for ever. -/
theorem goonLoadingFile_spin (hb : BiosWorks bios disk tries) (hk : tries ≤ k) {mark : ℕ}
    (hmark : 0xFF8 ≤ mark) : ∀ {chain : List ℕ} {i c : ℕ} {m : Boot},
    Links disk (c :: chain) mark → (∀ c' ∈ c :: chain, IsCluster c') → At L i c stack m →
      (i + (c :: chain).length ≤ L.room ∧ mark ≠ 0xFFF) ∨
        (i ≤ L.room ∧ L.room < i + (c :: chain).length ∧
          ¬ linearAddr (L.place L.room).1 (L.place L.room).2 % 0x10000 + 512 ≤ 0x10000) →
      ∀ n, goonLoadingFile bios k seg addBx n m = .error .spin := by
  intro chain
  induction chain with
  | nil =>
    intro i c m hlinks hcl hm hbad
    have hc := hcl c List.mem_cons_self
    have hlt := fatEntry_lt disk c
    rcases hbad with ⟨hroom, hne⟩ | ⟨hi, hlong, hfull⟩
    · have hi : i < L.room := hroom
      obtain ⟨m₁, hdone, hturn⟩ := goonLoadingFile_turn hb hk hi hc hm
      obtain ⟨hat, -⟩ := at_next hi hdone
      have hgo : m₁.ax ≠ 0xFFF := by
        rw [hdone.ax]
        exact ofNat_ne_last hlt (by rwa [show fatEntry disk c = mark from hlinks])
      have hsector : totSec ≤ fatEntry disk c + 31 := by
        rw [show fatEntry disk c = mark from hlinks]
        exact (show totSec ≤ 0xFF8 + 31 by decide).trans (Nat.add_le_add_right hmark 31)
      intro n
      cases n with
      | zero => rfl
      | succ n =>
        rw [hturn, if_neg hgo]
        exact goonLoadingFile_stuck hb hat hlt (sectorRead_not_valid hsector (by omega)) n
    · obtain rfl : i = L.room := by
        rw [List.length_singleton] at hlong
        omega
      exact goonLoadingFile_stuck hb hm (by have := hc.2; omega) fun hv => hfull hv.boundary
  | cons c' chain ih =>
    intro i c m hlinks hcl hm hbad
    obtain ⟨hc, hcl⟩ := List.forall_mem_cons.1 hcl
    have hc' := hcl c' List.mem_cons_self
    rcases Nat.lt_or_ge i L.room with hi | hi
    · obtain ⟨m₁, hdone, hturn⟩ := goonLoadingFile_turn hb hk hi hc hm
      obtain ⟨hat, -⟩ := at_next hi hdone
      have hgo : m₁.ax ≠ 0xFFF := by
        rw [hdone.ax, hlinks.1]
        exact ofNat_ne_last (by have := hc'.2; omega) (by have := hc'.2; omega)
      rw [hlinks.1] at hat
      have hspin := ih hlinks.2 hcl hat (hbad.imp
        (fun h => ⟨by have := h.1; simp only [List.length_cons] at this ⊢; omega, h.2⟩)
        fun h => ⟨hi, by have := h.2.1; simp only [List.length_cons] at this ⊢; omega, h.2.2⟩)
      intro n
      cases n with
      | zero => rfl
      | succ n =>
        rw [hturn, if_neg hgo]
        exact hspin n
    · rcases hbad with ⟨hroom, -⟩ | ⟨hle, -, hfull⟩
      · rw [List.length_cons] at hroom
        omega
      · obtain rfl : i = L.room := by omega
        exact goonLoadingFile_stuck hb hm (by have := hc.2; omega) fun hv => hfull hv.boundary

/-! ## Files -/

/-- A chain of clusters that ends with a mark for the end of a chain. -/
structure ClusterChain (disk : Bytes) (chain : List ℕ) (mark : ℕ) : Prop where
  clusters : ∀ c ∈ chain, IsCluster c
  links : Links disk chain mark
  ends : 0xFF8 ≤ mark ∧ mark ≤ 0xFFF

/-- The clusters have been read in order, and lie one behind the other. -/
structure Loaded (disk : Bytes) (chain : List ℕ) (base : ℕ) (m : Boot) : Prop where
  blocks : ∀ i (hi : i < chain.length), ∀ x < 512,
    m.mem (base + 512 * i + x) = disk (512 * clusterSector chain[i] + x)
  reads : fileReads m.reads = chain.zipIdx.map fun p => (clusterSector p.1, base + 512 * p.2)

theorem goonLoadingFile_iff (hb : BiosWorks bios disk tries) {chain : List ℕ} {mark : ℕ}
    (hchain : ClusterChain disk chain mark)
    (hfull : chain.length ≤ L.room ∨
      ¬ linearAddr (L.place L.room).1 (L.place L.room).2 % 0x10000 + 512 ≤ 0x10000)
    {m : Boot} (hm : At L 0 (chain.headD 0) stack m) (hreads : m.reads = []) :
    (∃ N, ∀ n ≥ N, ∃ m', goonLoadingFile bios n seg addBx n m = .ok m' ∧
      Loaded disk chain L.base m') ↔ mark = 0xFFF ∧ chain.length ≤ L.room := by
  cases chain with
  | nil => exact hchain.links.elim
  | cons c chain =>
    constructor
    · rintro ⟨N, hN⟩
      by_contra hbad
      have hcases : (0 + (c :: chain).length ≤ L.room ∧ mark ≠ 0xFFF) ∨
          (0 ≤ L.room ∧ L.room < 0 + (c :: chain).length ∧
            ¬ linearAddr (L.place L.room).1 (L.place L.room).2 % 0x10000 + 512 ≤ 0x10000) := by
        rcases Nat.lt_or_ge L.room (c :: chain).length with hlong | hroom
        · exact .inr ⟨Nat.zero_le _, by omega, hfull.resolve_left (by omega)⟩
        · exact .inl ⟨by omega, fun h => hbad ⟨h, hroom⟩⟩
      obtain ⟨m', hok, -⟩ := hN (max N tries) (le_max_left _ _)
      rw [goonLoadingFile_spin hb (le_max_right _ _) hchain.ends.1 hchain.links hchain.clusters hm
        hcases] at hok
      cases hok
    · rintro ⟨rfl, hroom⟩
      refine ⟨max tries (chain.length + 1), fun n hn => ?_⟩
      obtain ⟨m', hrun, -, hblocks, hfile⟩ := goonLoadingFile_ok hb ((le_max_left _ _).trans hn)
        hchain.links hchain.clusters (by omega) hm
      refine ⟨m', hrun n ((le_max_right _ _).trans hn), fun i hi x hx => ?_, ?_⟩
      · have := hblocks i hi x hx
        rwa [Nat.zero_add] at this
      · rw [hfile, hreads]
        rfl

end Loop

theorem boot_addr {i : ℕ} (hi : i < 127) :
    linearAddr loaderSeg (loaderOff + BitVec.ofNat 16 (512 * i)) = 0x90100 + 512 * i := by
  have hoff : (loaderOff + BitVec.ofNat 16 (512 * i)).toNat = 0x100 + 512 * i := by
    rw [BitVec.toNat_add, BitVec.toNat_ofNat, show loaderOff.toNat = 0x100 from rfl]
    omega
  rw [linearAddr, hoff, show loaderSeg.toNat = 0x9000 from rfl]
  omega

def bootLayout : BlockLayout loaderSeg addBxBoot where
  place i := (loaderSeg, loaderOff + BitVec.ofNat 16 (512 * i))
  base := 0x90100
  room := 127
  addr _ hi := boot_addr hi
  fits i hi := by
    rw [boot_addr hi]
    omega
  next i hi m hes hbx := by
    have hnext : m.bx + bpbBytsPerSec = loaderOff + BitVec.ofNat 16 (512 * (i + 1)) := by
      rw [hbx, BitVec.add_assoc, Nat.mul_succ, BitVec.ofNat_add]
      rfl
    rw [addBxBoot, hnext, ← hes]
  fatBuf_fits := by decide
  fatBuf_below := by decide

theorem kernel_addr {i : ℕ} (hi : i < 512) :
    linearAddr (kernelFileSeg + BitVec.ofNat 16 (0x1000 * (i / 128)))
      (BitVec.ofNat 16 (512 * (i % 128))) = 0x50000 + 512 * i := by
  have hseg : (kernelFileSeg + BitVec.ofNat 16 (0x1000 * (i / 128))).toNat =
      0x5000 + 0x1000 * (i / 128) := by
    rw [BitVec.toNat_add, BitVec.toNat_ofNat, show kernelFileSeg.toNat = 0x5000 from rfl]
    omega
  have hoff : (BitVec.ofNat 16 (512 * (i % 128))).toNat = 512 * (i % 128) := by
    rw [BitVec.toNat_ofNat]
    omega
  rw [linearAddr, hseg, hoff]
  omega

def kernelLayout : BlockLayout kernelFileSeg addBxLoader where
  place i := (kernelFileSeg + BitVec.ofNat 16 (0x1000 * (i / 128)),
    BitVec.ofNat 16 (512 * (i % 128)))
  base := 0x50000
  room := 512
  addr _ hi := kernel_addr hi
  fits i hi := by
    rw [kernel_addr hi]
    omega
  next i hi m hes hbx := by
    have hoff : m.bx.toNat = 512 * (i % 128) := by
      rw [hbx, BitVec.toNat_ofNat]
      omega
    have hsize : bpbBytsPerSec.toNat = 512 := rfl
    have hnext : m.bx + bpbBytsPerSec = BitVec.ofNat 16 (512 * ((i + 1) % 128)) := by
      refine BitVec.eq_of_toNat_eq ?_
      rw [BitVec.toNat_add, hoff, hsize, BitVec.toNat_ofNat]
      omega
    rw [addBxLoader]
    dsimp only
    rw [hoff, hsize, hnext]
    by_cases hwrap : i % 128 = 127
    · -- the next block is the first one of the next segment
      have hseg : (i + 1) / 128 = i / 128 + 1 := by omega
      rw [if_pos (by omega), hes, hseg, Nat.mul_succ, BitVec.ofNat_add, ← BitVec.add_assoc]
      rfl
    · have hseg : (i + 1) / 128 = i / 128 := by omega
      rw [if_neg (by omega), hseg, hes]
  fatBuf_fits := by decide
  fatBuf_below := by decide

/-- The first turn is at the first cluster. -/
theorem startLoading_at {seg off di : BitVec 16} {addBx : Boot → Boot} {L : BlockLayout seg addBx}
    {m : Boot} {c : ℕ} (hplace : L.place 0 = (seg, off))
    (hfirst : word16 m.mem (linearAddr m.es di) = BitVec.ofNat 16 c) :
    At L 0 c m.stack (startLoading seg off di m) := by
  refine ⟨?_, by rw [hplace]; rfl, by rw [hplace]; rfl, ?_⟩
  · show word16 m.mem (linearAddr m.es di) + rootDirSectors + deltaSectorNo = _
    rw [hfirst, BitVec.ofNat_add, BitVec.add_assoc]
    rfl
  · show word16 m.mem (linearAddr m.es di) :: m.stack = _
    rw [hfirst]

/-- The directory entry at `es:di` is that of a file with these clusters. -/
structure EntryAt (m : Boot) (di : BitVec 16) (chain : List ℕ) (n : BitVec 32) : Prop where
  first : word16 m.mem (linearAddr m.es (di + 0x1A)) = BitVec.ofNat 16 (chain.headD 0)
  size : word m.mem (linearAddr m.es (di + 0x1C)) = n
  length : chain.length = (n.toNat + 511) / 512

/-- `GetFATEntry` is right for every cluster of a chain. The boot sector loads a file exactly if its
chain ends with `0FFFh` and it fits in the segment, the loader exactly if its chain ends so and it
is not too large. -/
theorem boot_loads_iff {bios : Bios} {disk : Bytes} {tries : ℕ} (hb : BiosWorks bios disk tries)
    {chain : List ℕ} {mark : ℕ} (hchain : ClusterChain disk chain mark) (size : BitVec 32) :
    (∀ seg, seg = loaderSeg ∨ seg = kernelFileSeg → ∀ c ∈ chain, ∀ (m : Boot) (n : ℕ),
      m.ax = BitVec.ofNat 16 c → tries ≤ n → ∃ m', getFATEntry bios n seg m = .ok m' ∧
        m'.ax = BitVec.ofNat 16 (fatEntry disk c) ∧ m'.bx = m.bx ∧ m'.es = m.es ∧
          m'.stack = m.stack) ∧
    (∀ (m : Boot) (di : BitVec 16), EntryAt m (di &&& 0xFFE0) chain size →
      ((∃ N, ∀ n ≥ N, ∃ m', loadLoader bios n di { m with reads := [] } = .ok m' ∧
        Loaded disk chain 0x90100 m') ↔ mark = 0xFFF ∧ chain.length ≤ 127)) ∧
    ∀ (m : Boot) (di : BitVec 16), EntryAt m (di &&& 0xFFF0) chain size →
      ((∃ N, ∀ n ≥ N, ∃ m', loadKernel bios n di { m with reads := [] } = .ok m' ∧
        Loaded disk chain 0x50000 m') ↔ mark = 0xFFF ∧ size ≤ kernelValidSpace) := by
  refine ⟨fun seg hseg c hc m n hax hn => ?_, fun m di he => ?_, fun m di he => ?_⟩
  · have hfit : fatBuf seg % 0x10000 + 1024 ≤ 0x10000 := by
      rcases hseg with rfl | rfl <;> decide
    obtain ⟨cx, dx, bOdd, hentry⟩ := getFATEntry_ok hb hn hfit hax (hchain.clusters c hc).2
    exact ⟨_, hentry, rfl, rfl, rfl, rfl⟩
  · have hat := startLoading_at (L := bootLayout) (m := { m with reads := [] }) rfl he.first
    exact goonLoadingFile_iff hb hchain (.inr (by decide)) hat rfl
  · have hat := startLoading_at (L := kernelLayout) (m := { m with reads := [] }) rfl he.first
    have hload (n : ℕ) : loadKernel bios n di { m with reads := [] } =
        if kernelValidSpace < size then .error .spin
        else goonLoadingFile bios n kernelFileSeg addBxLoader n (startLoading kernelFileSeg
          kernelFileOff ((di &&& 0xFFF0) + 0x1A) { m with reads := [] }) := by
      rw [← he.size]
      rfl
    have hlen := he.length
    by_cases hlarge : kernelValidSpace < size
    · refine iff_of_false ?_ fun h => BitVec.not_le.2 hlarge h.2
      rintro ⟨N, hN⟩
      obtain ⟨m', hok, -⟩ := hN N le_rfl
      rw [hload, if_pos hlarge] at hok
      cases hok
    · have hsize : size ≤ kernelValidSpace := BitVec.not_lt.1 hlarge
      have hroom : chain.length ≤ kernelLayout.room := by
        have hle : size.toNat ≤ 0x40000 := hsize
        rw [hlen]
        show _ ≤ 512
        omega
      have hiff := goonLoadingFile_iff hb hchain (.inl hroom) hat rfl
      simp only [hload, if_neg hlarge]
      exact hiff.trans (and_congr_right fun _ => iff_of_true hroom hsize)

instance (r : DiskRead) : Decidable r.Valid :=
  decidable_of_iff (0 < r.al.toNat ∧ 0 < r.cl.toNat ∧
      r.cl.toNat - 1 + r.al.toNat ≤ sectorsPerTrack ∧ r.ch.toNat < numCylinders ∧
      r.dh.toNat < numHeads ∧ r.dl = bsDrvNum ∧ r.addr % 0x10000 + r.size ≤ 0x10000)
    ⟨fun ⟨h1, h2, h3, h4, h5, h6, h7⟩ => ⟨h1, h2, h3, h4, h5, h6, h7⟩,
      fun ⟨h1, h2, h3, h4, h5, h6, h7⟩ => ⟨h1, h2, h3, h4, h5, h6, h7⟩⟩

/-- A drive that reads at the first try. -/
def steadyBios (disk : Bytes) : Bios := fun _ r mem =>
  if r.Valid then (false, blit mem r.addr r.size (from_ disk (512 * r.lba))) else (true, mem)

theorem steadyBios_works (disk : Bytes) : BiosWorks (steadyBios disk) disk 1 where
  frame k r mem x hx := by
    rw [steadyBios]
    split_ifs
    · exact blit_outside hx
    · rfl
  reads k r mem hr _ j hj := by
    rw [steadyBios, if_pos hr]
    exact blit_inside hj
  succeeds r hr := ⟨0, Nat.one_pos, fun mem => by rw [steadyBios, if_pos hr]⟩
  fails k r mem hr := by rw [steadyBios, if_neg hr]

/-- A disk with a file of one cluster, whose entry ends with `mark`. -/
def oneCluster (mark : BitVec 8) : Bytes := fun x =>
  if x = 515 then mark else if x = 516 then 0x0F else 0

/-- The directory entry of that file, at the start of memory. -/
def entryState : Boot where
  ax := 0
  bx := 0
  cx := 0
  dx := 0
  es := 0
  stack := []
  bOdd := 0
  mem := fun x => if x = 0x1A then 2 else if x = 0x1C then 100 else 0
  reads := []

theorem entryState_at : EntryAt entryState 0 [2] 100 := ⟨by decide, by decide, by decide⟩

/-- A disk with a file of two clusters, -/
def twoClusters : Bytes := fun x =>
  if x = 515 then 3 else if x = 516 then 0xF0 else if x = 517 then 0xFF else 0

/-- and the directory entry of that file. -/
def twoState : Boot := { entryState with
  mem := fun x => if x = 0x1A then 2 else if x = 0x1C then 0x58 else if x = 0x1D then 2 else 0 }

theorem twoClusters_chain : ClusterChain twoClusters [2, 3] 0xFFF :=
  ⟨by simp [IsCluster], (by decide :
    fatEntry twoClusters 2 = 3 ∧ fatEntry twoClusters 3 = 0xFFF), by decide⟩

/-- The file is loaded by both. -/
theorem boot_loads_two : (∃ N, ∀ n ≥ N, ∃ m',
      loadLoader (steadyBios twoClusters) n 0 twoState = .ok m' ∧
        Loaded twoClusters [2, 3] 0x90100 m') ∧
    ∃ N, ∀ n ≥ N, ∃ m', loadKernel (steadyBios twoClusters) n 0 twoState = .ok m' ∧
      Loaded twoClusters [2, 3] 0x50000 m' := by
  obtain ⟨-, hboot, hkernel⟩ := boot_loads_iff (steadyBios_works twoClusters)
    twoClusters_chain 600
  have hentry : EntryAt twoState 0 [2, 3] 600 := ⟨by decide, by decide, by decide⟩
  exact ⟨(hboot twoState 0 hentry).2 ⟨rfl, by decide⟩,
    (hkernel twoState 0 hentry).2 ⟨rfl, by decide⟩⟩

/-- The file whose chain ends with `0FF8h` is never loaded. -/
theorem boot_mark_passed : ClusterChain (oneCluster 0xF8) [2] 0xFF8 ∧
    BiosWorks (steadyBios (oneCluster 0xF8)) (oneCluster 0xF8) 1 ∧ EntryAt entryState 0 [2] 100 ∧
      ∀ n, loadLoader (steadyBios (oneCluster 0xF8)) n 0 entryState = .error .spin ∧
        loadKernel (steadyBios (oneCluster 0xF8)) n 0 entryState = .error .spin := by
  have hchain : ClusterChain (oneCluster 0xF8) [2] 0xFF8 :=
    ⟨by simp [IsCluster], (by decide : fatEntry (oneCluster 0xF8) 2 = 0xFF8), by decide⟩
  have hb := steadyBios_works (oneCluster 0xF8)
  refine ⟨hchain, hb, entryState_at, fun n => ?_⟩
  cases n with
  | zero => exact ⟨rfl, rfl⟩
  | succ n =>
    constructor
    · exact goonLoadingFile_spin hb (Nat.succ_pos n) (by decide) hchain.links hchain.clusters
        (startLoading_at (L := bootLayout) rfl entryState_at.first) (.inl ⟨by decide, by decide⟩) _
    · exact goonLoadingFile_spin hb (Nat.succ_pos n) (by decide) hchain.links hchain.clusters
        (startLoading_at (L := kernelLayout) rfl entryState_at.first)
        (.inl ⟨by decide, by decide⟩) _

end MyOS
