import MyOS.KernelMap
import MyOS.Proofs.ForkMemory
import Mathlib.Order.Bounds.Basic

/-!
# INIT has the whole kernel

The loop keeps the least base and the greatest end of the sections it has seen, the base below all
and the end above all at first. So the page in which the last byte lies is the last page of the
segments of `INIT`, which start at 0, and no later step changes these. A fork copies them where they
are no larger than what a child gets.
-/

namespace MyOS

open Memory Block

/-- Where a section ends. -/
def SectHdr.top (h : SectHdr) : ℕ := h.shAddr.toNat + h.shSize.toNat

/-- The first `n` section headers, of these the ones in memory. -/
def allocBefore (f : Bytes) (n : ℕ) : Set SectHdr := {h | h.Alloc ∧ ∃ i < n, sectHdr f i = h}

/-- The sections of the kernel that are in memory. -/
def allocSections (f : Bytes) : Set SectHdr := allocBefore f (eShnum f).toNat

/-- The bytes of the kernel. -/
def InKernel (f : Bytes) (x : Addr) : Prop :=
  ∃ h ∈ allocSections f, Within x h.shAddr h.shSize.toNat

/-! ## The loop -/

/-- `b` and `t` are the least base and the greatest end of some sections, if there are any. -/
structure Extent (S : Set SectHdr) (b t : BitVec 32) : Prop where
  base : IsLeast (insert (2 ^ 32 - 1) ((fun h => h.shAddr.toNat) '' S)) b.toNat
  top : IsGreatest (insert 0 (SectHdr.top '' S)) t.toNat

theorem toNat_ite_lt_left (x y : BitVec 32) :
    (if x < y then x else y).toNat = min x.toNat y.toNat := by
  split_ifs with h
  · exact (min_eq_left (BitVec.lt_def.1 h).le).symm
  · exact (min_eq_right (BitVec.not_lt.1 h)).symm

theorem toNat_ite_lt_right (x y : BitVec 32) :
    (if x < y then y else x).toNat = max y.toNat x.toNat := by
  split_ifs with h
  · exact (max_eq_left (BitVec.lt_def.1 h).le).symm
  · exact (max_eq_right (BitVec.not_lt.1 h)).symm

namespace Extent

theorem start : Extent ∅ (~~~0) 0 := by
  refine ⟨?_, ?_⟩ <;> rw [Set.image_empty, insert_empty_eq]
  · exact isLeast_singleton
  · exact isGreatest_singleton

variable {S : Set SectHdr} {b t : BitVec 32}

/-- A turn of the loop, at a section that is in memory. -/
theorem turn (h : Extent S b t) {s : SectHdr} (hs : s.top < 2 ^ 32) :
    Extent (insert s S) (if s.shAddr < b then s.shAddr else b)
      (if t < s.shAddr + s.shSize then s.shAddr + s.shSize else t) := by
  have htop : (s.shAddr + s.shSize).toNat = s.top := by
    rw [BitVec.toNat_add]
    exact Nat.mod_eq_of_lt hs
  constructor
  · rw [toNat_ite_lt_left, Set.image_insert_eq, Set.insert_comm]
    exact h.base.insert _
  · rw [toNat_ite_lt_right, htop, Set.image_insert_eq, Set.insert_comm]
    exact h.top.insert _

end Extent

theorem allocBefore_zero (f : Bytes) : allocBefore f 0 = ∅ := by
  refine Set.eq_empty_of_forall_notMem ?_
  rintro h ⟨-, i, hi, -⟩
  exact Nat.not_lt_zero i hi

theorem allocBefore_succ (f : Bytes) (n : ℕ) : allocBefore f (n + 1) =
    if (sectHdr f n).Alloc then insert (sectHdr f n) (allocBefore f n) else allocBefore f n := by
  have hmem (h : SectHdr) : h ∈ allocBefore f (n + 1) ↔
      h.Alloc ∧ h = sectHdr f n ∨ h ∈ allocBefore f n := by
    constructor
    · rintro ⟨ha, i, hi, rfl⟩
      rcases Nat.lt_succ_iff_lt_or_eq.1 hi with hlt | rfl
      · exact .inr ⟨ha, i, hlt, rfl⟩
      · exact .inl ⟨ha, rfl⟩
    · rintro (⟨ha, rfl⟩ | ⟨ha, i, hi, rfl⟩)
      · exact ⟨ha, n, Nat.lt_succ_self n, rfl⟩
      · exact ⟨ha, i, Nat.lt_succ_of_lt hi, rfl⟩
  ext h
  rw [hmem]
  split_ifs with ha
  · rw [Set.mem_insert_iff]
    refine or_congr_left ⟨fun hh => hh.2, ?_⟩
    rintro rfl
    exact ⟨ha, rfl⟩
  · refine or_iff_right ?_
    rintro ⟨hh, rfl⟩
    exact ha hh

/-- By induction on the headers that are left. -/
theorem mapLoop_extent {f : Bytes} : ∀ (left i : ℕ) {b t : BitVec 32},
    (∀ h ∈ allocBefore f (i + left), h.top < 2 ^ 32) → Extent (allocBefore f i) b t →
      Extent (allocBefore f (i + left)) (mapLoop f left i b t).1 (mapLoop f left i b t).2
  | 0, _, _, _, _, hext => hext
  | left + 1, i, _, _, hw, hext => by
    have hadd : i + (left + 1) = i + 1 + left := by omega
    rw [hadd] at hw ⊢
    rw [mapLoop]
    by_cases ha : (sectHdr f i).Alloc
    · rw [if_pos ha]
      refine mapLoop_extent left (i + 1) hw ?_
      rw [allocBefore_succ, if_pos ha]
      exact hext.turn (hw _ ⟨ha, i, by omega, rfl⟩)
    · rw [if_neg ha]
      refine mapLoop_extent left (i + 1) hw ?_
      rwa [allocBefore_succ, if_neg ha]

/-! ## The map -/

/-- What the kernel file is to be like: its sections do not wrap, and one of them has a byte. -/
structure Mappable (f : Bytes) : Prop where
  top_lt : ∀ h ∈ allocSections f, h.top < 2 ^ 32
  nonempty : ∃ h ∈ allocSections f, h.shSize ≠ 0

/-- The interval from `b` to `b + l` is from the least base to the last byte before the greatest
end. -/
structure KernelMap (f : Bytes) (b l : BitVec 32) : Prop where
  base : IsLeast ((fun h => h.shAddr.toNat) '' allocSections f) b.toNat
  top : IsGreatest (SectHdr.top '' allocSections f) (b.toNat + l.toNat + 1)

theorem isLeast_of_insert {α : Type*} [PartialOrder α] {S : Set α} {a b : α}
    (h : IsLeast (insert a S) b) (hs : ∃ c ∈ S, c ≤ a) : IsLeast S b := by
  obtain ⟨c, hc, hca⟩ := hs
  refine ⟨?_, fun d hd => h.2 (.inr hd)⟩
  rcases h.1 with rfl | hb
  · rwa [← le_antisymm hca (h.2 (.inr hc))]
  · exact hb

theorem isGreatest_of_insert {α : Type*} [PartialOrder α] {S : Set α} {a b : α}
    (h : IsGreatest (insert a S) b) (hs : ∃ c ∈ S, a ≤ c) : IsGreatest S b := by
  obtain ⟨c, hc, hac⟩ := hs
  refine ⟨?_, fun d hd => h.2 (.inr hd)⟩
  rcases h.1 with rfl | hb
  · rwa [le_antisymm hac (h.2 (.inr hc))]
  · exact hb

theorem getBootParams_elfmag {mem : Mem} {bp : BootParams} (h : getBootParams mem = .ok bp) :
    HasElfmag mem bp.kernelFile := by
  unfold getBootParams at h
  simp only [assert_bind_eq_ok] at h
  obtain ⟨-, helf, h⟩ := h
  rwa [← Except.ok.inj h]

theorem getKernelMap_ok {mem : Mem} {bp : BootParams} (hbp : getBootParams mem = .ok bp)
    (hmap : Mappable (bytesAt mem bp.kernelFile)) : ∃ b l, getKernelMap mem = .ok (some (b, l)) ∧
      KernelMap (bytesAt mem bp.kernelFile) b l := by
  have hext := mapLoop_extent (f := bytesAt mem bp.kernelFile)
    (eShnum (bytesAt mem bp.kernelFile)).toNat 0 (by rw [Nat.zero_add]; exact hmap.top_lt)
    (by rw [allocBefore_zero]; exact .start)
  rw [Nat.zero_add] at hext
  unfold getKernelMap
  rw [hbp, ok_bind, if_pos (getBootParams_elfmag hbp)]
  dsimp only
  generalize mapLoop _ _ _ _ _ = bt at hext ⊢
  obtain ⟨b, t⟩ := bt
  obtain ⟨h, hh, hsize⟩ := hmap.nonempty
  have hpos : 0 < h.shSize.toNat := Nat.pos_of_ne_zero fun hz => hsize (BitVec.eq_of_toNat_eq hz)
  have hb : b.toNat ≤ h.shAddr.toNat := hext.base.2 (.inr ⟨h, hh, rfl⟩)
  have ht : h.shAddr.toNat + h.shSize.toNat ≤ t.toNat := hext.top.2 (.inr ⟨h, hh, rfl⟩)
  have hlt : b < t := by
    rw [BitVec.lt_def]
    omega
  have hl : b.toNat + (t - b - 1).toNat + 1 = t.toNat := by
    bv_omega
  refine ⟨b, t - b - 1, ?_, ?_, ?_⟩
  · rw [assert_of hlt]
    rfl
  · refine isLeast_of_insert hext.base ⟨_, ⟨h, hh, rfl⟩, ?_⟩
    have := h.shAddr.isLt
    dsimp only
    omega
  · rw [hl]
    exact isGreatest_of_insert hext.top ⟨_, ⟨h, hh, rfl⟩, Nat.zero_le _⟩

namespace KernelMap

variable {f : Bytes} {b l : BitVec 32}

theorem toNat_add (h : KernelMap f b l) (hmap : Mappable f) :
    (b + l).toNat = b.toNat + l.toNat := by
  obtain ⟨s, hs, htop⟩ := h.top.1
  have hlt := hmap.top_lt s hs
  rw [BitVec.toNat_add]
  exact Nat.mod_eq_of_lt (by omega)

theorem le_of_inKernel (h : KernelMap f b l) (hmap : Mappable f) {x : Addr} (hx : InKernel f x) :
    b ≤ x ∧ x ≤ b + l := by
  obtain ⟨s, hs, hw⟩ := hx
  have hbase : b.toNat ≤ s.shAddr.toNat := h.base.2 ⟨s, hs, rfl⟩
  have htop : s.top ≤ b.toNat + l.toNat + 1 := h.top.2 ⟨s, hs, rfl⟩
  have hlt := hmap.top_lt s hs
  unfold SectHdr.top at htop hlt
  unfold Within at hw
  have hxs : x.toNat = s.shAddr.toNat + (x - s.shAddr).toNat := by
    bv_omega
  rw [BitVec.le_def, BitVec.le_def, h.toNat_add hmap]
  omega

end KernelMap

/-! ## The segments of INIT -/

/-- Both segments of `INIT` start at 0 and end with the page of the last byte. -/
structure InitSegments (last : BitVec 32) (d : Descriptor) : Prop where
  linear : d.linear = 0
  limit : d.limit = last >>> limit4kShift
  limit4k : d.limit4k = true
  size : d.size = (last.toNat / 4096 + 1) * 4096

theorem InitSegments.of_initDescriptor (limit : BitVec 32) {attr : BitVec 16}
    (hattr : attr.getLsbD 15 = true) :
    InitSegments limit (initDescriptor 0 (limit >>> limit4kShift) attr) := by
  have hshift : (limit >>> limit4kShift).toNat = limit.toNat / 4096 := by
    rw [BitVec.toNat_ushiftRight, Nat.shiftRight_eq_div_pow]
    rfl
  have hlt := limit.isLt
  have hlim : (initDescriptor 0 (limit >>> limit4kShift) attr).limit.toNat =
      limit.toNat / 4096 := by
    rw [limit_initDescriptor, hshift]
    exact Nat.mod_eq_of_lt (by omega)
  have hgran := limit4k_initDescriptor 0 (limit >>> limit4kShift) hattr
  refine ⟨linear_initDescriptor _ _ _, BitVec.eq_of_toNat_eq (hlim.trans hshift.symm), hgran, ?_⟩
  rw [Descriptor.size, hlim, hgran, if_pos rfl]

theorem kernelMain_initSegments (mem : Mem) (limit : BitVec 32) :
    ∀ i, InitSegments limit (((kernelMain mem limit).procTable init).ldts i) :=
  Fin.forall_fin_two.2 ⟨.of_initDescriptor limit (by decide), .of_initDescriptor limit (by decide)⟩

/-- The segment of a native process stays what it is. -/
theorem ldts_of_native {mm : MmEnv} {k k' : Kernel} {a : PmAct} (hs : PmStep mm k a k') {q : Slot}
    (hq : q.val < nrTasks + nrNativeProcs) : (k'.procTable q).ldts = (k.procTable q).ldts := by
  have ho := pmStep_outcome hs
  cases ho with
  | forked pid c base k' hf =>
    rw [hf.procTable, if_neg]
    rintro rfl
    exact absurd hf.high (not_le.2 hq)
  | full pid => rfl
  | renamed fs src path k' _ ht =>
    rw [ht]
    split_ifs with hsrc
    · rw [hsrc]
    · rfl
  | refused fs src k' ht => rw [ht]
  | other a k' hk => exact (hk q).ldts

theorem initSegments_of_run {mm : MmEnv} {mem : Mem} {limit : BitVec 32} {t : List PmAct}
    {k : Kernel} (h : Run (· = kernelMain mem limit) (PmStep mm) t k) (i : Fin 2) :
    InitSegments limit ((k.procTable init).ldts i) := by
  refine h.invariant (P := fun _ k => InitSegments limit ((k.procTable init).ldts i)) ?_ ?_
  · rintro k rfl
    exact kernelMain_initSegments mem limit i
  · intro t k a k' hk hs
    rwa [ldts_of_native hs (by decide)]

theorem InitSegments.covers_iff {limit : BitVec 32} {d : Descriptor} (h : InitSegments limit d)
    (x : Addr) : d.Covers x ↔ x.toNat / 4096 ≤ limit.toNat / 4096 := by
  have hx : x - 0 = x := BitVec.sub_zero x
  unfold Descriptor.Covers Within
  rw [h.linear, h.size, hx]
  omega

/-- A fork of more than a child gets stops in `alloc_mem`. -/
theorem forkProc_refused {mm : MmEnv} {k : Kernel} {last : BitVec 32} {c : Slot}
    (h : ∀ i, InitSegments last ((k.procTable init).ldts i)) (hfree : findFree k = some c)
    (hc : nrTasks + nrNativeProcs ≤ c.val)
    (hfits : (forkedName (k.procTable init).pName c).length < nameSize)
    (hlarge : procImageSizeDefault ≤ last) (hlt : ((k.procTable init).ldts 0).size < 2 ^ 31) :
    forkProc mm k init = .error .panic := by
  have hmb : procImageSizeDefault.toNat = 0x100000 := rfl
  have hint := (segSize_toInt_iff ((k.procTable init).ldts 0)).2 hlt
  have hbig : procImageSizeDefault.toInt <
      (segSize ((k.procTable init).ldts 0).limit ((k.procTable init).ldts 0)).toInt := by
    rw [hint, show procImageSizeDefault.toInt = 0x100000 by decide, (h 0).size]
    rw [BitVec.le_def, hmb] at hlarge
    omega
  have hlinear := (h 0).linear.trans (h 1).linear.symm
  have hlimit := (h 0).limit.trans (h 1).limit.symm
  have hsize : segSize ((k.procTable init).ldts 0).limit ((k.procTable init).ldts 0) =
      segSize ((k.procTable init).ldts 0).limit ((k.procTable init).ldts 1) := by
    rw [segSize, segSize, (h 0).limit4k, (h 1).limit4k]
  unfold forkProc
  rw [hfree]
  dsimp only
  rw [assert_of hc, ok_bind, childName_eq, if_pos hfits, ok_bind,
    assert_of ⟨hlinear, hlimit, hsize⟩, ok_bind, allocMem_refuses hc hbig]
  rfl

/-- What a fork of `INIT` does with the kernel. Where it is too large for a child, the table is full
or the fork stops, without a copy. -/
structure ForksKernel (mm : MmEnv) (f : Bytes) (last : BitVec 32) (k : Kernel) : Prop where
  copies : last < procImageSizeDefault → ∀ c k', forkProc mm k init = .ok (some c, k') →
    ∀ x, InKernel f x → k'.mem (((k'.procTable c).ldts 0).linear + x) = k.mem x
  refuses : procImageSizeDefault ≤ last → ((k.procTable init).ldts 0).size < 2 ^ 31 →
    (∀ r, forkProc mm k init = .ok r → findFree k = none ∧ r = (none, k)) ∧
      ∀ c, findFree k = some c → nrTasks + nrNativeProcs ≤ c.val →
        (forkedName (k.procTable init).pName c).length < nameSize →
          forkProc mm k init = .error .panic

theorem forksKernel_of_run {mm : MmEnv} {mem : Mem} {f : Bytes} {last : BitVec 32}
    {t : List PmAct} {k : Kernel} (h : Run (· = kernelMain mem last) (PmStep mm) t k)
    (hlast : ∀ x, InKernel f x → x ≤ last) : ForksKernel mm f last k := by
  have hinits := initSegments_of_run h
  have hinit := hinits 0
  have hseg : Segments k := .of_run <| h.mono_start fun k hk => ⟨mem, last, hk⟩
  have hmb : procImageSizeDefault.toNat = 0x100000 := rfl
  constructor
  · intro hsmall c k' hf x hx
    obtain ⟨base, hforks⟩ := forkProc_forks hf
    have hlt : ((k.procTable init).ldts 0).size < 2 ^ 31 := by
      rw [BitVec.lt_def, hmb] at hsmall
      rw [hinit.size]
      omega
    have hin : x.toNat < ((k.procTable init).ldts 0).size := by
      have hle : x.toNat ≤ last.toNat := hlast x hx
      rw [hinit.size]
      omega
    have hcopy := hforks.copies hseg (fun hp => absurd hp (by decide)) hlt hin
    have hx0 : (0 : Addr) + BitVec.ofNat 32 x.toNat = x := by
      rw [BitVec.ofNat_toNat, BitVec.setWidth_eq]
      exact BitVec.zero_add x
    rw [hinit.linear, hx0, BitVec.ofNat_toNat, BitVec.setWidth_eq] at hcopy
    exact hcopy.1.trans hcopy.2
  · intro hlarge hlt
    refine ⟨fun r hf => ?_,
      fun c hfree hc hfits => forkProc_refused hinits hfree hc hfits hlarge hlt⟩
    obtain ⟨child, k'⟩ := r
    cases child with
    | none =>
      obtain ⟨hfree, rfl⟩ := forkProc_none hf
      exact ⟨hfree, rfl⟩
    | some c =>
      obtain ⟨base, hforks⟩ := forkProc_forks hf
      have hle := hforks.size_le hlt
      rw [BitVec.le_def, hmb] at hlarge
      rw [hinit.size, hmb] at hle
      omega

/-- `get_kernel_map` finds the least base and the greatest end, and in every run the segments of
`INIT` cover what is between them. A fork copies all of it, unless it is above what a child gets. -/
theorem init_covers_kernel {mm : MmEnv} {mem : Mem} {bp : BootParams}
    (hbp : getBootParams mem = .ok bp) (hmap : Mappable (bytesAt mem bp.kernelFile)) :
    ∃ b l, getKernelMap mem = .ok (some (b, l)) ∧ KernelMap (bytesAt mem bp.kernelFile) b l ∧
      (∀ x, InKernel (bytesAt mem bp.kernelFile) x → b ≤ x ∧ x ≤ b + l) ∧
      kernelMainMap mem = .ok (kernelMain mem (b + l)) ∧
      ∀ t k, Run (· = kernelMain mem (b + l)) (PmStep mm) t k →
        (∀ i, InitSegments (b + l) ((k.procTable init).ldts i) ∧
          ∀ x, InKernel (bytesAt mem bp.kernelFile) x → ((k.procTable init).ldts i).Covers x) ∧
        ForksKernel mm (bytesAt mem bp.kernelFile) (b + l) k := by
  obtain ⟨b, l, hbl, hkm⟩ := getKernelMap_ok hbp hmap
  have hin {x : Addr} (hx : InKernel (bytesAt mem bp.kernelFile) x) := hkm.le_of_inKernel hmap hx
  refine ⟨b, l, hbl, hkm, fun x hx => hin hx, ?_, fun t k h => ⟨fun i => ?_, ?_⟩⟩
  · rw [kernelMainMap, hbl]
    rfl
  · have hinit := initSegments_of_run h i
    refine ⟨hinit, fun x hx => (hinit.covers_iff x).2 ?_⟩
    exact Nat.div_le_div_right (BitVec.le_def.1 (hin hx).2)
  · exact forksKernel_of_run h fun x hx => (hin hx).2

/-- A memory with the boot parameters and a kernel file of one section, from 0 on. -/
def oneSectionMem (size : BitVec 32) : Mem := fun x =>
  match x.toNat with
  -- the magic number and the address of the file
  | 0x900 => 0x07 | 0x901 => 0xB0 | 0x90A => 0x05
  | 0x50000 => 0x7F | 0x50001 => 0x45 | 0x50002 => 0x4C | 0x50003 => 0x46
  -- one header, of 40 bytes, behind the 52 of the file's own
  | 0x50020 => 52 | 0x5002E => 40 | 0x50030 => 1
  | 0x5003C => 2
  | 0x50048 => byteOf size 0 | 0x50049 => byteOf size 1
  | 0x5004A => byteOf size 2 | 0x5004B => byteOf size 3
  | _ => 0

/-- The only section of such a file. -/
theorem allocSections_of_one {f : Bytes} (hn : (eShnum f).toNat = 1) {h : SectHdr}
    (hh : h ∈ allocSections f) : h = sectHdr f 0 := by
  obtain ⟨-, i, hi, rfl⟩ := hh
  rw [hn] at hi
  rw [Nat.lt_one_iff.1 hi]

theorem oneSectionMem_mappable {size : BitVec 32}
    (hs : sectHdr (bytesAt (oneSectionMem size) 0x50000) 0 = ⟨2, 0, size⟩) (hsize : size ≠ 0) :
    Mappable (bytesAt (oneSectionMem size) 0x50000) := by
  have hn : (eShnum (bytesAt (oneSectionMem size) 0x50000)).toNat = 1 := by
    simp [eShnum, half, bytesAt, oneSectionMem]
  constructor
  · intro h hh
    rw [allocSections_of_one hn hh, hs]
    exact (Nat.zero_add _).trans_lt size.isLt
  · have halloc : (⟨2, 0, size⟩ : SectHdr).Alloc := show (2 : BitVec 32) &&& shfAlloc ≠ 0 by decide
    exact ⟨_, ⟨halloc, 0, by rw [hn]; decide, hs⟩, hsize⟩

/-- A kernel of one page and a byte. -/
theorem init_covers_two_pages : ∃ b l,
    getKernelMap (oneSectionMem 0x1001) = .ok (some (b, l)) ∧
      KernelMap (bytesAt (oneSectionMem 0x1001) 0x50000) b l ∧
      (∀ x, InKernel (bytesAt (oneSectionMem 0x1001) 0x50000) x → b ≤ x ∧ x ≤ b + l) ∧
      kernelMainMap (oneSectionMem 0x1001) = .ok (kernelMain (oneSectionMem 0x1001) (b + l)) ∧
      ∀ t k, Run (· = kernelMain (oneSectionMem 0x1001) (b + l)) (PmStep mmEnv64) t k →
        (∀ i, InitSegments (b + l) ((k.procTable init).ldts i) ∧
          ∀ x, InKernel (bytesAt (oneSectionMem 0x1001) 0x50000) x →
            ((k.procTable init).ldts i).Covers x) ∧
        ForksKernel mmEnv64 (bytesAt (oneSectionMem 0x1001) 0x50000) (b + l) k := by
  have hbp : getBootParams (oneSectionMem 0x1001) = .ok ⟨0, 0x50000⟩ := by decide +kernel
  exact init_covers_kernel hbp (oneSectionMem_mappable (by decide +kernel) (by decide))

/-- A kernel of more than a MB: the fork of `INIT` is refused, and copies nothing. -/
theorem large_kernel_refused : getBootParams (oneSectionMem 0x100001) = .ok ⟨0, 0x50000⟩ ∧
    Mappable (bytesAt (oneSectionMem 0x100001) 0x50000) ∧
    ∃ k, kernelMainMap (oneSectionMem 0x100001) = .ok k ∧
      forkProc mmEnv64 k init = .error .panic := by
  have hmap : getKernelMap (oneSectionMem 0x100001) = .ok (some (0, 0x100000)) := by
    decide +kernel
  refine ⟨by decide +kernel, oneSectionMem_mappable (by decide +kernel) (by decide), ?_⟩
  refine ⟨kernelMain (oneSectionMem 0x100001) (0 + 0x100000), ?_, rfl⟩
  rw [kernelMainMap, hmap]
  rfl

end MyOS
