import MyOS.Proofs.ProcNames
import MyOS.Proofs.Progress

/-!
# The memory of a forked process

A child gets the MB of its slot, whatever its parent has, and a copy of as much as its parent has.
The check against `memory_size` is made with the size of the parent, and that size is computed in an
`int`: what is private is always so, but a child of a small parent may reach above the memory there
is, and a parent with a flat segment is copied as one of no bytes.
-/

namespace MyOS

open Memory

variable {mm : MmEnv} {k k' : Kernel} {pid c p : Slot}

theorem imageBase_eq (p : Slot) : imageBase p = 0xA00000 + (p.val - 9) * 0x100000 := rfl

theorem imageBase_le (p : Slot) : imageBase p ≤ 0x2500000 := by
  have hp : p.val < 37 := p.isLt
  rw [imageBase_eq]
  omega

/-! ## Segments -/

/-- The bytes of a segment. -/
def Descriptor.Covers (d : Descriptor) (x : Addr) : Prop := Within x d.linear d.size

theorem childLdts_linear (base : BitVec 32) : ∀ i, (childLdts base i).linear = base :=
  Fin.forall_fin_two.2 ⟨linear_initDescriptor _ _ _, linear_initDescriptor _ _ _⟩

theorem childLdts_size (base : BitVec 32) : ∀ i,
    (childLdts base i).size = procImageSizeDefault.toNat := by
  -- the base is not part of it
  have hbase : ∀ i, (childLdts base i).size = (childLdts 0 i).size :=
    Fin.forall_fin_two.2 ⟨rfl, rfl⟩
  intro i
  rw [hbase]
  exact (show ∀ i, (childLdts 0 i).size = procImageSizeDefault.toNat by decide) i

/-- Both segments of a process cover the MB of its slot. -/
def OwnsImage (k : Kernel) (p : Slot) : Prop := ∀ i : Fin 2,
  ((k.procTable p).ldts i).linear.toNat = imageBase p ∧
    ((k.procTable p).ldts i).size = procImageSizeDefault.toNat

/-- Where a process has its segments: the native ones at 0, a child in the MB of its slot. -/
structure Segments (k : Kernel) : Prop where
  native : NativeBase k
  owns : ∀ p : Slot, nrTasks + nrNativeProcs ≤ p.val → Live k p → OwnsImage k p

/-- At the start no entry behind the native processes is in use. -/
theorem not_live_start (hp : nrTasks + nrNativeProcs ≤ p.val) (mem : Mem) (limit : BitVec 32) :
    ¬ Live (kernelMain mem limit) p := by
  have hf : ((kernelMain mem limit).procTable p).pFlags = freeSlot := by
    simp only [kernelMain, restart_procTable, kernelMainProc, if_pos hp]
  rw [Live, hf]
  decide

theorem Segments.start (mem : Mem) (limit : BitVec 32) : Segments (kernelMain mem limit) :=
  ⟨.start mem limit, fun _ hp hl => absurd hl (not_live_start hp mem limit)⟩

theorem Forks.ownsImage {base : BitVec 32} (h : Forks mm k pid c base k') : OwnsImage k' c := by
  intro i
  obtain ⟨-, hbase⟩ := allocMem_base h.alloc
  rw [h.procTable, if_pos rfl]
  exact ⟨(congrArg _ (childLdts_linear base i)).trans hbase, childLdts_size base i⟩

/-- An entry with the segments it had, of a process that was there. -/
theorem Segments.of_same (h : Segments k) {q : Slot}
    (hldts : (k'.procTable q).ldts = (k.procTable q).ldts) (hlive : Live k' q → Live k q) :
    (q.val < nrTasks + nrNativeProcs → ((k'.procTable q).ldts 1).linear = 0) ∧
      (nrTasks + nrNativeProcs ≤ q.val → Live k' q → OwnsImage k' q) := by
  refine ⟨fun hq => by rw [hldts]; exact h.native q hq, fun hq hl i => ?_⟩
  rw [hldts]
  exact h.owns q hq (hlive hl) i

theorem Segments.step {a : PmAct} (h : Segments k) (hs : PmStep mm k a k') : Segments k' := by
  have hall : ∀ q : Slot, (q.val < nrTasks + nrNativeProcs → ((k'.procTable q).ldts 1).linear = 0) ∧
      (nrTasks + nrNativeProcs ≤ q.val → Live k' q → OwnsImage k' q) := by
    intro q
    have ho := pmStep_outcome hs
    cases ho with
    | forked pid c base k' hf =>
      by_cases hq : q = c
      · subst hq
        exact ⟨fun hlt => absurd hf.high (by omega), fun _ _ => hf.ownsImage⟩
      · have heq : k'.procTable q = k.procTable q := by rw [hf.procTable, if_neg hq]
        exact h.of_same (by rw [heq]) (by rw [Live, Live, heq]; exact id)
    | full pid => exact ⟨h.native q, h.owns q⟩
    | renamed fs src path k' _ ht =>
      have heq := ht q
      refine h.of_same ?_ ?_
      · rw [heq]
        split_ifs with hq
        · rw [hq]
        · rfl
      · rw [Live, Live, heq]
        split_ifs with hq
        · rw [hq]
          exact id
        · exact id
    | refused fs src k' ht => exact h.of_same (by rw [ht]) (by rw [Live, Live, ht]; exact id)
    | other a k' hk => exact h.of_same (hk q).ldts (hk q).live
  exact ⟨fun q hq => (hall q).1 hq, fun q hq hl => (hall q).2 hq hl⟩

theorem Segments.of_run {t : List PmAct} (h : Run Start (PmStep mm) t k) : Segments k := by
  refine h.invariant (P := fun _ k => Segments k) ?_ fun _ _ _ _ hk hs => hk.step hs
  rintro k ⟨mem, limit, rfl⟩
  exact .start mem limit

theorem OwnsImage.covers (h : OwnsImage k p) (i : Fin 2) {x : Addr} :
    ((k.procTable p).ldts i).Covers x ↔ InImage p x := by
  obtain ⟨hb, hs⟩ := h i
  have himage := imageBase_le p
  have hsize : procImageSizeDefault.toNat = 0x100000 := rfl
  unfold Descriptor.Covers InImage Within
  rw [hs, hsize]
  rw [← hb] at himage ⊢
  bv_omega

/-- The images of two slots share nothing. -/
theorem not_inImage {q : Slot} (hp : nrTasks + nrNativeProcs ≤ p.val)
    (hq : nrTasks + nrNativeProcs ≤ q.val) (hpq : p ≠ q) {x : Addr} (hx : InImage p x) :
    ¬ InImage q x := by
  have hne : p.val ≠ q.val := fun he => hpq (Fin.ext he)
  have hp' : 9 ≤ p.val := hp
  have hq' : 9 ≤ q.val := hq
  have hsize : procImageSizeDefault.toNat = 0x100000 := rfl
  simp only [InImage, hsize, imageBase_eq] at hx ⊢
  omega

/-! ## Above the memory -/

/-- What is asked of the memory of forked processes. -/
structure Placed (mm : MmEnv) (k : Kernel) : Prop where
  owns : ∀ p : Slot, nrTasks + nrNativeProcs ≤ p.val → Live k p → OwnsImage k p
  above : ∀ p : Slot, nrTasks + nrNativeProcs ≤ p.val → Live k p → ∀ i x,
    ((k.procTable p).ldts i).Covers x → procsBase.toNat ≤ x.toNat
  apart : ∀ p q : Slot, nrTasks + nrNativeProcs ≤ p.val → nrTasks + nrNativeProcs ≤ q.val →
    p ≠ q → Live k p → Live k q → ∀ i j x, ((k.procTable p).ldts i).Covers x →
      ¬ ((k.procTable q).ldts j).Covers x
  below : ∀ p : Slot, nrTasks + nrNativeProcs ≤ p.val → Live k p → ∀ i x,
    ((k.procTable p).ldts i).Covers x → (x.toNat : ℤ) < mm.memorySize.toInt

/-- A fork for a process for which `memory_size` is not between the end of what is copied and the
end of the MB. -/
def ForkFits (mm : MmEnv) (k : Kernel) : PmAct → Prop
  | .fork pid (some c) => Live k pid →
    ¬ ((imageBase c : ℤ) +
          (segSize ((k.procTable pid).ldts 0).limit ((k.procTable pid).ldts 0)).toInt <
        mm.memorySize.toInt ∧
      mm.memorySize.toInt < imageBase c + procImageSizeDefault.toNat)
  | _ => True

/-- The check that an allocation has passed. -/
theorem allocMem_room {size base : BitVec 32} (h : allocMem mm c size = .ok base) :
    (imageBase c : ℤ) + size.toInt < mm.memorySize.toInt := by
  obtain ⟨-, hbase⟩ := allocMem_base h
  unfold allocMem at h
  rw [assert_bind_eq_ok] at h
  obtain ⟨-, h⟩ := h
  dsimp only at h
  split_ifs at h with hsize hroom
  obtain rfl := Except.ok.inj h
  have hlim : procImageSizeDefault.toInt = 0x100000 := by decide
  have hb := imageBase_le c
  generalize procsBase + _ = base at *
  rw [hlim] at hsize
  have hlow : -2 ^ 31 ≤ size.toInt := BitVec.le_toInt size
  have hint : base.toInt = base.toNat := BitVec.toInt_eq_toNat_of_lt (by omega)
  rw [BitVec.toInt_add, Int.bmod_eq_of_le (by omega) (by omega)] at hroom
  omega

theorem Segments.above (h : Segments k) (hp : nrTasks + nrNativeProcs ≤ p.val) (hl : Live k p)
    {i : Fin 2} {x : Addr} (hx : ((k.procTable p).ldts i).Covers x) :
    procsBase.toNat ≤ x.toNat := by
  have := (((h.owns p hp hl).covers i).1 hx).1
  unfold imageBase at this
  omega

theorem Segments.apart (h : Segments k) {q : Slot} (hp : nrTasks + nrNativeProcs ≤ p.val)
    (hq : nrTasks + nrNativeProcs ≤ q.val) (hpq : p ≠ q) (hlp : Live k p) (hlq : Live k q)
    {i j : Fin 2} {x : Addr} (hx : ((k.procTable p).ldts i).Covers x) :
    ¬ ((k.procTable q).ldts j).Covers x := by
  rw [(h.owns q hq hlq).covers]
  exact not_inImage hp hq hpq (((h.owns p hp hlp).covers i).1 hx)

/-- A process lies below the end of memory just when its MB ends there or before. -/
theorem OwnsImage.below_iff (h : OwnsImage k p) :
    (∀ i x, ((k.procTable p).ldts i).Covers x → (x.toNat : ℤ) < mm.memorySize.toInt) ↔
      (imageBase p : ℤ) + procImageSizeDefault.toNat ≤ mm.memorySize.toInt := by
  have hsize : procImageSizeDefault.toNat = 0x100000 := rfl
  have himage := imageBase_le p
  constructor
  · intro hall
    -- the last byte of the MB
    have hx : InImage p (BitVec.ofNat 32 (imageBase p + 0xFFFFF)) := by
      unfold InImage
      rw [hsize, BitVec.toNat_ofNat]
      omega
    have := hall 0 _ ((h.covers 0).2 hx)
    rw [BitVec.toNat_ofNat] at this
    omega
  · intro hend i x hx
    have := ((h.covers i).1 hx).2
    omega

/-- A fork that succeeds leaves its child below the end of memory just when it fits. -/
theorem Forks.below_iff {base : BitVec 32} (h : Forks mm k pid c base k') (hl : Live k pid) :
    (imageBase c : ℤ) + procImageSizeDefault.toNat ≤ mm.memorySize.toInt ↔
      ForkFits mm k (.fork pid (some c)) := by
  have hroom := allocMem_room h.alloc
  refine ⟨fun hend _ hbad => by omega, fun hfits => ?_⟩
  by_contra hend
  exact hfits hl ⟨hroom, by omega⟩

theorem Forks.live_iff {base : BitVec 32} (h : Forks mm k pid c base k') (q : Slot) :
    Live k' q ↔ if q = c then Live k pid else Live k q := by
  unfold Live
  rw [h.procTable]
  split_ifs <;> rfl

/-- The end of memory, for those that are there. -/
def BelowEnd (mm : MmEnv) (k : Kernel) : Prop := ∀ p : Slot, nrTasks + nrNativeProcs ≤ p.val →
  Live k p → (imageBase p : ℤ) + procImageSizeDefault.toNat ≤ mm.memorySize.toInt

theorem placed_iff (h : Segments k) : Placed mm k ↔ BelowEnd mm k := by
  constructor
  · exact fun hp p hn hl => (h.owns p hn hl).below_iff.1 (hp.below p hn hl)
  · intro hb
    exact ⟨h.owns, fun p hn hl i x => h.above hn hl, fun p q hp hq hpq hlp hlq i j x =>
      h.apart hp hq hpq hlp hlq, fun p hn hl => (h.owns p hn hl).below_iff.2 (hb p hn hl)⟩

/-- No step but a fork takes an entry into use, so nothing else changes where processes lie. -/
theorem belowEnd_step_iff (h : BelowEnd mm k) {a : PmAct} (hs : PmStep mm k a k') :
    BelowEnd mm k' ↔ ForkFits mm k a := by
  have hsame (hlive : ∀ q, Live k' q → Live k q) : BelowEnd mm k' :=
    fun p hp hl => h p hp (hlive p hl)
  have ho := pmStep_outcome hs
  cases ho with
  | forked pid c base k' hf =>
    constructor
    · intro hb hl
      refine (hf.below_iff hl).1 (hb c hf.high ?_) hl
      rw [hf.live_iff, if_pos rfl]
      exact hl
    · intro hfits p hp hl
      rw [hf.live_iff] at hl
      split_ifs at hl with hpc
      · rw [hpc]
        exact (hf.below_iff hl).2 hfits
      · exact h p hp hl
  | full pid => exact iff_of_true h trivial
  | renamed fs src path k' _ ht =>
    refine iff_of_true (hsame fun q hl => ?_) trivial
    rw [Live, ht] at hl
    split_ifs at hl with hq
    · rw [hq]
      exact hl
    · exact hl
  | refused fs src k' ht => exact iff_of_true (hsame fun q hl => by rwa [Live, ht] at hl) trivial
  | other a k' hk => exact iff_of_true (hsame fun q => (hk q).live) trivial

/-- In every run whose forks fit, each process that was forked has its MB to itself, above
`PROCS_BASE` and below the end of memory; and a further step leaves it so just when it fits. -/
theorem forked_memory_private {t : List PmAct}
    (h : Run Start (fun k a k' => PmStep mm k a k' ∧ ForkFits mm k a) t k) :
    Placed mm k ∧ ∀ a k', PmStep mm k a k' → (Placed mm k' ↔ ForkFits mm k a) := by
  have hseg : Segments k := .of_run (h.mono fun _ _ _ hs => hs.1)
  have hb : BelowEnd mm k := by
    refine h.invariant (P := fun _ k => BelowEnd mm k) ?_ fun _ _ _ _ hk hs =>
      (belowEnd_step_iff hk hs.1).2 hs.2
    rintro k ⟨mem, limit, rfl⟩ p hp hl
    exact absurd hl (not_live_start hp mem limit)
  refine ⟨(placed_iff hseg).2 hb, fun a k' hs => ?_⟩
  rw [placed_iff (hseg.step hs), belowEnd_step_iff hb hs]

/-- In 64 MB there is a MB for each entry. -/
theorem forkFits_64 (k : Kernel) : ∀ a, ForkFits mmEnv64 k a
  | .fork _ (some c) => by
    intro _ hbad
    have hend : ∀ c : Slot, (imageBase c : ℤ) + procImageSizeDefault.toNat ≤
        mmEnv64.memorySize.toInt := by decide
    have := hend c
    omega
  | .fork _ none => trivial
  | .exec .. => trivial
  | .other _ => trivial

/-- `INIT` forks, its child does, and `INIT` does again. -/
def family : List PmAct := [.fork init (some 9), .fork 9 (some 10), .fork init (some 11)]

/-- A fork, as it is computed. -/
def forkStep64 (k : Kernel) : PmAct → Option Kernel
  | .fork pid child => (forkProc mmEnv64 k pid).toOption.bind fun r =>
      if (k.procTable taskMm).pFlags = 0 ∧ r.1 = child then some r.2 else none
  | _ => none

theorem forkStep64_step {k k' : Kernel} {a : PmAct} (h : forkStep64 k a = some k') :
    PmStep mmEnv64 k a k' := by
  cases a with
  | fork pid child =>
    obtain ⟨⟨c, k₁⟩, hk, h⟩ := Option.bind_eq_some_iff.1 h
    dsimp only at h
    split_ifs at h with hc
    obtain rfl := Option.some.inj h
    exact ⟨hc.1, by rw [← hc.2]; exact toOption_eq_some.1 hk⟩
  | exec => exact nomatch h
  | other => exact nomatch h

/-- They have their memory to themselves, in a memory of 64 MB. -/
theorem forked_memory_private_family : ∃ k,
    Run Start (fun k a k' => PmStep mmEnv64 k a k' ∧ ForkFits mmEnv64 k a) family.reverse k ∧
    (Live k 9 ∧ Live k 10 ∧ Live k 11) ∧ Placed mmEnv64 k ∧
      ∀ a k', PmStep mmEnv64 k a k' → (Placed mmEnv64 k' ↔ ForkFits mmEnv64 k a) := by
  have hany : (Run.exec forkStep64 (kernelMain (fun _ => 0) 0) family).any
      (fun k => Live k 9 ∧ Live k 10 ∧ Live k 11) = true := by decide
  obtain ⟨k, hk, hlive⟩ := (Option.any_eq_true _ _).1 hany
  have hrun := (Run.of_exec (.start (show Start (kernelMain (fun _ => 0) 0) from ⟨_, _, rfl⟩))
    hk).mono fun k a _ hs => (⟨forkStep64_step hs, forkFits_64 k a⟩ : _ ∧ ForkFits mmEnv64 k a)
  rw [List.append_nil] at hrun
  exact ⟨k, hrun, of_decide_eq_true hlive, forked_memory_private hrun⟩

/-- A memory that ends in the middle of the first MB for a child. -/
def mmEnvHalf : MmEnv := { mmEnv64 with memorySize := 0xA80000 }

/-- `INIT`, which has 4 KB, forks all the same. -/
theorem forked_above_memory : ∃ k t, Run Start (PmStep mmEnvHalf) t k ∧ ¬ Placed mmEnvHalf k := by
  have hany : (forkProc mmEnvHalf (kernelMain (fun _ => 0) 0) init).toOption.any
      (fun r => r.1 = some 9 ∧ Live r.2 9) = true := by decide
  obtain ⟨⟨c, k⟩, hk, hany⟩ := exists_ok_of_any hany
  obtain ⟨rfl, hlive⟩ := of_decide_eq_true hany
  have hr : Run Start (PmStep mmEnvHalf) [.fork init (some 9)] k :=
    .snoc (.start ⟨_, _, rfl⟩) ⟨rfl, hk⟩
  refine ⟨k, _, hr, fun hp => ?_⟩
  have hb := (placed_iff (.of_run hr)).1 hp 9 (by decide) hlive
  exact absurd hb (by decide)

/-! ## What is copied -/

theorem segSize_eq (d : Descriptor) : segSize d.limit d = BitVec.ofNat 32 d.size := by
  unfold segSize Descriptor.size
  split_ifs <;> bv_omega

/-- The size that `do_fork` computes, as an `int`, is right just below 2 GB. -/
theorem segSize_toInt_iff (d : Descriptor) :
    (segSize d.limit d).toInt = d.size ↔ d.size < 2 ^ 31 := by
  rw [segSize_eq]
  constructor
  · intro h
    have : (BitVec.ofNat 32 d.size).toInt < 2 ^ 31 := BitVec.toInt_lt
    omega
  · intro h
    rw [BitVec.toInt_ofNat', Int.bmod_eq_of_le (by omega) (by omega)]

/-- The size is computed right; then a size over a MB is refused, and what a fork makes starts with
the bytes of its parent, which keeps them. -/
structure CopiesOrRefuses (mm : MmEnv) (k : Kernel) (pid : Slot) : Prop where
  size : (segSize ((k.procTable pid).ldts 0).limit ((k.procTable pid).ldts 0)).toInt =
    ((k.procTable pid).ldts 0).size
  refuses : procImageSizeDefault.toNat < ((k.procTable pid).ldts 0).size → ∀ c : Slot,
    nrTasks + nrNativeProcs ≤ c.val →
      allocMem mm c (segSize ((k.procTable pid).ldts 0).limit ((k.procTable pid).ldts 0)) =
        .error .panic
  copies : ∀ c k', forkProc mm k pid = .ok (some c, k') →
    ∀ i < ((k.procTable pid).ldts 0).size,
      k'.mem (((k'.procTable c).ldts 0).linear + BitVec.ofNat 32 i) =
          k'.mem (((k.procTable pid).ldts 0).linear + BitVec.ofNat 32 i) ∧
        k'.mem (((k.procTable pid).ldts 0).linear + BitVec.ofNat 32 i) =
          k.mem (((k.procTable pid).ldts 0).linear + BitVec.ofNat 32 i)

theorem allocMem_refuses {size : BitVec 32} (hc : nrTasks + nrNativeProcs ≤ c.val)
    (hsize : procImageSizeDefault.toInt < size.toInt) : allocMem mm c size = .error .panic := by
  unfold allocMem
  rw [assert_of hc, ok_bind, if_pos hsize]

theorem findFree_not_live (h : findFree k = some c) : ¬ Live k c := by
  rw [Live, findFree_some h]
  decide

/-- What a fork has copied is no more than a MB, where the size has not wrapped. -/
theorem Forks.size_le {base : BitVec 32} (h : Forks mm k pid c base k')
    (hlt : ((k.procTable pid).ldts 0).size < 2 ^ 31) :
    ((k.procTable pid).ldts 0).size ≤ procImageSizeDefault.toNat := by
  have hint := (segSize_toInt_iff ((k.procTable pid).ldts 0)).2 hlt
  have hmb : procImageSizeDefault.toInt = 0x100000 := by decide
  have hmb' : procImageSizeDefault.toNat = 0x100000 := rfl
  by_contra hbig
  have := h.alloc.symm.trans (allocMem_refuses h.high (by omega))
  cases this

/-- What a fork copies does not reach into where it goes. -/
theorem Forks.apart {base : BitVec 32} (hseg : Segments k)
    (hl : nrTasks + nrNativeProcs ≤ pid.val → Live k pid) (h : Forks mm k pid c base k')
    (hsize : ((k.procTable pid).ldts 0).size ≤ procImageSizeDefault.toNat) :
    Apart base ((k.procTable pid).ldts 0).size ((k.procTable pid).ldts 0).linear
      ((k.procTable pid).ldts 0).size := by
  obtain ⟨hc, hbase⟩ := allocMem_base h.alloc
  have hc' : 9 ≤ c.val := hc
  have himage := imageBase_le c
  have hmb : procImageSizeDefault.toNat = 0x100000 := rfl
  have hne : pid ≠ c := by
    rintro rfl
    exact findFree_not_live h.free (hl hc)
  intro x hx hx'
  unfold Within at hx hx'
  by_cases hp : pid.val < nrTasks + nrNativeProcs
  · -- a native process is at 0
    rw [h.same, hseg.native pid hp] at hx'
    rw [imageBase_eq] at hbase
    bv_omega
  · have hown := hseg.owns pid (not_lt.1 hp) (hl (not_lt.1 hp)) 0
    refine not_inImage (not_lt.1 hp) hc hne (x := x) ?_ ?_
    · unfold InImage
      have := imageBase_le pid
      rw [← hown.1] at this ⊢
      bv_omega
    · unfold InImage
      rw [← hbase] at himage ⊢
      bv_omega

theorem Forks.copies {base : BitVec 32} (hseg : Segments k)
    (hl : nrTasks + nrNativeProcs ≤ pid.val → Live k pid) (h : Forks mm k pid c base k')
    (hlt : ((k.procTable pid).ldts 0).size < 2 ^ 31) {i : ℕ}
    (hi : i < ((k.procTable pid).ldts 0).size) :
    k'.mem (((k'.procTable c).ldts 0).linear + BitVec.ofNat 32 i) =
        k'.mem (((k.procTable pid).ldts 0).linear + BitVec.ofNat 32 i) ∧
      k'.mem (((k.procTable pid).ldts 0).linear + BitVec.ofNat 32 i) =
        k.mem (((k.procTable pid).ldts 0).linear + BitVec.ofNat 32 i) := by
  have happart := h.apart hseg hl (h.size_le hlt)
  have hnat : (segSize ((k.procTable pid).ldts 0).limit ((k.procTable pid).ldts 0)).toNat =
      ((k.procTable pid).ldts 0).size := by
    rw [segSize_eq, BitVec.toNat_ofNat]
    omega
  have hmem : k'.mem = poke k.mem base ((k.procTable pid).ldts 0).size fun j =>
      k.mem (((k.procTable pid).ldts 0).linear + BitVec.ofNat 32 j) := by
    rw [h.mem, hnat]
    exact memcpy_eq_poke _ _ _ _ (by omega) happart
  have hbase : ((k'.procTable c).ldts 0).linear = base := by
    rw [h.procTable, if_pos rfl]
    exact childLdts_linear base 0
  have hkeep : k'.mem (((k.procTable pid).ldts 0).linear + BitVec.ofNat 32 i) =
      k.mem (((k.procTable pid).ldts 0).linear + BitVec.ofNat 32 i) := by
    rw [hmem]
    exact poke_of_not_within fun hx => happart _ hx (within_add_ofNat _ hi (by omega))
  refine ⟨?_, hkeep⟩
  rw [hkeep, hbase, hmem]
  exact poke_add hi (by omega)

/-- In every run, for every process that is there, a fork copies its segment or refuses to just when
the segment is smaller than 2 GB. -/
theorem fork_copies_iff {t : List PmAct} (h : Run Start (PmStep mm) t k) (hl : Live k pid) :
    CopiesOrRefuses mm k pid ↔ ((k.procTable pid).ldts 0).size < 2 ^ 31 := by
  constructor
  · exact fun hc => (segSize_toInt_iff _).1 hc.size
  · intro hlt
    have hint := (segSize_toInt_iff ((k.procTable pid).ldts 0)).2 hlt
    have hmb : procImageSizeDefault.toInt = 0x100000 := by decide
    have hmb' : procImageSizeDefault.toNat = 0x100000 := rfl
    refine ⟨hint, fun hbig c hc => allocMem_refuses hc (by omega), fun c k' hf i hi => ?_⟩
    obtain ⟨base, hforks⟩ := forkProc_forks hf
    exact hforks.copies (.of_run h) (fun _ => hl) hlt hi

/-- `INIT`, of 4 KB, is copied. -/
theorem fork_copies_init : CopiesOrRefuses mmEnv64 (kernelMain (fun _ => 0) 0) init ↔
    (((kernelMain (fun _ => 0) 0).procTable init).ldts 0).size < 2 ^ 31 :=
  fork_copies_iff (.start ⟨_, _, rfl⟩) (by decide)

/-- `TestA`, with a flat segment, forks: the size is computed as 0. -/
theorem fork_copies_nothing : Run Start (PmStep mmEnv64) [] (kernelMain (fun _ => 0) 0) ∧
    Live (kernelMain (fun _ => 0) 0) 6 ∧
    (forkProc mmEnv64 (kernelMain (fun _ => 0) 0) 6).toOption.any (fun r => r.1 = some 9) = true ∧
    ¬ CopiesOrRefuses mmEnv64 (kernelMain (fun _ => 0) 0) 6 :=
  ⟨.start ⟨_, _, rfl⟩, by decide, by decide, fun h => absurd h.size (by decide)⟩

end MyOS
