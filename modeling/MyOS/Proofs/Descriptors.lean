import MyOS.Descriptors
import MyOS.Proofs.ForkMemory

/-!
# Descriptors are decoded as they were encoded

The fields lie apart, so a sum of them is their or: the readers agree on every descriptor, and on
one that `init_descriptor` has written they get base and limit back. A child keeps the descriptors
of its fork, whatever it runs.
-/

namespace MyOS

variable {mm : MmEnv} {k k' : Kernel} {pid c p : Slot}

/-! ## Sums of fields -/

/-- What is shifted lies above what is as narrow as the shift. -/
theorem shiftLeft_and_setWidth {w : ℕ} (x : BitVec 32) (y : BitVec w) :
    x <<< w &&& y.setWidth 32 = 0 := by
  refine BitVec.eq_of_getLsbD_eq fun i hi => ?_
  rw [BitVec.getLsbD_and, BitVec.getLsbD_shiftLeft, BitVec.getLsbD_setWidth]
  by_cases h : i < w
  · simp [h]
  · simp [BitVec.getLsbD_of_ge y i (by omega)]

theorem shiftLeft_add_setWidth {w : ℕ} (x : BitVec 32) (y : BitVec w) :
    x <<< w + y.setWidth 32 = x <<< w ||| y.setWidth 32 :=
  BitVec.add_eq_or_of_and_eq_zero _ _ (shiftLeft_and_setWidth x y)

/-- The base a sum gives is the one that or gives. -/
theorem callerBase_eq (d : Descriptor) : callerBase d = d.linear := by
  -- the high byte over the middle one, at the place of the middle one
  have hhigh : d.baseHigh.setWidth 32 <<< 24 + d.baseMid.setWidth 32 <<< 16 =
      (d.baseHigh.setWidth 32 <<< 8 ||| d.baseMid.setWidth 32) <<< 16 := by
    rw [BitVec.shiftLeft_or_distrib, ← BitVec.shiftLeft_add]
    refine BitVec.add_eq_or_of_and_eq_zero _ _ ?_
    rw [BitVec.shiftLeft_add _ 8 16, ← BitVec.shiftLeft_and_distrib, shiftLeft_and_setWidth]
    exact BitVec.zero_shiftLeft 16
  rw [callerBase, reassembly, hhigh, shiftLeft_add_setWidth, BitVec.shiftLeft_or_distrib,
    ← BitVec.shiftLeft_add]
  rfl

theorem callerTLimit_eq (d : Descriptor) : callerTLimit d = d.limit := by
  have h0 : (0 : BitVec 32) <<< 0 = 0 := rfl
  rw [callerTLimit, reassembly, h0]
  exact congrArg (· + _) (BitVec.zero_add _)

theorem callerDSLimit_eq (d : Descriptor) : callerDSLimit d = d.limit := by
  have h0 : (0 : BitVec 32) <<< 0 = 0 := rfl
  rw [callerDSLimit, reassembly, h0]
  exact congrArg (· + _) (BitVec.add_zero _)

/-- The test is made on a word. -/
theorem granularity_ne_zero_iff (d : Descriptor) : granularity d ≠ 0 ↔ d.limit4k = true := by
  have hword : granularity d =
      (d.limitHighAttr2 &&& (daLimit4k >>> 8).setWidth 8).setWidth 32 := by
    rw [BitVec.setWidth_and]
    rfl
  rw [hword, Descriptor.limit4k, decide_eq_true_iff, not_iff_not]
  constructor
  · intro h
    refine BitVec.eq_of_toNat_eq ?_
    have hnat := congrArg BitVec.toNat h
    rwa [BitVec.toNat_setWidth_of_le (by decide)] at hnat
  · intro h
    rw [h]
    rfl

/-- The sizes `do_fork` computes, of the limit of the first segment both. -/
theorem callerTSize_eq (x : Proc) : callerTSize x = segSize (x.ldts 0).limit (x.ldts 0) := by
  rw [callerTSize, segSize, callerTLimit_eq]
  simp only [granularity_ne_zero_iff]

theorem callerDSSize_eq (x : Proc) : callerDSSize x = segSize (x.ldts 0).limit (x.ldts 1) := by
  rw [callerDSSize, segSize, callerTLimit_eq]
  simp only [granularity_ne_zero_iff]

/-! ## What has been encoded -/

theorem seg2linear_eq (gdt : Gdt) {seg : BitVec 16} {i : Fin gdtSize}
    (hi : (seg >>> 3).toNat = i.val) : seg2linear gdt seg = .ok (gdt i).linear := by
  have hlt : (seg >>> 3).toNat < gdtSize := hi ▸ i.isLt
  have heq : (⟨(seg >>> 3).toNat, hlt⟩ : Fin gdtSize) = i := Fin.ext hi
  rw [seg2linear, dif_pos hlt, heq]
  rfl

/-- Of the attributes, the test sees one bit, and none of the limit. -/
theorem granularity_initDescriptor (base limit : BitVec 32) (attr : BitVec 16) :
    granularity (initDescriptor base limit attr) = ((attr &&& daLimit4k) >>> 8).setWidth 32 := by
  have hmask : ∀ i < 32, ((daLimit4k >>> 8).setWidth 32).getLsbD i = decide (i = 7) ∧
      daLimit4k.getLsbD (8 + i) = decide (i = 7) := by decide
  refine BitVec.eq_of_getLsbD_eq fun i hi => ?_
  rw [granularity, BitVec.getLsbD_and, (hmask i hi).1, BitVec.getLsbD_setWidth,
    BitVec.getLsbD_setWidth, BitVec.getLsbD_ushiftRight, BitVec.getLsbD_and, (hmask i hi).2]
  by_cases h7 : i = 7
  · subst h7
    simp [initDescriptor]
  · simp [h7]

/-- A limit of twenty bits is kept whole. -/
theorem decodes (base : BitVec 32) (limit : BitVec 20) (attr : BitVec 16) :
    Decodes base (limit.setWidth 32) attr := by
  have hlimit : (initDescriptor base (limit.setWidth 32) attr).limit = limit.setWidth 32 := by
    refine BitVec.eq_of_toNat_eq ?_
    rw [limit_initDescriptor, BitVec.toNat_setWidth_of_le (by decide)]
    exact Nat.mod_eq_of_lt limit.isLt
  constructor
  · intro x idx
    have hd : (x.initLdt idx base (limit.setWidth 32) attr).ldts idx =
        initDescriptor base (limit.setWidth 32) attr := Function.update_self ..
    change Descriptor.linear _ = base
    rw [hd, linear_initDescriptor]
  · intro gdt i seg hi
    rw [seg2linear_eq _ hi, Gdt.init, Function.update_self, linear_initDescriptor]
  · rw [callerBase_eq, linear_initDescriptor]
  · rw [callerTLimit_eq, hlimit]
  · rw [callerDSLimit_eq, hlimit]
  · exact granularity_initDescriptor _ _ _

/-! ## Forks of forks -/

/-- A process that is there holds the descriptors that its fork has written. -/
def HoldsLdts (mm : MmEnv) (k : Kernel) (p : Slot) : Prop :=
  ∃ size base, allocMem mm p size = .ok base ∧ (k.procTable p).ldts = childLdts base

theorem holdsLdts_step {a : PmAct} (hs : PmStep mm k a k') (hl : Live k' p)
    (h : Live k p → HoldsLdts mm k p) : HoldsLdts mm k' p := by
  have hsame (hldts : (k'.procTable p).ldts = (k.procTable p).ldts) (hlive : Live k p) :
      HoldsLdts mm k' p := by
    obtain ⟨size, base, halloc, hheld⟩ := h hlive
    exact ⟨size, base, halloc, hldts.trans hheld⟩
  have ho := pmStep_outcome hs
  cases ho with
  | forked pid c base k' hf =>
    by_cases hp : p = c
    · subst hp
      refine ⟨_, base, hf.alloc, ?_⟩
      rw [hf.procTable, if_pos rfl]
      rfl
    · have heq : k'.procTable p = k.procTable p := by rw [hf.procTable, if_neg hp]
      rw [Live, heq] at hl
      exact hsame (congrArg _ heq) hl
  | full pid => exact h hl
  | renamed fs src path k' _ ht =>
    have heq := ht p
    rw [Live, heq] at hl
    refine hsame ?_ ?_
    · rw [heq]
      split_ifs with hq
      · rw [hq]
      · rfl
    · rw [Live]
      split_ifs at hl with hq
      · rw [hq]
        exact hl
      · exact hl
  | refused fs src k' ht =>
    rw [Live, ht] at hl
    exact hsame (by rw [ht]) hl
  | other a k' hk => exact hsame (hk p).ldts ((hk p).live hl)

theorem holdsLdts_of_run {t : List PmAct} (h : Run Start (PmStep mm) t k)
    (hp : nrTasks + nrNativeProcs ≤ p.val) (hl : Live k p) : HoldsLdts mm k p := by
  refine h.invariant (P := fun _ k => Live k p → HoldsLdts mm k p) ?_
    (fun _ _ _ _ hk hs hl => holdsLdts_step hs hl hk) hl
  rintro k ⟨mem, limit, rfl⟩ hl
  exact absurd hl (not_live_start hp mem limit)

/-- The descriptors of a child: both give it the MB it has. -/
theorem childLdts_segSize (base : BitVec 32) (i : Fin 2) :
    segSize (childLdts base 0).limit (childLdts base i) = procImageSizeDefault := by
  have hbase : ∀ i, segSize (childLdts base 0).limit (childLdts base i) =
      segSize (childLdts 0 0).limit (childLdts 0 i) := Fin.forall_fin_two.2 ⟨rfl, rfl⟩
  rw [hbase]
  exact (show ∀ i, segSize (childLdts 0 0).limit (childLdts 0 i) = procImageSizeDefault by
    decide) i

theorem HoldsLdts.forkReads (h : HoldsLdts mm k p) : ForkReads mm k p := by
  obtain ⟨size, base, halloc, hldts⟩ := h
  have htsize : callerTSize (k.procTable p) = procImageSizeDefault := by
    rw [callerTSize_eq, hldts, childLdts_segSize]
  have hhigh := (allocMem_base halloc).1
  constructor
  · refine ⟨size, base, halloc, fun va => ?_⟩
    unfold va2la
    rw [if_neg (by omega), hldts, childLdts_linear]
  · exact htsize
  · rw [callerDSSize_eq, hldts, childLdts_segSize]
  · intro c k' hf
    obtain ⟨cbase, hforks⟩ := forkProc_forks hf
    rw [callerTSize_eq] at htsize
    refine ⟨cbase, htsize ▸ hforks.alloc, ?_⟩
    rw [hforks.mem, htsize, callerBase_eq]

/-- Descriptors are decoded as they were encoded, for all bases, limits of twenty bits and
attributes, and so, in every run, for the processes that are forked. -/
theorem descriptors_decode :
    (∀ (base : BitVec 32) (limit : BitVec 20) (attr : BitVec 16),
      Decodes base (limit.setWidth 32) attr) ∧
    ∀ (mm : MmEnv) (t : List PmAct) (k : Kernel), Run Start (PmStep mm) t k → ∀ p : Slot,
      nrTasks + nrNativeProcs ≤ p.val → Live k p → ForkReads mm k p :=
  ⟨decodes, fun _ _ _ h _ hp hl => (holdsLdts_of_run h hp hl).forkReads⟩

/-- `INIT` has forked and its child has, and the child of the child can fork. -/
theorem descriptors_decode_nested : ∃ k t, Run Start (PmStep mmEnv64) t k ∧
    (forkProc mmEnv64 k 10).toOption.any (fun r => r.1 = some 11) = true ∧
      ForkReads mmEnv64 k 10 := by
  have hany : (Run.exec (mmStep mmEnv64) (kernelMain (fun _ => 0) 0) [.fork 5, .fork 9]).any
      (fun k => Live k 10 ∧ (forkProc mmEnv64 k 10).toOption.any (fun r => r.1 = some 11) = true) =
        true := by decide
  obtain ⟨k, hk, hp⟩ := (Option.any_eq_true _ _).1 hany
  obtain ⟨t, ht⟩ := exists_pmRun (Run.of_exec (.start ⟨_, _, rfl⟩) hk)
  obtain ⟨hlive, hfork⟩ := of_decide_eq_true hp
  exact ⟨k, t, ht, hfork, descriptors_decode.2 mmEnv64 t k ht 10 (by decide) hlive⟩

end MyOS
