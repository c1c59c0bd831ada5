import MyOS.ForkExit
import MyOS.Proofs.Ipc

/-!
# The send queues under fork and exit

A fork copies the whole entry of the parent into a free one, and a clean up frees an entry, each
without a look at the links. The queues come through where there is nothing to copy or to lose.
-/

namespace MyOS

open Memory Pointer

/-! ## Flags -/

theorem or_and_of_disjoint {x y z : BitVec 32} (h : y &&& z = 0) : (x ||| y) &&& z = x &&& z := by
  rw [BitVec.and_or_distrib_right, h]
  exact BitVec.or_zero

theorem and_not_and {x y z : BitVec 32} (h : ~~~y &&& z = z) : (x &&& ~~~y) &&& z = x &&& z := by
  rw [BitVec.and_assoc, h]

/-- Two states of a process that messages do not tell apart. -/
structure SameIpc (x y : Proc) : Prop where
  sending : y.pFlags &&& sending = x.pFlags &&& sending
  receiving : y.pFlags &&& receiving = x.pFlags &&& receiving
  free : y.pFlags &&& freeSlot = x.pFlags &&& freeSlot
  pMsg : y.pMsg = x.pMsg
  pRecvfrom : y.pRecvfrom = x.pRecvfrom
  pSendto : y.pSendto = x.pSendto
  qSending : y.qSending = x.qSending
  nextSending : y.nextSending = x.nextSending

namespace SameIpc

theorem refl (x : Proc) : SameIpc x x := ⟨rfl, rfl, rfl, rfl, rfl, rfl, rfl, rfl⟩

theorem trans {x y z : Proc} (h : SameIpc x y) (h' : SameIpc y z) : SameIpc x z :=
  ⟨h'.1.trans h.1, h'.2.trans h.2, h'.3.trans h.3, h'.4.trans h.4, h'.5.trans h.5, h'.6.trans h.6,
    h'.7.trans h.7, h'.8.trans h.8⟩

/-- A bit of its own, set or cleared, is none of the blocking flags. -/
theorem setFlag (x : Proc) {b : BitVec 32} (hs : b &&& MyOS.sending = 0)
    (hr : b &&& MyOS.receiving = 0) (hf : b &&& freeSlot = 0) :
    SameIpc x { x with pFlags := x.pFlags ||| b } :=
  ⟨or_and_of_disjoint hs, or_and_of_disjoint hr, or_and_of_disjoint hf, rfl, rfl, rfl, rfl, rfl⟩

theorem clearFlag (x : Proc) {b : BitVec 32} (hs : ~~~b &&& MyOS.sending = MyOS.sending)
    (hr : ~~~b &&& MyOS.receiving = MyOS.receiving) (hf : ~~~b &&& freeSlot = freeSlot) :
    SameIpc x { x with pFlags := x.pFlags &&& ~~~b } :=
  ⟨and_not_and hs, and_not_and hr, and_not_and hf, rfl, rfl, rfl, rfl, rfl⟩

/-- A write to one process that messages do not see. -/
theorem set {k : Kernel} {p : Slot} {f : Proc → Proc}
    (h : SameIpc (k.procTable p) (f (k.procTable p)))
    (q : Slot) : SameIpc (k.procTable q) ((k.set p f).procTable q) := by
  rw [Kernel.set_procTable]
  split_ifs with hq
  · rw [hq]
    exact h
  · exact refl _

end SameIpc

theorem Consistent.sameIpc {x y : Proc} (h : Consistent x) (hxy : SameIpc x y) : Consistent y := by
  obtain ⟨h1, h2, h3, h4⟩ := h
  refine ⟨?_, ?_, ?_, ?_⟩ <;>
    simp only [Sending, Receiving, hxy.sending, hxy.receiving, hxy.free, hxy.pMsg, hxy.pRecvfrom,
      hxy.pSendto] <;> assumption

namespace QueueInv

variable {k k' : Kernel} {queue : Slot → List Slot}

theorem sameIpc (h : QueueInv k queue)
    (hk : ∀ q, SameIpc (k.procTable q) (k'.procTable q)) : QueueInv k' queue := by
  have hnext : (fun s => (k'.procTable s).nextSending) = fun s => (k.procTable s).nextSending :=
    funext fun s => (hk s).nextSending
  have hs (s : Slot) : Sending (k'.procTable s) ↔ Sending (k.procTable s) := by
    rw [Sending, Sending, (hk s).sending]
  refine ⟨fun d => ?_, fun d s => ?_, fun s hn => ?_, fun s hn => ?_, fun s => ?_⟩
  · rw [hnext, (hk d).qSending]
    exact h.chain d
  · rw [h.mem, SendsTo, SendsTo, (hk s).sending, (hk s).pSendto]
  · rw [(hk s).nextSending]
    exact h.next s fun hn' => hn ((hs s).2 hn')
  · rw [(hk s).pSendto]
    exact h.target s ((hs s).1 hn)
  · exact (h.proc s).sameIpc (hk s)

/-- A free entry becomes a copy of a process that is not on a queue and has none; the entry has no
queue either. -/
theorem fork (h : QueueInv k queue) {c pid : Slot} (hc : (k.procTable c).pFlags = freeSlot)
    (hcq : (k.procTable c).qSending = none) (hs : ¬ Sending (k.procTable pid))
    (hq : (k.procTable pid).qSending = none) {x : Proc} (hx : SameIpc (k.procTable pid) x)
    (hk : ∀ q, k'.procTable q = if q = c then x else k.procTable q) : QueueInv k' queue := by
  have hself : k'.procTable c = x := by rw [hk, if_pos rfl]
  have hsx : ¬ Sending x := by rwa [Sending, hx.sending]
  have hcs : ¬ Sending (k.procTable c) := ((h.proc c).free (by rw [hc]; decide)).1
  refine h.frame (p := c) (fun q hqc => by rw [hk, if_neg hqc]) ?_ ?_ hcs (by rwa [hself]) ?_
  · rw [hself, hx.qSending, hq, hcq]
  · rw [hself, hx.nextSending, h.next pid hs, h.next c hcs]
  · rw [hself]
    exact (h.proc pid).sameIpc hx

/-- An entry that is not blocked sending is freed. -/
theorem free (h : QueueInv k queue) {p : Slot} (hp : ¬ Sending (k.procTable p)) :
    QueueInv (freeProc k p) queue := by
  have hf : ((freeProc k p).procTable p).pFlags = freeSlot := by simp [freeProc]
  have hs : ¬ Sending ((freeProc k p).procTable p) := by
    rw [Sending, hf]
    decide
  have hr : ¬ Receiving ((freeProc k p).procTable p) := by
    rw [Receiving, hf]
    decide
  refine h.frame (p := p) (fun q hq => by simp [freeProc, hq]) (by simp [freeProc])
    (by simp [freeProc]) hp hs ⟨fun hn => absurd hn hs, fun hn => absurd hn hr, fun _ _ hn => ?_,
      fun _ => ⟨hs, hr⟩⟩
  rw [hf] at hn
  exact absurd hn (by decide)

end QueueInv

/-! ## What the memory manager does to the table -/

theorem findFree_some {k : Kernel} {c : Slot} (h : findFree k = some c) :
    (k.procTable c).pFlags = freeSlot := by
  simpa using List.find?_some h

/-- The attributes of the segments of a child, and its limit: a MB in pages. -/
def childLdts (base : BitVec 32) : Fin 2 → Descriptor :=
  ![initDescriptor base ((procImageSizeDefault - 1) >>> limit4kShift)
      (daLimit4k ||| da32 ||| daDpl privilegeUser ||| daC),
    initDescriptor base ((procImageSizeDefault - 1) >>> limit4kShift)
      (daLimit4k ||| da32 ||| daDpl privilegeUser ||| daDrw)]

/-- What a `do_fork` has done when it gets to its message. -/
inductive ForkDone (mm : MmEnv) (k : Kernel) (pid : Slot) : Option Slot → Kernel → Prop
  | full : findFree k = none → ForkDone mm k pid none k
  | made (c : Slot) (name : List Char) (base : BitVec 32) : findFree k = some c →
    nrTasks + nrNativeProcs ≤ c.val → childName (k.procTable pid).pName c = .ok name →
    (((k.procTable pid).ldts 0).linear = ((k.procTable pid).ldts 1).linear ∧
      ((k.procTable pid).ldts 0).limit = ((k.procTable pid).ldts 1).limit ∧
      segSize ((k.procTable pid).ldts 0).limit ((k.procTable pid).ldts 0) =
        segSize ((k.procTable pid).ldts 0).limit ((k.procTable pid).ldts 1)) →
    allocMem mm c (segSize ((k.procTable pid).ldts 0).limit ((k.procTable pid).ldts 0)) =
      .ok base →
    ForkDone mm k pid (some c) ({ k with
      mem := memcpy k.mem base ((k.procTable pid).ldts 0).linear
        (segSize ((k.procTable pid).ldts 0).limit ((k.procTable pid).ldts 0)).toNat }.set c
          fun _ => childProc (k.procTable pid) pid name (childLdts base))

theorem forkProc_done {mm : MmEnv} {k k' : Kernel} {pid : Slot} {r : Option Slot}
    (h : forkProc mm k pid = .ok (r, k')) : ForkDone mm k pid r k' := by
  unfold forkProc at h
  split at h
  · rename_i hfree
    obtain ⟨rfl, rfl⟩ := Prod.mk.inj (Except.ok.inj h)
    exact .full hfree
  · rename_i p hp
    rw [assert_bind_eq_ok] at h
    obtain ⟨hn, h⟩ := h
    obtain ⟨name, hname, h⟩ := bind_eq_ok.1 h
    rw [assert_bind_eq_ok] at h
    obtain ⟨hsame, h⟩ := h
    obtain ⟨base, hbase, h⟩ := bind_eq_ok.1 h
    obtain ⟨rfl, rfl⟩ := Prod.mk.inj (Except.ok.inj h)
    exact .made p name base hp hn hname hsame hbase

/-- The child of a fork is a copy of its parent, but for its parent, its name and its segments,
which start at the memory it was given. -/
theorem forkProc_some {mm : MmEnv} {k k' : Kernel} {pid c : Slot}
    (h : forkProc mm k pid = .ok (some c, k')) :
    findFree k = some c ∧ k'.log = k.log ∧ k'.kReenter = k.kReenter ∧
      nrTasks + nrNativeProcs ≤ c.val ∧
      ∃ name ldts, (∃ size, allocMem mm c size = .ok (ldts 1).linear) ∧ ∀ q, k'.procTable q =
        if q = c then childProc (k.procTable pid) pid name ldts else k.procTable q := by
  cases forkProc_done h with
  | made _ name base hp hn _ _ hbase =>
    refine ⟨hp, rfl, rfl, hn, name, _, ⟨_, hbase.trans ?_⟩, fun q => by rw [Kernel.set_procTable]⟩
    exact congrArg _ (linear_initDescriptor _ _ _).symm

theorem forkProc_none {mm : MmEnv} {k k' : Kernel} {pid : Slot}
    (h : forkProc mm k pid = .ok (none, k')) : findFree k = none ∧ k' = k := by
  cases forkProc_done h with
  | full hfree => exact ⟨hfree, rfl⟩

theorem exitProc_ok {k k' : Kernel} {pid : Slot} {status : BitVec 32} {b : Bool}
    (h : exitProc k pid status = .ok (b, k')) :
    k'.log = k.log ∧ ∀ q, SameIpc (k.procTable q) (k'.procTable q) := by
  obtain ⟨parent, -, h⟩ := bind_eq_ok.1 h
  have hset (q : Slot) : SameIpc (k.procTable q)
      ((k.set pid fun p => { p with exitStatus := status }).procTable q) :=
    SameIpc.set ⟨rfl, rfl, rfl, rfl, rfl, rfl, rfl, rfl⟩ q
  simp only at h
  split_ifs at h
  all_goals
    simp only [Except.ok.injEq, Prod.mk.injEq] at h
    obtain ⟨-, rfl⟩ := h
  · exact ⟨rfl, fun q => (hset q).trans
      (SameIpc.set (.clearFlag _ (by decide) (by decide) (by decide)) q)⟩
  · exact ⟨rfl, fun q => (hset q).trans
      (SameIpc.set (.setFlag _ (by decide) (by decide) (by decide)) q)⟩

/-- An orphan that hangs while `INIT` waits. -/
def HangingOrphan (k : Kernel) (pid i : Slot) : Prop :=
  (k.procTable i).pParent = proc2pid pid ∧ (k.procTable init).pFlags &&& waiting ≠ 0 ∧
    (k.procTable i).pFlags &&& hanging ≠ 0

theorem adopt_flags (k : Kernel) (i q : Slot) :
    ((k.set i fun p => { p with pParent := proc2pid init }).procTable q).pFlags =
      (k.procTable q).pFlags := by
  rw [Kernel.set_procTable]
  split_ifs with hq
  · rw [hq]
  · rfl

/-- Unless it sets the flags of `INIT`, an adoption writes a parent and nothing else. -/
theorem adopt_eq {k : Kernel} {pid i : Slot} (h : ¬ HangingOrphan k pid i) :
    adopt k pid i = (false, if (k.procTable i).pParent = proc2pid pid then
      k.set i fun p => { p with pParent := proc2pid init } else k) := by
  unfold adopt
  simp only [adopt_flags]
  split_ifs with hp hi
  · exact absurd ⟨hp, hi⟩ h
  · rfl
  · rfl

theorem adopt_orphan {k : Kernel} {pid i : Slot} (h : HangingOrphan k pid i) :
    adopt k pid i = (true, (k.set i fun p => { p with pParent := proc2pid init }).set init
      fun p => { p with pFlags := ~~~waiting }) := by
  unfold adopt
  simp only [adopt_flags]
  rw [if_pos h.1, if_pos h.2]

/-- The condition under which a step of the memory manager keeps the queues. At a fork the parent
has no queue of its own to be copied, no pending interrupt and is not on a queue, and the entry of
the child has no queue to be lost; what is freed is not on a queue; no orphan hangs while `INIT`
waits. -/
def MmOk (k : Kernel) : MmAct → Prop
  | .fork pid => ∀ c, findFree k = some c → (k.procTable pid).qSending = none ∧
      (k.procTable pid).hasIntMsg = false ∧ ¬ Sending (k.procTable pid) ∧
      (k.procTable c).qSending = none
  | .adopt pid i => ¬ HangingOrphan k pid i
  | .free p => ¬ Sending (k.procTable p)
  | _ => True

instance (k : Kernel) (pid i : Slot) : Decidable (HangingOrphan k pid i) :=
  inferInstanceAs (Decidable (_ ∧ _ ∧ _))

instance (k : Kernel) : (a : MmAct) → Decidable (MmOk k a)
  | .kernel _ => .isTrue trivial
  | .fork pid => inferInstanceAs (Decidable (∀ c, findFree k = some c →
      (k.procTable pid).qSending = none ∧ (k.procTable pid).hasIntMsg = false ∧
        ¬ Sending (k.procTable pid) ∧ (k.procTable c).qSending = none))
  | .exit _ _ => .isTrue trivial
  | .adopt pid i => inferInstanceAs (Decidable (¬ HangingOrphan k pid i))
  | .free p => inferInstanceAs (Decidable (¬ Sending (k.procTable p)))
  | .wait _ => .isTrue trivial

/-- The child of a fork has nobody on its queue, is on no queue and has no pending interrupt. -/
def FreshChild (k : Kernel) (a : MmAct) (k' : Kernel) (queue : Slot → List Slot) : Prop :=
  ∀ pid c, a = .fork pid → findFree k = some c → (k'.procTable c).qSending = none ∧
    (∀ d, c ∉ queue d) ∧ (k'.procTable c).hasIntMsg = false

theorem childProc_sameIpc (x : Proc) (pid : Slot) (name : List Char) (ldts : Fin 2 → Descriptor) :
    SameIpc x (childProc x pid name ldts) :=
  ⟨rfl, rfl, rfl, rfl, rfl, rfl, rfl, rfl⟩

variable {mm : MmEnv} {k k' : Kernel} {queue queue' : Slot → List Slot} {a : MmAct}

theorem mmStep_fork {pid c : Slot} (hs : MmStep mm k (.fork pid) k') (hc : findFree k = some c) :
    k'.log = k.log ∧ ∃ name ldts, ∀ q, k'.procTable q =
      if q = c then childProc (k.procTable pid) pid name ldts else k.procTable q := by
  simp only [MmStep, MyOS.mmStep] at hs
  split_ifs at hs
  obtain ⟨⟨c', k₁⟩, hf, rfl⟩ := Option.map_eq_some_iff.1 hs
  rw [toOption_eq_some] at hf
  cases c' with
  | none => cases (forkProc_none hf).1.symm.trans hc
  | some c' =>
    obtain ⟨hc', hlog, -, -, name, ldts, -, hk⟩ := forkProc_some hf
    obtain rfl : c' = c := Option.some.inj (hc'.symm.trans hc)
    exact ⟨hlog, name, ldts, hk⟩

theorem Queues.mmStep (h : Queues k queue) (hs : MmStep mm k a k') (hok : MmOk k a) :
    ∃ queue', Queues k' queue' ∧ FreshChild k a k' queue' := by
  cases a with
  | kernel a =>
    obtain ⟨queue', h'⟩ := h.step hs
    exact ⟨queue', h', fun _ _ ha => MmAct.noConfusion ha⟩
  | fork pid =>
    rcases hc : findFree k with _ | c
    · have hk : k' = k := by
        simp only [MmStep, MyOS.mmStep, forkProc, hc] at hs
        split_ifs at hs
        exact (Option.some.inj hs).symm
      exact ⟨queue, hk ▸ h, fun _ _ _ hn => by simp [hc] at hn⟩
    · obtain ⟨hq, hint, hns, hcq⟩ := hok c hc
      obtain ⟨hlog, name, ldts, hk⟩ := mmStep_fork hs hc
      have hsame := childProc_sameIpc (k.procTable pid) pid name ldts
      have h' := h.toQueueInv.fork (findFree_some hc) hcq hns hq hsame hk
      refine ⟨queue, ⟨h', hlog ▸ h.inOrder⟩, fun pid' c' ha hc' => ?_⟩
      obtain rfl : c = c' := Option.some.inj (hc.symm.trans hc')
      rw [hk, if_pos rfl]
      refine ⟨hq, fun d hm => hns ?_, hint⟩
      have hsend := ((h'.mem d c).1 hm).1
      rwa [hk, if_pos rfl, hsame.sending] at hsend
  | exit pid status =>
    simp only [MmStep, MyOS.mmStep] at hs
    split_ifs at hs
    obtain ⟨⟨b, k₁⟩, he, rfl⟩ := Option.map_eq_some_iff.1 hs
    obtain ⟨hlog, hk⟩ := exitProc_ok (toOption_eq_some.1 he)
    exact ⟨queue, ⟨h.toQueueInv.sameIpc hk, hlog ▸ h.inOrder⟩, fun _ _ ha => MmAct.noConfusion ha⟩
  | adopt pid i =>
    simp only [MmStep, MyOS.mmStep, adopt_eq hok] at hs
    split_ifs at hs <;> obtain rfl := Option.some.inj hs
    · exact ⟨queue, ⟨h.toQueueInv.sameIpc (SameIpc.set ⟨rfl, rfl, rfl, rfl, rfl, rfl, rfl, rfl⟩),
        h.inOrder⟩, fun _ _ ha => MmAct.noConfusion ha⟩
    · exact ⟨queue, h, fun _ _ ha => MmAct.noConfusion ha⟩
  | free p =>
    simp only [MmStep, MyOS.mmStep] at hs
    split_ifs at hs
    obtain rfl := Option.some.inj hs
    exact ⟨queue, ⟨h.toQueueInv.free hok, h.inOrder⟩, fun _ _ ha => MmAct.noConfusion ha⟩
  | wait pid =>
    simp only [MmStep, MyOS.mmStep] at hs
    split_ifs at hs
    obtain rfl := Option.some.inj hs
    exact ⟨queue, ⟨h.toQueueInv.sameIpc
      (SameIpc.set (.setFlag _ (by decide) (by decide) (by decide))), h.inOrder⟩,
        fun _ _ ha => MmAct.noConfusion ha⟩

/-- A step after which the queues are in order met the condition. -/
theorem mmOk_of_queues (h : Queues k queue) (hs : MmStep mm k a k') (h' : QueueInv k' queue')
    (hfresh : FreshChild k a k' queue') : MmOk k a := by
  cases a with
  | fork pid =>
    intro c hc
    obtain ⟨hq, hmem, hint⟩ := hfresh pid c rfl hc
    obtain ⟨-, name, ldts, hk⟩ := mmStep_fork hs hc
    have hself : k'.procTable c = childProc (k.procTable pid) pid name ldts := by
      rw [hk, if_pos rfl]
    refine ⟨by rwa [hself] at hq, by rwa [hself] at hint, fun hsend => ?_, ?_⟩
    · -- a copy of a sender would be on the queue the sender is on
      have hsend' : Sending (k'.procTable c) := by rwa [hself]
      obtain ⟨d, hd⟩ := h'.target c hsend'
      exact hmem d ((h'.mem d c).2 ⟨hsend', hd⟩)
    · rcases hcq : (k.procTable c).qSending with _ | s
      · rfl
      · -- who is on the old queue of the entry is on no queue now
        have hchain := h.chain c
        rcases hqc : queue c with _ | ⟨b, l⟩
        · rw [hqc, hcq] at hchain
          exact absurd hchain (by simp)
        · have hb : SendsTo k b c := (h.mem c b).1 (by simp [hqc])
          have hbc : b ≠ c := by
            rintro rfl
            exact absurd hb.1 (by rw [findFree_some hc]; decide)
          have hb' : b ∈ queue' c := (h'.mem c b).2 (by rwa [SendsTo, hk, if_neg hbc])
          have hchain' := h'.chain c
          rw [hq, chain_none] at hchain'
          simp [hchain'] at hb'
  | adopt pid i =>
    intro horphan
    simp only [MmStep, MyOS.mmStep] at hs
    split_ifs at hs
    obtain rfl := Option.some.inj hs
    have hflags : ((adopt k pid i).2.procTable init).pFlags = ~~~waiting := by
      rw [adopt_orphan horphan, Kernel.set_procTable, if_pos rfl]
    exact ((h'.proc init).sending (by rw [Sending, hflags]; decide)).2.2
      (by rw [Receiving, hflags]; decide)
  | free p =>
    intro hsend
    obtain ⟨d, hd⟩ := h.target p hsend
    simp only [MmStep, MyOS.mmStep] at hs
    split_ifs at hs
    obtain rfl := Option.some.inj hs
    have hlinks (q : Slot) : ((freeProc k p).procTable q).nextSending =
        (k.procTable q).nextSending ∧
        ((freeProc k p).procTable q).qSending = (k.procTable q).qSending := by
      rcases eq_or_ne q p with rfl | hqp <;> simp [freeProc, *]
    have hchain := h'.chain d
    simp only [hlinks] at hchain
    have hp : p ∈ queue' d := by
      rw [hchain.unique (h.chain d)]
      exact (h.mem d p).2 ⟨hsend, hd⟩
    refine absurd ((h'.mem d p).1 hp).1 ?_
    simp only [freeProc, Kernel.set_procTable, if_pos]
    decide
  | _ => trivial

/-- In every run of messages, forks, exits and clean ups that meet the condition the queues are in
order, and a further step leaves them so, and its child fresh, just where it meets the condition
too. -/
theorem fork_exit_queues {t : List MmAct}
    (h : Run Start (fun k a k' => MmStep mm k a k' ∧ MmOk k a) t k) :
    (∃ queue, Queues k queue) ∧ ∀ a k', MmStep mm k a k' →
      ((∃ queue, Queues k' queue ∧ FreshChild k a k' queue) ↔ MmOk k a) := by
  have hq : ∃ queue, Queues k queue := by
    refine h.invariant (P := fun _ k => ∃ queue, Queues k queue) ?_ ?_
    · rintro k ⟨mem, limit, rfl⟩
      exact ⟨_, .start mem limit⟩
    · rintro t k a k' ⟨queue, hq⟩ ⟨hs, hok⟩
      obtain ⟨queue', hq', -⟩ := hq.mmStep hs hok
      exact ⟨queue', hq'⟩
  refine ⟨hq, fun a k' hs => ⟨fun ⟨queue', hq', hfresh⟩ => ?_, fun hok => ?_⟩⟩
  · obtain ⟨queue, hq⟩ := hq
    exact mmOk_of_queues hq hs hq'.toQueueInv hfresh
  · obtain ⟨queue, hq⟩ := hq
    exact hq.mmStep hs hok

/-- A memory of 64 MB, and buffers somewhere in it. -/
def mmEnv64 : MmEnv := ⟨0x4000000, 0x80000, 0x81000, by decide, by decide⟩

/-- `INIT` asks for a fork, and its child is cleaned up after an exit. -/
theorem fork_exit_queues_child : ∃ k t,
    Run Start (fun k a k' => MmStep mmEnv64 k a k' ∧ MmOk k a) t k ∧
    (k.procTable 9).pFlags = freeSlot ∧
    (∃ queue, Queues k queue) ∧ ∀ a k', MmStep mmEnv64 k a k' →
      ((∃ queue, Queues k' queue ∧ FreshChild k a k' queue) ↔ MmOk k a) := by
  have hany : (Run.exec (fun k a => if MmOk k a then mmStep mmEnv64 k a else none)
      (kernelMain (fun _ => 0) 0) [.kernel (.sendrec 4 .receive any 0x1000),
        .kernel (.sendrec 5 .send 4 0x2000), .kernel (.sendrec 5 .receive 4 0x2000), .fork 5,
        .kernel (.sendrec 4 .send 9 0x3000), .kernel (.sendrec 4 .send 5 0x1000), .exit 9 0,
        .free 9]).any (fun k => (k.procTable 9).pFlags = freeSlot) = true := by decide
  obtain ⟨k, hk, hp⟩ := (Option.any_eq_true _ _).1 hany
  have hrun : Run Start (fun k a k' => MmStep mmEnv64 k a k' ∧ MmOk k a) _ k :=
    (Run.of_exec (.start ⟨_, _, rfl⟩) hk).mono fun k a k' hs => by
      split_ifs at hs with hok
      exact ⟨hs, hok⟩
  exact ⟨k, _, hrun, of_decide_eq_true hp, fork_exit_queues hrun⟩

/-- `TestA` is blocked sending to `INIT` when `INIT` forks: the child starts with `TestA` on its
queue, which sends to `INIT`. -/
theorem fork_copies_queue : ∃ k k' t,
    Run Start (MmStep mmEnv64) t k ∧ MmStep mmEnv64 k (.fork 5) k' ∧
      findFree k = some 9 ∧ (k'.procTable 9).qSending = some 6 ∧ ¬ SendsTo k' 6 9 := by
  have hany : (Run.exec (mmStep mmEnv64) (kernelMain (fun _ => 0) 0)
      [.kernel (.sendrec 4 .receive any 0x1000), .kernel (.sendrec 6 .send 5 0x4000),
        .kernel (.sendrec 5 .send 4 0x2000), .kernel (.sendrec 5 .receive 4 0x2000)]).any
      (fun k => findFree k = some 9 ∧ (mmStep mmEnv64 k (.fork 5)).any
        (fun k' => (k'.procTable 9).qSending = some 6 ∧
          (k'.procTable 6).pSendto = proc2pid 5) = true) = true := by decide
  obtain ⟨k, hk, hp⟩ := (Option.any_eq_true _ _).1 hany
  obtain ⟨hfree, hp⟩ := of_decide_eq_true hp
  obtain ⟨k', hk', hp⟩ := (Option.any_eq_true _ _).1 hp
  obtain ⟨hq, hto⟩ := of_decide_eq_true hp
  refine ⟨k, k', _, Run.of_exec (.start ⟨_, _, rfl⟩) hk, hk', hfree, hq, fun hs => ?_⟩
  exact absurd (hto.symm.trans hs.2) (by decide)

end MyOS
