import MyOS.Proofs.Deadlock
import MyOS.Proofs.Progress

/-!
# The assertions of the message layer

From a table in which nobody is blocked, in every order of messages and interrupts, a `SEND` and a
`RECEIVE` find both parties as their assertions say, and so does `inform_int`. What is left to the
callers is the address of the message, which must not be null, and one thing more: a process for
which an interrupt is pending and that waits for somebody else blocks, and `msg_receive` asserts
that no interrupt is pending then.
-/

namespace MyOS

open Memory Pointer Relation

variable {k k' : Kernel} {queue : Slot → List Slot}

/-- A table in which nobody is blocked and nobody is queued up. -/
structure AtRest (k : Kernel) : Prop where
  kReenter : k.kReenter = -1
  base : NativeBase k
  qSending : ∀ q, (k.procTable q).qSending = none
  nextSending : ∀ q, (k.procTable q).nextSending = none
  proc : ∀ q, (k.procTable q).pFlags = freeSlot ∨ Idle (k.procTable q)

/-- What every run from such a table keeps. -/
structure IpcState (k : Kernel) : Prop extends IpcInv k, NoCycle k where
  base : NativeBase k

theorem AtRest.kernelMain (mem : Mem) (limit : BitVec 32) : AtRest (kernelMain mem limit) := by
  refine ⟨rfl, .start mem limit, fun q => (kernelMain_proc mem limit q).1,
    fun q => (kernelMain_proc mem limit q).2.1, fun q => ?_⟩
  obtain ⟨-, -, -, hf | ⟨hf, hm, hto, hr⟩⟩ := kernelMain_proc mem limit q
  · exact .inl hf
  · exact .inr ⟨hf, hm, hr, hto⟩

theorem AtRest.ipcState (h : AtRest k) : IpcState k := by
  have hns (s : Slot) : ¬ Sending (k.procTable s) := by
    rcases h.proc s with hf | hi
    · rw [Sending, hf]
      decide
    · exact not_sending_of_runs hi.pFlags
  have hnr (s : Slot) : ¬ Receiving (k.procTable s) := by
    rcases h.proc s with hf | hi
    · rw [Receiving, hf]
      decide
    · exact not_receiving_of_runs hi.pFlags
  have hqueue : QueueInv k fun _ => [] := by
    refine ⟨h.qSending, fun d s => ?_, fun s _ => h.nextSending s, fun s hs => absurd hs (hns s),
      fun s => ?_⟩
    · exact iff_of_false List.not_mem_nil fun hst => hns s hst.1
    · refine ⟨fun hs => absurd hs (hns s), fun hr => absurd hr (hnr s), fun _ _ hfree => ?_,
        fun _ => ⟨hns s, hnr s⟩⟩
      rcases h.proc s with hf | hi
      · rw [hf] at hfree
        exact absurd hfree (by decide)
      · exact ⟨hi.pMsg, hi.pSendto, hi.pRecvfrom⟩
  have hplain (s : Slot) : Plain (k.procTable s) := by
    rcases h.proc s with hf | hi
    · exact .inr (.inr (.inr hf))
    · exact .inl hi.pFlags
  have hacyclic : Acyclic (waitsFor k) := by
    intro a ha
    obtain ⟨b, hab, -⟩ := TransGen.head'_iff.1 ha
    exact hns a (waitsFor_eq_some.1 hab).1
  exact {
    queues := ⟨_, hqueue, fun _ => List.Pairwise.nil⟩
    met := ⟨fun d _ hd => absurd hd.1 (hnr d), fun d hd => absurd hd.1 (hnr d)⟩
    plain := hplain
    kReenter := h.kReenter
    acyclic := hacyclic
    base := h.base }

theorem IpcState.step {a : Act} (h : IpcState k) (hs : Step k a k') : IpcState k' where
  toIpcInv := h.toIpcInv.step hs
  kReenter := (h.toNoCycle.step hs).kReenter
  acyclic := (h.toNoCycle.step hs).acyclic
  base p hp := by
    rw [step_ldts hs]
    exact h.base p hp

theorem IpcState.of_run {t : List Act} (h : Run AtRest Step t k) : IpcState k :=
  h.invariant (P := fun _ k => IpcState k) (fun _ => AtRest.ipcState) fun _ _ _ _ => .step

/-! ## What the table shows -/

/-- The part of it that the table shows, inside a trap as well. -/
structure IpcTable (k : Kernel) : Prop where
  queues : ∃ queue, QueueInv k queue
  plain : ∀ q, Plain (k.procTable q)
  base : NativeBase k

theorem IpcState.table (h : IpcState k) (ht : k'.procTable = k.procTable) : IpcTable k' where
  queues := by
    obtain ⟨queue, hq⟩ := h.queues
    exact ⟨queue, hq.toQueueInv.congr fun q => ⟨(k.procTable q).hasIntMsg, by rw [ht]⟩⟩
  plain q := by
    rw [ht]
    exact h.plain q
  base p hp := by
    rw [ht]
    exact h.base p hp

theorem IpcTable.idle (h : IpcTable k) {p : Slot} (hp : (k.procTable p).pFlags = 0) :
    Idle (k.procTable p) := by
  obtain ⟨queue, hq⟩ := h.queues
  obtain ⟨hm, hto, hr⟩ := (hq.proc p).of_runs hp
  exact ⟨hp, hm, hr, hto⟩

theorem IpcTable.awaiting (h : IpcTable k) {d s : Slot} (ha : Awaits k d s) :
    Awaiting (k.procTable d) (proc2pid s) ∨ Awaiting (k.procTable d) any := by
  obtain ⟨queue, hq⟩ := h.queues
  have hf := (h.plain d).receiving_iff.1 ha.1
  obtain ⟨hm, hto, -⟩ := (hq.proc d).receiving ha.1
  rcases ha.2 with hr | hr
  · exact .inl ⟨hf, hm, hr, hto⟩
  · exact .inr ⟨hf, hm, hr, hto⟩

theorem QueueInv.exists_tail (h : QueueInv k queue) (d : Slot) : ∃ last, Tail k d last := by
  have hc := h.chain d
  rcases hq : (k.procTable d).qSending with _ | q
  · exact ⟨none, hq⟩
  · rw [hq] at hc
    obtain ⟨l, t, -, ht⟩ := lastFrom_of_chain hc (h.length_le d)
    exact ⟨some t, q, hq, ht⟩

/-! ## `msg_send` -/

/-- The sender is linked behind the end of the queue. -/
theorem enqueue_eq {s d : Slot} {last : Option Slot} (hl : Tail k d last) :
    enqueue k d s = .ok ((match last with
      | some p => k.set p fun x => { x with nextSending := some s }
      | none => k.set d fun x => { x with qSending := some s }).set s
        fun x => { x with nextSending := none }) := by
  unfold enqueue
  rcases last with _ | p
  · have hq : (k.procTable d).qSending = none := hl
    simp only [hq]
  · obtain ⟨q, hq, hp⟩ := hl
    simp only [hq, hp]

/-- The end of a queue depends on the links alone. -/
theorem Tail.congr {d : Slot} {last : Option Slot} (hl : Tail k d last)
    (hq : (k'.procTable d).qSending = (k.procTable d).qSending)
    (hn : ∀ q, (k'.procTable q).nextSending = (k.procTable q).nextSending) : Tail k' d last := by
  rcases last with _ | p
  · exact hq.trans hl
  · simpa only [Tail, hq, hn] using hl

/-- A sender that finds nobody waiting queues up; a null message stops it only then. -/
theorem blockSending_eq {s d : Slot} {m : Addr} {last : Option Slot} (hs : Idle (k.procTable s))
    (hds : d ≠ s) (hl : Tail k d last) :
    blockSending k s d m = assert (m ≠ 0) >>= fun _ => .ok (queueUp k s d m last) := by
  have hflags : (k.procTable s).pFlags ||| sending = sending := by
    rw [hs.pFlags]
    decide
  have hfirst : ((k.set s fun p => { p with pFlags := p.pFlags ||| sending }).procTable s).pFlags =
      sending := by
    simpa using hflags
  dsimp only [blockSending, block]
  rw [assert_of hfirst, ok_bind]
  have htab (q : Slot) : (((k.set s fun p => { p with pFlags := p.pFlags ||| sending }).set s
      fun p => { p with pSendto := proc2pid d, pMsg := m }).procTable q) = if q = s then
        { k.procTable s with pFlags := sending, pSendto := proc2pid d, pMsg := m }
      else k.procTable q := by
    simp only [Kernel.set_set, Kernel.set_procTable, hflags]
  have hl' : Tail ((k.set s fun p => { p with pFlags := p.pFlags ||| sending }).set s
      fun p => { p with pSendto := proc2pid d, pMsg := m }) d last := by
    refine hl.congr ?_ fun q => ?_
    · rw [htab, if_neg hds]
    · rw [htab]
      split_ifs with hq
      · rw [hq]
      · rfl
  simp only [enqueue_eq hl', ok_bind]
  have hend : (match last with
      | some p => ((k.set s fun p => { p with pFlags := p.pFlags ||| sending }).set s
          fun p => { p with pSendto := proc2pid d, pMsg := m }).set p
          fun x => { x with nextSending := some s }
      | none => ((k.set s fun p => { p with pFlags := p.pFlags ||| sending }).set s
          fun p => { p with pSendto := proc2pid d, pMsg := m }).set d
          fun x => { x with qSending := some s }).set s (fun x => { x with nextSending := none }) =
      queueUp k s d m last := by
    rw [Kernel.set_set]
    rfl
  have hself : ((queueUp k s d m last).procTable s).pFlags = sending ∧
      ((queueUp k s d m last).procTable s).pMsg = m ∧
      ((queueUp k s d m last).procTable s).pRecvfrom = noTask ∧
      ((queueUp k s d m last).procTable s).pSendto = proc2pid d := by
    simp only [queueUp_procTable, if_pos, hflags, hs.pRecvfrom, and_self]
  obtain ⟨hf, hmsg, hr, hto⟩ := hself
  have hblocked : ((queueUp k s d m last).procTable s).pFlags ≠ 0 := by
    rw [hf]
    decide
  rw [hend, assert_of hblocked, ok_bind, assert_of hf, ok_bind, assert_of hr, assert_of hto, hmsg]
  rfl

/-- A message is handed over to a process that waits for it, but not a null one. -/
theorem deliver_total {s d : Slot} {m src dst : Addr} (hs : Idle (k.procTable s))
    (hd : Awaiting (k.procTable d) (proc2pid s) ∨ Awaiting (k.procTable d) any) (hds : d ≠ s)
    (hsrc : va2la k s m = .ok src) (hdst : va2la k d (k.procTable d).pMsg = .ok dst) :
    deliver k s d m = assert (m ≠ 0) >>= fun _ => .ok (handOff k s d dst src) := by
  have hf : (k.procTable d).pFlags = receiving := hd.elim (·.pFlags) (·.pFlags)
  have hmsg : (k.procTable d).pMsg ≠ 0 := hd.elim (·.pMsg) (·.pMsg)
  have hto : (k.procTable d).pSendto = noTask := hd.elim (·.pSendto) (·.pSendto)
  by_cases hm : m = 0
  · subst hm
    rw [deliver, assert_of hmsg]
    rfl
  · rw [assert_of hm, deliver_eq hs hf hmsg hto hds hm hsrc hdst]
    rfl

/-- A `SEND` that passes the deadlock check goes through, but for a null message. -/
theorem msgSend_total (h : IpcTable k) {s d : Slot} {m : Addr} (hs : (k.procTable s).pFlags = 0)
    (hds : d ≠ s) (hdead : ∀ e, deadlock (k.note e) s d = .ok false) :
    ∃ k', msgSend k s (proc2pid d) m = assert (m ≠ 0) >>= fun _ => .ok k' := by
  obtain ⟨queue, hq⟩ := h.queues
  have hne : proc2pid s ≠ proc2pid d := fun he => hds (proc2pid_inj he).symm
  rw [msgSend, procAt_proc2pid, ok_bind, assert_of hne, ok_bind]
  simp only [hdead, ok_bind, if_neg Bool.false_ne_true]
  split_ifs with ha
  · exact ⟨_, deliver_total (k := k.note _) (h.idle hs) (h.awaiting ha) hds (h.base.va2la s m)
      (h.base.va2la d _)⟩
  · obtain ⟨last, hl⟩ := hq.exists_tail d
    exact ⟨_, blockSending_eq (k := k.note _) (h.idle hs) hds hl⟩

/-! ## `msg_receive` -/

/-- A process that `p` asks for a message, or any that has queued up, is as its receiver asserts. -/
theorem assertRendezvous_eq (h : IpcTable k) {p s : Slot} (hp : (k.procTable p).pFlags = 0)
    (hs : SendsTo k s p) : assertRendezvous k p s = .ok () := by
  obtain ⟨queue, hq⟩ := h.queues
  obtain ⟨hf, hm, hr, hto⟩ := h.idle hp
  obtain ⟨hsm, hsr, -⟩ := (hq.proc s).sending hs.1
  have hsf := (h.plain s).sending_iff.1 hs.1
  have hqs : (k.procTable p).qSending ≠ none := by
    intro hnone
    have hc := hq.chain p
    rw [hnone, chain_none] at hc
    exact List.not_mem_nil (hc ▸ (hq.mem p s).2 hs)
  rw [assertRendezvous, assert_of hf, ok_bind, assert_of hm, ok_bind, assert_of hr, ok_bind,
    assert_of hto, ok_bind, assert_of hqs, ok_bind, assert_of hsf, ok_bind, assert_of hsm, ok_bind,
    assert_of hsr, ok_bind, assert_of hs.2]

/-- Of the processes that have queued up, the one the receiver asks for is chosen. -/
theorem chooseSender_eq (h : IpcTable k) {p : Slot} {src : Int} (hp : (k.procTable p).pFlags = 0)
    (hsrc : src = any ∧ (k.procTable p).qSending ≠ none ∨
      ∃ s, src = proc2pid s ∧ SendsTo k s p) :
    ∃ s prev, chooseSender k p src = .ok (some (s, prev)) ∧ SendsTo k s p ∧
      (prev = none ∧ (k.procTable p).qSending = some s ∨
        (k.procTable p).qSending ≠ some s ∧ prev ≠ none) := by
  obtain ⟨queue, hq⟩ := h.queues
  rcases hsrc with ⟨rfl, hqs⟩ | ⟨s, rfl, hs⟩
  · obtain ⟨s, hsq⟩ := Option.ne_none_iff_exists'.1 hqs
    have hmem : s ∈ queue p := by
      have hc := hq.chain p
      rcases hl : queue p with _ | ⟨a, l⟩
      · rw [hl, chain_nil] at hc
        exact absurd hc hqs
      · rw [hl, hsq] at hc
        obtain rfl := Option.some.inj (chain_cons.1 hc).1
        exact List.mem_cons_self
    have hs := (hq.mem p s).1 hmem
    refine ⟨s, none, ?_, hs, .inl ⟨rfl, hsq⟩⟩
    unfold chooseSender
    rw [if_pos rfl, hsq]
    simp only [assertRendezvous_eq h hp hs, ok_bind]
  · have hmem := (hq.mem p s).2 hs
    obtain ⟨l, m, hlm, hsl⟩ := List.eq_append_cons_of_mem hmem
    have hc := hq.chain p
    have hlen := hq.length_le p
    rw [hlm] at hc hlen
    have hl : l.length < nrTasks + nrProcs := by
      rw [List.length_append, List.length_cons] at hlen
      omega
    have hfind := @findPrev_of_chain _ _ _ _ l m none _ _ hc hsl hl
    have hqs : (k.procTable p).qSending ≠ none := by
      intro hnone
      rw [hnone, chain_none] at hc
      exact absurd hc (by simp)
    obtain ⟨prev, hfind, hprev⟩ : ∃ prev,
        findPrev (fun q => (k.procTable q).nextSending) s (nrTasks + nrProcs) none
          (k.procTable p).qSending = some (prev, some s) ∧
        (prev = none ∧ (k.procTable p).qSending = some s ∨
          (k.procTable p).qSending ≠ some s ∧ prev ≠ none) := by
      refine ⟨_, hfind, ?_⟩
      rcases l with _ | ⟨a, l⟩
      · exact .inl ⟨rfl, (chain_cons.1 hc).1⟩
      · refine .inr ⟨?_, ?_⟩
        · rw [(chain_cons.1 hc).1]
          intro he
          exact hsl (Option.some.inj he ▸ List.mem_cons_self)
        · obtain ⟨b, -, hb⟩ := List.mem_map.1 (List.getLast_mem (l := (a :: l).map some) (by simp))
          rw [List.getLast_cons (by simp), ← hb]
          exact Option.some_ne_none b
    refine ⟨s, prev, ?_, hs, hprev⟩
    have hsends := hs
    unfold SendsTo at hsends
    unfold chooseSender
    rw [if_neg (proc2pid_ne_any s), if_pos (proc2pid_range s), procAt_proc2pid, ok_bind,
      if_pos hsends, assert_of hqs, ok_bind]
    simp only [hfind, assertRendezvous_eq h hp hs, ok_bind]

/-- The chosen sender is unlinked and its message taken; a null address stops it only then. -/
theorem takeMessage_total (h : IpcTable k) {p s : Slot} {prev : Option Slot} {m : Addr}
    (hs : SendsTo k s p)
    (hprev : prev = none ∧ (k.procTable p).qSending = some s ∨
      (k.procTable p).qSending ≠ some s ∧ prev ≠ none) :
    takeMessage k p s prev m = assert (m ≠ 0) >>= fun _ =>
      .ok (takeFrom k p s prev (((k.procTable p).ldts 1).linear + m)
        (((k.procTable s).ldts 1).linear + (k.procTable s).pMsg)) := by
  obtain ⟨queue, hq⟩ := h.queues
  have hmsg : ((unlinkFrom k p s prev).procTable s).pMsg ≠ 0 := by
    rw [unlinkFrom_procTable]
    exact ((hq.proc s).sending hs.1).1
  have hva (q : Slot) (va : Addr) : va2la (unlinkFrom k p s prev) q va =
      .ok (((k.procTable q).ldts 1).linear + va) :=
    (va2la_unlinkFrom ..).trans (h.base.va2la q va)
  have hunlink : unlink k p s prev = .ok (unlinkFrom k p s prev) := by
    unfold unlink
    rcases hprev with ⟨rfl, hqs⟩ | ⟨hqs, hp⟩
    · rw [if_pos hqs.symm, assert_of rfl, ok_bind]
      rfl
    · obtain ⟨q, rfl⟩ := Option.ne_none_iff_exists'.1 hp
      rw [if_neg hqs.symm]
      rfl
  have hflags : (k.procTable s).pFlags &&& ~~~sending = 0 := by
    rw [(h.plain s).sending_iff.1 hs.1]
    decide
  rw [takeMessage, hunlink, ok_bind]
  refine congrArg (assert (m ≠ 0) >>= ·) (funext fun _ => ?_)
  rw [assert_of hmsg, ok_bind, physCopy_eq (hva p m) (hva s _), ok_bind]
  simp only [unblock, Kernel.set_procTable, if_pos, copy_procTable, unlinkFrom_procTable]
  rw [assert_of hflags]
  rfl

theorem receiveInterrupt_total (h : IpcTable k) {p : Slot} {m : Addr}
    (hp : (k.procTable p).pFlags = 0) :
    receiveInterrupt k p m = assert (m ≠ 0) >>= fun _ =>
      .ok (takeInterrupt k p (((k.procTable p).ldts 1).linear + m)) := by
  obtain ⟨hf, hm, -, hto⟩ := h.idle hp
  rw [receiveInterrupt]
  refine congrArg (assert (m ≠ 0) >>= ·) (funext fun _ => ?_)
  rw [h.base.va2la, ok_bind]
  simp only [Kernel.set_procTable, if_pos, Kernel.note_procTable]
  rw [assert_of hf, ok_bind, assert_of hm, ok_bind, assert_of hto, ok_bind, assert_of trivial]
  rfl

/-- A receiver that finds nothing blocks, where no interrupt is pending. -/
theorem blockReceiving_total (h : IpcTable k) {p : Slot} {src : Int} {m : Addr}
    (hp : (k.procTable p).pFlags = 0) (hsrc : src ≠ noTask) :
    blockReceiving k p src m =
      assert (m ≠ 0) >>= fun _ => assert ((k.procTable p).hasIntMsg = false) >>= fun _ =>
        .ok (waitFor k p src m) := by
  obtain ⟨hf, -, -, hto⟩ := h.idle hp
  have hflags : (k.procTable p).pFlags ||| receiving ≠ 0 := by
    rw [hf]
    decide
  simp only [blockReceiving, block, Kernel.set_set, Kernel.set_procTable, if_pos]
  rw [assert_of hflags, ok_bind]
  refine congrArg (assert (m ≠ 0) >>= ·) (funext fun _ => ?_)
  rw [assert_of hsrc, ok_bind, assert_of hto, ok_bind]
  rfl

/-- `p` would wait with an interrupt pending for a process that is not sending to it. -/
def Overlooks (k : Kernel) (p : Slot) (src : Int) : Prop :=
  (k.procTable p).hasIntMsg = true ∧ ∃ s, src = proc2pid s ∧ ¬ SendsTo k s p

/-- A process number, `ANY` or `INTERRUPT`. -/
def ValidSrc (p : Slot) (src : Int) : Prop :=
  src = any ∨ src = interrupt ∨ ∃ s, src = proc2pid s ∧ s ≠ p

/-- Nobody is chosen where nobody has queued up that the receiver asks for. -/
theorem chooseSender_eq_none {p : Slot} {src : Int} (hsrc : ValidSrc p src)
    (hfind : ¬ (src = any ∧ (k.procTable p).qSending ≠ none ∨
      ∃ s, src = proc2pid s ∧ SendsTo k s p)) : chooseSender k p src = .ok none := by
  rw [not_or, not_and, not_not] at hfind
  rcases hsrc with rfl | rfl | ⟨s, rfl, -⟩
  · exact chooseSender_any (hfind.1 rfl)
  · rfl
  · exact chooseSender_of_not_sendsTo fun hs => hfind.2 ⟨s, rfl, hs⟩

theorem msgReceive_total (h : IpcTable k) {p : Slot} {src : Int} {m : Addr}
    (hp : (k.procTable p).pFlags = 0) (hsrc : ValidSrc p src) :
    (¬ Overlooks k p src → ∃ k', msgReceive k p src m = assert (m ≠ 0) >>= fun _ => .ok k') ∧
      (Overlooks k p src → msgReceive k p src m = .error .assertion) := by
  have hne : proc2pid p ≠ src := by
    rcases hsrc with rfl | rfl | ⟨s, rfl, hs⟩
    · exact proc2pid_ne_any p
    · exact proc2pid_ne_interrupt p
    · exact fun he => hs (proc2pid_inj he).symm
  have hto : src ≠ noTask := by
    rcases hsrc with rfl | rfl | ⟨s, rfl, -⟩
    · decide
    · decide
    · exact proc2pid_ne_noTask s
  rw [msgReceive, assert_of hne, ok_bind]
  by_cases hint : (k.procTable p).hasIntMsg = true ∧ (src = any ∨ src = interrupt)
  · rw [if_pos hint]
    refine ⟨fun _ => ⟨_, receiveInterrupt_total h hp⟩, fun hover => ?_⟩
    obtain ⟨-, s, hs, -⟩ := hover
    rcases hint.2 with he | he
    · exact absurd (hs.symm.trans he) (proc2pid_ne_any s)
    · exact absurd (hs.symm.trans he) (proc2pid_ne_interrupt s)
  rw [if_neg hint]
  by_cases hfind : src = any ∧ (k.procTable p).qSending ≠ none ∨
      ∃ s, src = proc2pid s ∧ SendsTo k s p
  · obtain ⟨s, prev, hc, hs, hprev⟩ := chooseSender_eq h hp hfind
    rw [hc, ok_bind]
    refine ⟨fun _ => ⟨_, takeMessage_total h hs hprev⟩, fun hover => ?_⟩
    obtain ⟨-, s', he, hs'⟩ := hover
    rcases hfind with ⟨hany, -⟩ | ⟨s'', he', hs''⟩
    · exact absurd (he.symm.trans hany) (proc2pid_ne_any s')
    · exact absurd (proc2pid_inj (he'.symm.trans he) ▸ hs'') hs'
  · rw [chooseSender_eq_none hsrc hfind, ok_bind]
    simp only [blockReceiving_total h hp hto]
    refine ⟨fun hover => ⟨waitFor k p src m, ?_⟩, fun hover => ?_⟩
    · have hpending : (k.procTable p).hasIntMsg = false := by
        by_contra hn
        rw [Bool.not_eq_false] at hn
        rcases hsrc with he | he | ⟨s, he, -⟩
        · exact hint ⟨hn, .inl he⟩
        · exact hint ⟨hn, .inr he⟩
        · exact hover ⟨hn, s, he, fun hs => hfind (.inr ⟨s, he, hs⟩)⟩
      rw [assert_of hpending]
      rfl
    · rw [hover.1]
      by_cases hm : m ≠ 0
      · rw [assert_of hm]
        rfl
      · simp only [assert, if_neg hm]
        rfl

/-! ## `inform_int` -/

theorem informInt_total (h : IpcTable k) (t : Slot) :
    (AwaitsInt k t → informInt k t = .ok (wake (k.note (.informed t)) t (k.procTable t).pMsg)) ∧
      (¬ AwaitsInt k t → informInt k t = .ok (pend (k.note (.informed t)) t)) := by
  refine ⟨fun ha => ?_, fun ha => ?_⟩
  · obtain ⟨queue, hq⟩ := h.queues
    have hf : (k.procTable t).pFlags &&& ~~~receiving = 0 := by
      rw [(h.plain t).receiving_iff.1 ha.1]
      decide
    obtain ⟨-, hto, -⟩ := (hq.proc t).receiving ha.1
    unfold AwaitsInt at ha
    dsimp only [informInt]
    rw [Kernel.note_procTable, if_pos ha]
    simp only [unblock, Kernel.set_procTable, if_pos, Kernel.note_procTable]
    rw [assert_of hf, ok_bind, ok_bind, assert_of trivial, ok_bind, ok_bind, assert_of hto]
    rfl
  · unfold AwaitsInt at ha
    dsimp only [informInt]
    rw [Kernel.note_procTable, if_neg ha]
    rfl

/-! ## Every order of messages and interrupts -/

/-- An operation of the message layer that names a process there is, not its caller, and closes no
cycle of senders. -/
def IpcOp (k : Kernel) : Act → Prop
  | .sendrec p .send dest _ => (k.procTable p).pFlags = 0 ∧
      ∃ d, dest = proc2pid d ∧ d ≠ p ∧ ¬ Reaches (waitsFor k) d p
  | .sendrec p .receive src _ => (k.procTable p).pFlags = 0 ∧ ValidSrc p src
  | .sendrec _ .other _ _ => False
  | .informInt _ => True
  | .user _ => False

/-- It passes the address of a message, and the caller does not wait for a process that is not
sending to it while an interrupt is pending. -/
def Heeds (k : Kernel) : Act → Prop
  | .sendrec p .receive src m => m ≠ 0 ∧ ¬ Overlooks k p src
  | .sendrec _ _ _ m => m ≠ 0
  | _ => True

/-- The operation as the code runs it, assertions and all. -/
def runOp (k : Kernel) : Act → Except Fault Kernel
  | .sendrec p function srcDest m => sendrec k p function srcDest m
  | .informInt t => informInt k t
  | .user mem => .ok { k with mem }

theorem ofInt_proc2pid_ne_interrupt (p : Slot) :
    BitVec.ofInt 32 (proc2pid p) ≠ BitVec.ofInt 32 interrupt := by
  intro he
  have := congrArg BitVec.toNat he
  have hp : p.val < 37 := p.isLt
  rw [ofInt_proc2pid, show (BitVec.ofInt 32 interrupt).toNat = 4294967286 by decide] at this
  omega

theorem sendrec_total (h : IpcState k) {p : Slot} {function : Function} {srcDest : Int} {m : Addr}
    (hop : IpcOp k (.sendrec p function srcDest m)) :
    (Heeds k (.sendrec p function srcDest m) → ∃ k', sendrec k p function srcDest m = .ok k') ∧
      (¬ Heeds k (.sendrec p function srcDest m) →
        sendrec k p function srcDest m = .error .assertion) := by
  have hla := h.base.va2la p m
  have hk0 : (save k).kReenter = 0 := by
    rw [save_kReenter, h.kReenter]
    rfl
  have htable : IpcTable (stamp (save k) p (((k.procTable p).ldts 1).linear + m)) := h.table rfl
  have hassert {x : Except Fault Kernel} {k' : Kernel}
      (hx : x = assert (m ≠ 0) >>= fun _ => .ok k') :
      (m ≠ 0 → ∃ k', (x >>= fun k => Except.ok (restart k)) = .ok k') ∧
        (¬ m ≠ 0 → (x >>= fun k => Except.ok (restart k)) = .error .assertion) := by
    refine ⟨fun hm => ⟨restart k', ?_⟩, fun hm => ?_⟩
    · rw [hx, assert_of hm]
      rfl
    · rw [hx, assert, if_neg hm]
      rfl
  unfold sendrec
  cases function with
  | send =>
    obtain ⟨hp, d, rfl, hds, hr⟩ := hop
    rw [sysSendrec_eq .send hk0 (.inl (proc2pid_range d)) hla (ofInt_proc2pid_ne hds.symm)]
    obtain ⟨queue, hq⟩ := h.queues
    have hdead (e : Event) : deadlock ((stamp (save k) p
        (((k.procTable p).ldts 1).linear + m)).note e) p d = .ok false := by
      have hk : ((stamp (save k) p (((k.procTable p).ldts 1).linear + m)).note e).kReenter =
          (save k).kReenter := rfl
      have ht : ((stamp (save k) p (((k.procTable p).ldts 1).linear + m)).note e).procTable =
          (save k).procTable := rfl
      rw [deadlock_congr ht hk]
      exact (deadlock_cases h.toNoCycle hq.toQueueInv hds).1 hr
    obtain ⟨k', hk'⟩ := msgSend_total htable (m := m) hp hds hdead
    exact hassert hk'
  | receive =>
    obtain ⟨hp, hsrc⟩ := hop
    have hrange : (0 ≤ srcDest ∧ srcDest < nrTasks + nrProcs) ∨ srcDest = any ∨
        srcDest = interrupt := by
      rcases hsrc with rfl | rfl | ⟨s, rfl, -⟩
      · exact .inr (.inl rfl)
      · exact .inr (.inr rfl)
      · exact .inl (proc2pid_range s)
    have hne : BitVec.ofInt 32 (proc2pid p) ≠ BitVec.ofInt 32 srcDest := by
      rcases hsrc with rfl | rfl | ⟨s, rfl, hs⟩
      · exact ofInt_proc2pid_ne_any p
      · exact ofInt_proc2pid_ne_interrupt p
      · exact ofInt_proc2pid_ne hs.symm
    rw [sysSendrec_eq .receive hk0 hrange hla hne]
    obtain ⟨hok, hover⟩ := msgReceive_total htable (m := m) hp hsrc
    by_cases ho : Overlooks k p srcDest
    · refine ⟨fun hh => absurd ho hh.2, fun _ => ?_⟩
      exact congrArg (· >>= fun k => Except.ok (restart k)) (hover ho)
    · obtain ⟨k', hk'⟩ := hok ho
      obtain ⟨h1, h2⟩ := hassert hk'
      exact ⟨fun hh => h1 hh.1, fun hh => h2 fun hm => hh ⟨hm, ho⟩⟩
  | other => exact absurd hop id

/-- In every run, an operation of the message layer fails none of its assertions just where it
heeds this; otherwise it stops at one. -/
theorem ipc_asserts_hold {t : List Act} (h : Run AtRest Step t k) (a : Act) (hop : IpcOp k a) :
    (runOp k a ≠ .error .assertion ↔ Heeds k a) ∧ (Heeds k a → ∃ k', Step k a k') := by
  have hstate := IpcState.of_run h
  cases a with
  | sendrec p function srcDest m =>
    obtain ⟨hok, herr⟩ := sendrec_total hstate hop
    have hp : (k.procTable p).pFlags = 0 := by
      cases function with
      | send => exact hop.1
      | receive => exact hop.1
      | other => exact absurd hop id
    refine ⟨⟨fun hne => ?_, fun hh => ?_⟩, fun hh => ?_⟩
    · by_contra hn
      exact hne (herr hn)
    · obtain ⟨k', hk'⟩ := hok hh
      simp [runOp, hk']
    · obtain ⟨k', hk'⟩ := hok hh
      exact ⟨k', by simp only [Step, step, if_pos hp, toOption_eq_some, hk']⟩
  | informInt t =>
    obtain ⟨hwake, hpend⟩ := informInt_total (hstate.table rfl) t
    have hok : ∃ k', informInt k t = .ok k' := by
      by_cases ha : AwaitsInt k t
      · exact ⟨_, hwake ha⟩
      · exact ⟨_, hpend ha⟩
    obtain ⟨k', hk'⟩ := hok
    exact ⟨⟨fun _ => trivial, fun _ => by simp [runOp, hk']⟩,
      fun _ => ⟨k', toOption_eq_some.2 hk'⟩⟩
  | user mem => exact absurd hop id

/-- `TTY` has an interrupt pending and waits for the file system. -/
theorem ipc_asserts_hold_pending : ∃ k, Run AtRest Step [.informInt taskTty] k ∧
    (runOp k (.sendrec taskTty .receive (proc2pid taskFs) 0x1000) ≠ .error .assertion ↔
      Heeds k (.sendrec taskTty .receive (proc2pid taskFs) 0x1000)) ∧
    (Heeds k (.sendrec taskTty .receive (proc2pid taskFs) 0x1000) →
      ∃ k', Step k (.sendrec taskTty .receive (proc2pid taskFs) 0x1000) k') := by
  have hany : (step (kernelMain (fun _ => 0) 0) (.informInt taskTty)).any
      (fun k => (k.procTable taskTty).pFlags = 0) = true := by decide
  obtain ⟨k, hk, hp⟩ := (Option.any_eq_true _ _).1 hany
  have hrun : Run AtRest Step [.informInt taskTty] k := .snoc (.start (.kernelMain _ _)) hk
  exact ⟨k, hrun, ipc_asserts_hold hrun _
    ⟨of_decide_eq_true hp, .inr (.inr ⟨taskFs, rfl, by decide⟩)⟩⟩

/-- It stops the kernel. -/
theorem pending_int_stops_receive : ∃ k, Run AtRest Step [.informInt taskTty] k ∧
    IpcOp k (.sendrec taskTty .receive (proc2pid taskFs) 0x1000) ∧
    msgReceive (save k) taskTty (proc2pid taskFs) 0x1000 = .error .assertion := by
  have hany : (step (kernelMain (fun _ => 0) 0) (.informInt taskTty)).any
      (fun k => (k.procTable taskTty).pFlags = 0 ∧ (k.procTable taskTty).hasIntMsg = true ∧
        (k.procTable taskFs).pFlags = 0) = true := by decide
  obtain ⟨k, hk, hp⟩ := (Option.any_eq_true _ _).1 hany
  obtain ⟨hp, hint, hf⟩ := of_decide_eq_true hp
  have hrun : Run AtRest Step [.informInt taskTty] k := .snoc (.start (.kernelMain _ _)) hk
  have hsrc : ValidSrc taskTty (proc2pid taskFs) := .inr (.inr ⟨taskFs, rfl, by decide⟩)
  have hnot : ¬ SendsTo (save k) taskFs taskTty := fun hs => not_sending_of_runs hf hs.1
  have htable : IpcTable (save k) := (IpcState.of_run hrun).table rfl
  exact ⟨k, hrun, ⟨hp, hsrc⟩, (msgReceive_total htable hp hsrc).2 ⟨hint, taskFs, rfl, hnot⟩⟩

end MyOS
