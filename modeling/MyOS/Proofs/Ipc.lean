import MyOS.Proofs.SendQueue

/-!
# Every order of messages and interrupts

The send queues, with their senders in the order in which they blocked, are kept by every step, and
no step leaves a receiver blocked that has something to receive.
-/

namespace MyOS

open Memory Pointer

/-- `s` calls `SEND`. -/
def Event.isCall (s : Slot) : Event → Bool
  | .call s' _ _ => s' = s
  | _ => false

/-- How many events have come since `s` last called `SEND`. -/
def sinceCall (log : List Event) (s : Slot) : ℕ := log.findIdx (Event.isCall s)

/-- Each queue is in the order of the calls its senders are blocked in. -/
def InOrder (log : List Event) (queue : Slot → List Slot) : Prop :=
  ∀ d, (queue d).Pairwise fun s s' => sinceCall log s' < sinceCall log s

theorem sinceCall_cons (e : Event) (log : List Event) (s : Slot) :
    sinceCall (e :: log) s = if e.isCall s then 0 else sinceCall log s + 1 := by
  simp [sinceCall, List.findIdx_cons, cond_eq_ite]

/-- An event that is no call of a queued process keeps the order. -/
theorem InOrder.cons {log : List Event} {queue : Slot → List Slot} (h : InOrder log queue)
    {e : Event} (he : ∀ d, ∀ s ∈ queue d, e.isCall s = false) : InOrder (e :: log) queue := by
  intro d
  refine (h d).imp_of_mem fun {s s'} hs hs' hlt => ?_
  simp [sinceCall_cons, he d s hs, he d s' hs', hlt]

theorem InOrder.sublist {log : List Event} {queue queue' : Slot → List Slot}
    (h : InOrder log queue) (hq : ∀ d, (queue' d).Sublist (queue d)) : InOrder log queue' :=
  fun d => (h d).sublist (hq d)

/-- The send queues of a state, in the order of their calls. -/
structure Queues (k : Kernel) (queue : Slot → List Slot) : Prop extends QueueInv k queue where
  inOrder : InOrder k.log queue

namespace Queues

variable {k k' : Kernel} {queue : Slot → List Slot}

/-- What neither the table nor the log shows does not matter. -/
theorem congr (h : Queues k queue) (ht : k'.procTable = k.procTable) (hl : k'.log = k.log) :
    Queues k' queue :=
  ⟨h.toQueueInv.congr fun q => ⟨(k.procTable q).hasIntMsg, by rw [ht]⟩, hl ▸ h.inOrder⟩

theorem send (h : Queues k queue) {s d : Slot} {m src : Addr} {msg : Message}
    (hs : (k.procTable s).pFlags = 0)
    (ho : SendOutcome (k.note (.call s d msg)) s d m src k') : ∃ queue', Queues k' queue' := by
  have hq : QueueInv (k.note (.call s d msg)) queue := h.toQueueInv.congr fun q => ⟨_, rfl⟩
  have hlog : InOrder (.call s d msg :: k.log) queue := h.inOrder.cons fun e q hqe => by
    have hne : s ≠ q := fun he => h.not_mem_of_runs hs e (he ▸ hqe)
    simp [Event.isCall, hne]
  cases ho with
  | handOff dst ha _ _ hf _ =>
    exact ⟨queue, hq.handOff ha hf, hlog.cons fun _ _ _ => rfl⟩
  | queueUp last _ _ hm hl =>
    refine ⟨_, hq.queueUp hs hm hl, fun e => ?_⟩
    have hlog' : (queueUp (k.note (.call s d msg)) s d m last).log = .call s d msg :: k.log := by
      cases last <;> rfl
    rw [hlog']
    rcases eq_or_ne e d with rfl | he
    · rw [Function.update_self, List.pairwise_append]
      refine ⟨hlog e, List.pairwise_singleton _ _, fun q hqe q' hq' => ?_⟩
      have hne : s ≠ q := fun he => h.not_mem_of_runs hs e (he ▸ hqe)
      rw [List.mem_singleton] at hq'
      simp [sinceCall_cons, Event.isCall, hq', hne]
    · rw [Function.update_of_ne he]
      exact hlog e

theorem receive (h : Queues k queue) {p : Slot} {src : Int} {m dst : Addr}
    (hp : (k.procTable p).pFlags = 0) (ho : ReceiveOutcome k p src m dst k') :
    ∃ queue', Queues k' queue' := by
  cases ho with
  | takeInterrupt =>
    exact ⟨queue, h.toQueueInv.takeInterrupt p dst, h.inOrder.cons fun _ _ _ => rfl⟩
  | takeFrom s prev a _ _ _ hf hto hprev =>
    have hst : SendsTo k s p := ⟨by rw [hf]; decide, hto⟩
    obtain ⟨l, r, hq, hl⟩ := h.take_split hst hprev
    refine ⟨_, h.toQueueInv.takeFrom dst a hq hl hf, ?_⟩
    have hlog : ∃ msg, (takeFrom k p s prev dst a).log = .copied s p msg :: k.log := by
      cases prev <;> exact ⟨_, rfl⟩
    obtain ⟨msg, hlog⟩ := hlog
    rw [hlog]
    refine InOrder.cons (h.inOrder.sublist fun e => ?_) fun _ _ _ => rfl
    rcases eq_or_ne e p with rfl | he
    · rw [Function.update_self, hq]
      simp
    · rw [Function.update_of_ne he]
  | waitFor _ _ _ hsrc hm _ =>
    exact ⟨queue, h.toQueueInv.waitFor hp hsrc hm, h.inOrder⟩

theorem inform (h : Queues k queue) {t : Slot} (ho : InformOutcome (k.note (.informed t)) t k') :
    Queues k' queue := by
  have hq : QueueInv (k.note (.informed t)) queue := h.toQueueInv.congr fun q => ⟨_, rfl⟩
  have hlog : InOrder (.informed t :: k.log) queue := h.inOrder.cons fun _ _ _ => rfl
  cases ho with
  | wake ha hf _ => exact ⟨hq.wake ha hf, hlog.cons fun _ _ _ => rfl⟩
  | pend _ => exact ⟨hq.pend t, hlog⟩

theorem sendrec (h : Queues k queue) {p : Slot} {function : Function} {srcDest : Int} {m : Addr}
    (hp : (k.procTable p).pFlags = 0) (hs : sendrec k p function srcDest m = .ok k') :
    ∃ queue', Queues k' queue' := by
  obtain ⟨src, k₁, -, ho, rfl⟩ := sendrec_ok hs
  have hk : Queues (stamp (save k) p src) queue := h.congr rfl rfl
  cases ho with
  | send d k' _ _ ho =>
    obtain ⟨queue', h'⟩ := hk.send hp ho
    exact ⟨queue', h'.congr rfl rfl⟩
  | receive srcDest k' ho =>
    obtain ⟨queue', h'⟩ := hk.receive hp ho
    exact ⟨queue', h'.congr rfl rfl⟩

theorem step (h : Queues k queue) {a : Act} (hs : Step k a k') : ∃ queue', Queues k' queue' := by
  rcases step_cases hs with ⟨p, function, srcDest, m, -, hp, hs⟩ | ⟨t, -, hi⟩ | ⟨mem, -, rfl⟩
  · exact h.sendrec hp hs
  · exact ⟨queue, h.inform (informInt_ok hi)⟩
  · exact ⟨queue, h.congr rfl rfl⟩

theorem start (mem : Mem) (limit : BitVec 32) : Queues (kernelMain mem limit) fun _ => [] :=
  ⟨queueInv_start mem limit, fun _ => List.Pairwise.nil⟩

end Queues

/-! ## Nobody misses a rendezvous -/

/-- No process waits for one that is blocked sending to it, and none waits for an interrupt that
is pending. -/
structure Met (k : Kernel) : Prop where
  pair : ∀ d s, Awaits k d s → ¬ SendsTo k s d
  int : ∀ d, AwaitsInt k d → (k.procTable d).hasIntMsg = false

namespace Met

variable {k k' : Kernel} {queue : Slot → List Slot}

theorem congr (h : Met k) (ht : k'.procTable = k.procTable) : Met k' :=
  ⟨by simpa only [Awaits, SendsTo, ht] using h.pair, by simpa only [AwaitsInt, ht] using h.int⟩

/-- A step that only wakes processes up, and makes no interrupt pending, keeps it. -/
theorem mono (h : Met k) (hk : ∀ q, (k'.procTable q).pFlags = 0 ∨
      (k'.procTable q).pFlags = (k.procTable q).pFlags ∧
      (k'.procTable q).pRecvfrom = (k.procTable q).pRecvfrom ∧
      (k'.procTable q).pSendto = (k.procTable q).pSendto)
    (hi : ∀ q, (k'.procTable q).hasIntMsg = true → (k.procTable q).hasIntMsg = true) : Met k' := by
  refine ⟨fun d s hd hs => ?_, fun d hd => ?_⟩
  · rcases hk d with hf | ⟨hdf, hdr, -⟩
    · exact hd.1 (by simp [hf])
    rcases hk s with hf | ⟨hsf, -, hst⟩
    · exact hs.1 (by simp [hf])
    exact h.pair d s (by rwa [Awaits, hdf, hdr] at hd) (by rwa [SendsTo, hsf, hst] at hs)
  · rcases hk d with hf | ⟨hdf, hdr, -⟩
    · exact absurd (by simp [hf]) hd.1
    have hint := h.int d (by rwa [AwaitsInt, hdf, hdr] at hd)
    by_contra hn
    rw [hi d (by simpa using hn)] at hint
    exact Bool.noConfusion hint

theorem send (h : Met k) {s d : Slot} {m src : Addr} (hs : (k.procTable s).pFlags = 0)
    (ho : SendOutcome k s d m src k') : Met k' := by
  cases ho with
  | handOff dst _ _ _ hf _ =>
    refine h.mono (fun q => ?_) fun q hq => by simpa only [handOff_procTable] using hq
    rcases eq_or_ne q d with rfl | hqd
    · exact .inl (by simpa only [handOff_procTable, if_pos] using hf)
    · exact .inr (by simp only [handOff_procTable, if_neg hqd, and_self])
  | queueUp last hna _ _ _ =>
    have hflags (q : Slot) (hq : q ≠ s) : Awaits (queueUp k s d m last) q = Awaits k q := by
      simp only [funext_iff, Awaits, queueUp_procTable, if_neg hq, implies_true]
    have hself : ¬ Receiving ((queueUp k s d m last).procTable s) := by
      simp only [Receiving, queueUp_procTable, if_pos, hs]
      decide
    refine ⟨fun e q he hq => ?_, fun e he => ?_⟩
    · have hes : e ≠ s := by
        rintro rfl
        exact hself he.1
      rw [hflags e hes] at he
      simp only [SendsTo, queueUp_procTable] at hq
      rcases eq_or_ne q s with rfl | hqs
      · rw [if_pos rfl, if_pos rfl] at hq
        obtain rfl := proc2pid_inj hq.2
        exact hna he
      · rw [if_neg hqs, if_neg hqs] at hq
        exact h.pair e q he hq
    · have hes : e ≠ s := by
        rintro rfl
        exact hself he.1
      simp only [AwaitsInt, queueUp_procTable, if_neg hes] at he ⊢
      exact h.int e he

theorem receive (h : Met k) (hq : QueueInv k queue) {p : Slot} {src : Int} {m dst : Addr}
    (hp : (k.procTable p).pFlags = 0) (ho : ReceiveOutcome k p src m dst k') : Met k' := by
  cases ho with
  | takeInterrupt =>
    refine h.mono (fun q => .inr ?_) fun q hq => ?_ <;>
      rcases eq_or_ne q p with rfl | hqp <;> simp_all [takeInterrupt]
  | takeFrom s prev a _ _ _ hf _ _ =>
    refine h.mono (fun q => ?_) fun q hq => by simpa only [takeFrom_procTable] using hq
    rcases eq_or_ne q s with rfl | hqs
    · refine .inl ?_
      simp only [takeFrom_procTable, if_pos, hf]
      decide
    · exact .inr (by simp only [takeFrom_procTable, if_neg hqs, and_self])
  | waitFor hint hany hsel _ _ _ =>
    have hother (q : Slot) (hq : q ≠ p) : (waitFor k p src m).procTable q = k.procTable q := by
      simp [waitFor, hq]
    have hself : ¬ Sending ((waitFor k p src m).procTable p) := by
      simp only [Sending, waitFor, Kernel.set_procTable, if_pos]
      decide
    refine ⟨fun e q he hs => ?_, fun e he => ?_⟩
    · have hqp : q ≠ p := by
        rintro rfl
        exact hself hs.1
      rw [SendsTo, hother q hqp] at hs
      rcases eq_or_ne e p with rfl | hep
      · rcases he.2 with hr | hr <;> simp only [waitFor, Kernel.set_procTable, if_pos] at hr
        · exact hsel q hr hs
        · have hc := hq.chain e
          rw [hany hr, chain_none] at hc
          exact List.not_mem_nil (hc ▸ (hq.mem e q).2 hs)
      · rw [Awaits, hother e hep] at he
        exact h.pair e q he hs
    · rcases eq_or_ne e p with rfl | hep
      · simpa [waitFor] using hint
      · rw [AwaitsInt, hother e hep] at he
        rw [hother e hep]
        exact h.int e he

theorem inform (h : Met k) {t : Slot} (ho : InformOutcome k t k') : Met k' := by
  cases ho with
  | wake _ hf _ =>
    refine h.mono (fun q => ?_) fun q hq => ?_
    · rcases eq_or_ne q t with rfl | hqt
      · exact .inl (by simpa [wake] using hf)
      · exact .inr (by simp [wake, hqt])
    · rcases eq_or_ne q t with rfl | hqt <;> simp_all [wake]
  | pend ha =>
    refine ⟨fun e q he hs => h.pair e q ?_ ?_, fun e he => ?_⟩
    · rcases eq_or_ne e t with rfl | het <;> simp_all [Awaits, pend]
    · rcases eq_or_ne q t with rfl | hqt <;> simp_all [SendsTo, pend]
    · rcases eq_or_ne e t with rfl | het
      · exact absurd (by simpa [AwaitsInt, pend] using he) ha
      · simp only [AwaitsInt, pend, Kernel.set_procTable, if_neg het] at he ⊢
        exact h.int e he

end Met

/-! ## Runs -/

/-- A process of a run of the kernel alone runs, or is blocked in one way, or its slot is free. -/
def Plain (x : Proc) : Prop :=
  x.pFlags = 0 ∨ x.pFlags = sending ∨ x.pFlags = receiving ∨ x.pFlags = freeSlot

theorem Plain.send {k k' : Kernel} {s d : Slot} {m src : Addr}
    (h : ∀ q, Plain (k.procTable q)) (hs : (k.procTable s).pFlags = 0)
    (ho : SendOutcome k s d m src k') (q : Slot) : Plain (k'.procTable q) := by
  have hq := h q
  cases ho with
  | handOff dst _ _ _ hf _ =>
    rw [handOff_procTable]
    rcases eq_or_ne q d with rfl | hqd
    · exact .inl (by simpa using hf)
    · simpa only [Plain, if_neg hqd] using hq
  | queueUp =>
    rw [queueUp_procTable]
    rcases eq_or_ne q s with rfl | hqs
    · exact .inr (.inl (by simp [hs]))
    · simpa only [Plain, if_neg hqs] using hq

theorem Plain.receive {k k' : Kernel} {p : Slot} {src : Int} {m dst : Addr}
    (h : ∀ q, Plain (k.procTable q)) (ho : ReceiveOutcome k p src m dst k') (q : Slot) :
    Plain (k'.procTable q) := by
  have hq := h q
  cases ho with
  | takeInterrupt =>
    rcases eq_or_ne q p with rfl | hqp
    · simpa [takeInterrupt, Plain] using hq
    · simpa [takeInterrupt, hqp] using hq
  | takeFrom s prev a _ _ _ hf =>
    rw [takeFrom_procTable]
    rcases eq_or_ne q s with rfl | hqs
    · refine .inl ?_
      simp only [if_pos, hf]
      decide
    · simpa only [Plain, if_neg hqs] using hq
  | waitFor =>
    rcases eq_or_ne q p with rfl | hqp
    · exact .inr (.inr (.inl (by simp [waitFor])))
    · simpa [waitFor, hqp] using hq

theorem Plain.inform {k k' : Kernel} {t : Slot} (h : ∀ q, Plain (k.procTable q))
    (ho : InformOutcome k t k') (q : Slot) : Plain (k'.procTable q) := by
  have hq := h q
  cases ho with
  | wake _ hf =>
    rcases eq_or_ne q t with rfl | hqt
    · exact .inl (by simpa [wake] using hf)
    · simpa [wake, hqt] using hq
  | pend =>
    rcases eq_or_ne q t with rfl | hqt
    · simpa [pend, Plain] using hq
    · simpa [pend, hqt] using hq

/-- What every run from the first table keeps. -/
structure IpcInv (k : Kernel) : Prop where
  queues : ∃ queue, Queues k queue
  met : Met k
  plain : ∀ q, Plain (k.procTable q)

theorem IpcInv.step {k k' : Kernel} {a : Act} (h : IpcInv k) (hs : Step k a k') : IpcInv k' := by
  obtain ⟨⟨queue, hq⟩, hmet, hplain⟩ := h
  refine ⟨hq.step hs, ?_, ?_⟩
  · rcases step_cases hs with ⟨p, function, srcDest, m, -, hp, hs⟩ | ⟨t, -, hi⟩ | ⟨mem, -, rfl⟩
    · obtain ⟨src, k₁, -, ho, rfl⟩ := sendrec_ok hs
      have hk : Met (stamp (save k) p src) := hmet.congr rfl
      have hqk : Queues (stamp (save k) p src) queue := hq.congr rfl rfl
      cases ho with
      | send d k' _ _ ho =>
        have hkn : Met ((stamp (save k) p src).note
            (.call p d (Message.load (stamp (save k) p src).mem src))) := hk.congr rfl
        exact (hkn.send hp ho).congr rfl
      | receive srcDest k' ho => exact (hk.receive hqk.toQueueInv hp ho).congr rfl
    · have hk : Met (k.note (.informed t)) := hmet.congr rfl
      exact hk.inform (informInt_ok hi)
    · exact hmet.congr rfl
  · rcases step_cases hs with ⟨p, function, srcDest, m, -, hp, hs⟩ | ⟨t, -, hi⟩ | ⟨mem, -, rfl⟩
    · obtain ⟨src, k₁, -, ho, rfl⟩ := sendrec_ok hs
      simp only [restart_procTable]
      cases ho with
      | send d k' _ _ ho =>
        exact Plain.send (k := (stamp (save k) p src).note _) hplain hp ho
      | receive srcDest k' ho =>
        exact Plain.receive (k := stamp (save k) p src) hplain ho
    · exact Plain.inform (k := k.note (.informed t)) hplain (informInt_ok hi)
    · exact hplain

theorem IpcInv.start {k : Kernel} (h : Start k) : IpcInv k := by
  obtain ⟨mem, limit, rfl⟩ := h
  have hrun (q : Slot) : Plain ((kernelMain mem limit).procTable q) := by
    obtain ⟨-, -, -, hf | ⟨hf, -⟩⟩ := kernelMain_proc mem limit q
    · exact .inr (.inr (.inr hf))
    · exact .inl hf
  have hnr (q : Slot) : ¬ Receiving ((kernelMain mem limit).procTable q) := by
    obtain ⟨-, -, -, hf | ⟨hf, -⟩⟩ := kernelMain_proc mem limit q <;> rw [Receiving, hf] <;> decide
  exact ⟨⟨_, .start mem limit⟩,
    ⟨fun d s hd => absurd hd.1 (hnr d), fun d hd => absurd hd.1 (hnr d)⟩, hrun⟩

theorem IpcInv.of_run {t : List Act} {k : Kernel} (h : Run Start Step t k) : IpcInv k :=
  h.invariant (P := fun _ k => IpcInv k) (fun _ => .start) fun _ _ _ _ => .step

/-- The send queues as the process table shows them. The processes blocked sending to `d` make up
its queue, each once, in the order of the calls they blocked in; who is on no queue has no link;
and the flags of a process in use say which of its message fields are set. -/
structure SendQueues (k : Kernel) (queue : Slot → List Slot) : Prop where
  chain : ∀ d, Chain (fun s => (k.procTable s).nextSending) (k.procTable d).qSending (queue d)
  nodup : ∀ d, (queue d).Nodup
  mem : ∀ d s, s ∈ queue d ↔
    (k.procTable s).pFlags = sending ∧ (k.procTable s).pSendto = proc2pid d
  inOrder : ∀ d, (queue d).Pairwise fun s s' => sinceCall k.log s' < sinceCall k.log s
  disjoint : ∀ s d e, s ∈ queue d → s ∈ queue e → d = e
  next : ∀ s, (k.procTable s).pFlags ≠ sending → (k.procTable s).nextSending = none
  msg : ∀ s, (k.procTable s).pFlags ≠ freeSlot →
    ((k.procTable s).pMsg ≠ 0 ↔ Sending (k.procTable s) ∨ Receiving (k.procTable s))
  sendto : ∀ s, (k.procTable s).pFlags ≠ freeSlot →
    ((k.procTable s).pSendto ≠ noTask ↔ Sending (k.procTable s))
  recvfrom : ∀ s, (k.procTable s).pFlags ≠ freeSlot →
    ((k.procTable s).pRecvfrom ≠ noTask ↔ Receiving (k.procTable s))
  exclusive : ∀ s, ¬ (Sending (k.procTable s) ∧ Receiving (k.procTable s))

theorem Plain.sending_iff {x : Proc} (h : Plain x) : Sending x ↔ x.pFlags = sending := by
  unfold Sending
  rcases h with h | h | h | h <;> rw [h] <;> decide

theorem Plain.receiving_iff {x : Proc} (h : Plain x) : Receiving x ↔ x.pFlags = receiving := by
  unfold Receiving
  rcases h with h | h | h | h <;> rw [h] <;> decide

theorem Plain.free_iff {x : Proc} (h : Plain x) : x.pFlags &&& freeSlot = 0 ↔
    x.pFlags ≠ freeSlot := by
  rcases h with h | h | h | h <;> rw [h] <;> decide

theorem proc2pid_ne_noTask (d : Slot) : proc2pid d ≠ noTask := by
  unfold proc2pid noTask
  omega

theorem proc2pid_ne_any (s : Slot) : proc2pid s ≠ any := by
  unfold proc2pid any
  omega

theorem proc2pid_ne_interrupt (s : Slot) : proc2pid s ≠ interrupt := by
  unfold proc2pid interrupt
  omega

theorem send_queues {t : List Act} {k : Kernel} (h : Run Start Step t k) :
    ∃ queue, SendQueues k queue := by
  obtain ⟨⟨queue, hq⟩, -, hplain⟩ := IpcInv.of_run h
  have hidle (s : Slot) (hs : ¬ Sending (k.procTable s)) (hr : ¬ Receiving (k.procTable s))
      (hf : (k.procTable s).pFlags ≠ freeSlot) :=
    (hq.proc s).idle hs hr ((hplain s).free_iff.2 hf)
  refine ⟨queue, hq.chain, hq.nodup, fun d s => ?_, hq.inOrder, fun _ _ _ => hq.disjoint,
    fun s hs => hq.next s fun hn => hs ((hplain s).sending_iff.1 hn),
    fun s hf => ⟨fun hm => ?_, ?_⟩, fun s hf => ⟨fun hto => ?_, fun hs => ?_⟩,
    fun s hf => ⟨fun hto => ?_, fun hr => ?_⟩,
    fun s hs => ((hq.proc s).sending hs.1).2.2 hs.2⟩
  · rw [hq.mem, SendsTo, ← (hplain s).sending_iff, Sending]
  · by_contra hn
    rw [not_or] at hn
    exact hm (hidle s hn.1 hn.2 hf).1
  · rintro (hs | hr)
    · exact ((hq.proc s).sending hs).1
    · exact ((hq.proc s).receiving hr).1
  · by_contra hs
    by_cases hr : Receiving (k.procTable s)
    · exact hto ((hq.proc s).receiving hr).2.1
    · exact hto (hidle s hs hr hf).2.1
  · obtain ⟨d, hd⟩ := hq.target s hs
    exact hd ▸ proc2pid_ne_noTask d
  · by_contra hr
    by_cases hs : Sending (k.procTable s)
    · exact hto ((hq.proc s).sending hs).2.1
    · exact hto (hidle s hs hr hf).2.2
  · exact ((hq.proc s).receiving hr).2.2

/-- Two processes queue up at a third, and the one that came last is taken first. -/
theorem send_queues_middle : ∃ k, Run.exec step (kernelMain (fun _ => 0) 0)
      [.sendrec 6 .send 5 0x1000, .sendrec 7 .send 5 0x2000,
        .sendrec 5 .receive 7 0x3000] = some k ∧
    ∃ queue, SendQueues k queue := by
  obtain ⟨k, hk⟩ := Option.isSome_iff_exists.1 (show (Run.exec step (kernelMain (fun _ => 0) 0)
    [.sendrec 6 .send 5 0x1000, .sendrec 7 .send 5 0x2000,
      .sendrec 5 .receive 7 0x3000]).isSome = true by decide)
  exact ⟨k, hk, send_queues (Run.of_exec (.start ⟨_, _, rfl⟩) hk)⟩

theorem no_missed_rendezvous {t : List Act} {k : Kernel} (h : Run Start Step t k) :
    (¬ ∃ d s, Awaits k d s ∧ SendsTo k s d) ∧
      ¬ ∃ d, AwaitsInt k d ∧ (k.procTable d).hasIntMsg = true := by
  have hmet := (IpcInv.of_run h).met
  refine ⟨fun ⟨d, s, hd, hs⟩ => hmet.pair d s hd hs, fun ⟨d, hd, hint⟩ => ?_⟩
  rw [hmet.int d hd] at hint
  exact Bool.noConfusion hint

/-- An interrupt is announced before its task asks for anything, and a message comes after. -/
theorem no_missed_rendezvous_pending : ∃ k, Run.exec step (kernelMain (fun _ => 0) 0)
      [.informInt taskTty, .sendrec taskTty .receive any 0x1000,
        .sendrec taskTty .receive any 0x1000, .sendrec taskFs .send 0 0x2000] = some k ∧
    (¬ ∃ d s, Awaits k d s ∧ SendsTo k s d) ∧
      ¬ ∃ d, AwaitsInt k d ∧ (k.procTable d).hasIntMsg = true := by
  obtain ⟨k, hk⟩ := Option.isSome_iff_exists.1 (show (Run.exec step (kernelMain (fun _ => 0) 0)
    [.informInt taskTty, .sendrec taskTty .receive any 0x1000,
      .sendrec taskTty .receive any 0x1000,
      .sendrec taskFs .send 0 0x2000]).isSome = true by decide)
  exact ⟨k, hk, no_missed_rendezvous (Run.of_exec (.start ⟨_, _, rfl⟩) hk)⟩

end MyOS
