import MyOS.Proofs.Outcome

/-!
# The send queues

Each process's `q_sending` starts a chain along `next_sending` of the processes that are blocked
sending to it. A sender is linked behind the last, and unlinked from wherever it stands; nothing
else touches the links. Bound up with it is what the flags say of `p_msg`, `p_sendto` and
`p_recvfrom`.
-/

namespace MyOS

open Memory Pointer

def Sending (x : Proc) : Prop := x.pFlags &&& sending ≠ 0

def Receiving (x : Proc) : Prop := x.pFlags &&& receiving ≠ 0

instance (x : Proc) : Decidable (Sending x) := inferInstanceAs (Decidable (_ ≠ _))

instance (x : Proc) : Decidable (Receiving x) := inferInstanceAs (Decidable (_ ≠ _))

/-- What the two blocking flags of a process say of its other fields. -/
structure Consistent (x : Proc) : Prop where
  sending : Sending x → x.pMsg ≠ 0 ∧ x.pRecvfrom = noTask ∧ ¬ Receiving x
  receiving : Receiving x → x.pMsg ≠ 0 ∧ x.pSendto = noTask ∧ x.pRecvfrom ≠ noTask
  idle : ¬ Sending x → ¬ Receiving x → x.pFlags &&& freeSlot = 0 →
    x.pMsg = 0 ∧ x.pSendto = noTask ∧ x.pRecvfrom = noTask
  free : x.pFlags &&& freeSlot ≠ 0 → ¬ Sending x ∧ ¬ Receiving x

/-- `queue d` is the send queue of `d`, first in line first. -/
structure QueueInv (k : Kernel) (queue : Slot → List Slot) : Prop where
  chain : ∀ d, Chain (fun s => (k.procTable s).nextSending) (k.procTable d).qSending (queue d)
  mem : ∀ d s, s ∈ queue d ↔ SendsTo k s d
  next : ∀ s, ¬ Sending (k.procTable s) → (k.procTable s).nextSending = none
  target : ∀ s, Sending (k.procTable s) → ∃ d, (k.procTable s).pSendto = proc2pid d
  proc : ∀ s, Consistent (k.procTable s)

/-! ## Flags -/

theorem and_eq_zero {x y z : BitVec 32} (h : x &&& ~~~y = 0) (hz : z &&& ~~~y = z) :
    x &&& z = 0 := by
  rw [← hz, BitVec.and_comm z, ← BitVec.and_assoc, h]
  exact BitVec.zero_and

theorem Consistent.of_runs {x : Proc} (h : Consistent x) (hf : x.pFlags = 0) :
    x.pMsg = 0 ∧ x.pSendto = noTask ∧ x.pRecvfrom = noTask :=
  h.idle (by simp [Sending, hf]) (by simp [Receiving, hf]) (by simp [hf])

theorem not_sending_of_runs {x : Proc} (hf : x.pFlags = 0) : ¬ Sending x := by simp [Sending, hf]

theorem not_receiving_of_runs {x : Proc} (hf : x.pFlags = 0) : ¬ Receiving x := by
  simp [Receiving, hf]

namespace QueueInv

variable {k : Kernel} {queue : Slot → List Slot}

theorem nodup (h : QueueInv k queue) (d : Slot) : (queue d).Nodup := (h.chain d).nodup

theorem length_le (h : QueueInv k queue) (d : Slot) : (queue d).length ≤ nrTasks + nrProcs := by
  simpa using (h.chain d).length_le

/-- The pending interrupts, the memory and the log do not matter. -/
theorem congr {k' : Kernel} (h : QueueInv k queue)
    (ht : ∀ q, ∃ b, k'.procTable q = { k.procTable q with hasIntMsg := b }) :
    QueueInv k' queue := by
  refine ⟨fun d => ?_, fun d s => ?_, fun s => ?_, fun s => ?_, fun s => ?_⟩
  · have hnext : (fun s => (k'.procTable s).nextSending) = fun s =>
        (k.procTable s).nextSending := by
      funext s
      obtain ⟨b, hb⟩ := ht s
      rw [hb]
    obtain ⟨b, hb⟩ := ht d
    rw [hnext, hb]
    exact h.chain d
  · obtain ⟨b, hb⟩ := ht s
    rw [SendsTo, hb]
    exact h.mem d s
  · obtain ⟨b, hb⟩ := ht s
    rw [hb]
    exact h.next s
  · obtain ⟨b, hb⟩ := ht s
    rw [hb]
    exact h.target s
  · obtain ⟨b, hb⟩ := ht s
    obtain ⟨h1, h2, h3, h4⟩ := h.proc s
    rw [hb]
    exact ⟨h1, h2, h3, h4⟩

/-- A change of one process that leaves its links and its sending alone. -/
theorem frame {k' : Kernel} {p : Slot} (h : QueueInv k queue)
    (hk : ∀ q, q ≠ p → k'.procTable q = k.procTable q)
    (hq : (k'.procTable p).qSending = (k.procTable p).qSending)
    (hn : (k'.procTable p).nextSending = (k.procTable p).nextSending)
    (hs : ¬ Sending (k.procTable p)) (hs' : ¬ Sending (k'.procTable p))
    (hp : Consistent (k'.procTable p)) : QueueInv k' queue := by
  have hnext (q : Slot) : (k'.procTable q).nextSending = (k.procTable q).nextSending := by
    rcases eq_or_ne q p with rfl | hqp
    · exact hn
    · rw [hk q hqp]
  refine ⟨fun d => ?_, fun d s => ?_, fun s hns => ?_, fun s hss => ?_, fun s => ?_⟩
  · simp only [hnext]
    rcases eq_or_ne d p with rfl | hd
    · rw [hq]
      exact h.chain d
    · rw [hk d hd]
      exact h.chain d
  · rw [h.mem]
    rcases eq_or_ne s p with rfl | hsp
    · exact iff_of_false (fun hst => hs hst.1) fun hst => hs' hst.1
    · simp only [SendsTo, hk s hsp]
  · rw [hnext]
    rcases eq_or_ne s p with rfl | hsp
    · exact h.next s hs
    · exact h.next s (by rwa [hk s hsp] at hns)
  · rcases eq_or_ne s p with rfl | hsp
    · exact absurd hss hs'
    · rw [hk s hsp] at hss ⊢
      exact h.target s hss
  · rcases eq_or_ne s p with rfl | hsp
    · exact hp
    · rw [hk s hsp]
      exact h.proc s

/-! ## One lemma for each thing a step does -/

theorem handOff (h : QueueInv k queue) {s d : Slot} {dst src : Addr} (ha : Awaits k d s)
    (hf : (k.procTable d).pFlags &&& ~~~receiving = 0) :
    QueueInv (handOff k s d dst src) queue := by
  have hr : Receiving (k.procTable d) := ha.1
  have hf' : (((MyOS.handOff k s d dst src).procTable d).pFlags) = 0 := by
    simpa only [handOff_procTable, if_pos] using hf
  have hto := ((h.proc d).receiving hr).2.1
  refine h.frame (p := d) (fun q hq => ?_) ?_ ?_ ?_ (not_sending_of_runs hf') ?_
  · simp only [handOff_procTable, if_neg hq]
  · simp only [handOff_procTable]
  · simp only [handOff_procTable]
  · exact fun hs => hs (and_eq_zero hf (by decide))
  · refine ⟨fun hs => absurd hs (not_sending_of_runs hf'),
      fun hr => absurd hr (not_receiving_of_runs hf'), fun _ _ _ => ?_, fun hfree => ?_⟩
    · simp [handOff_procTable, hto]
    · simp [hf'] at hfree

theorem wake (h : QueueInv k queue) {t : Slot} {a : Addr} (ha : AwaitsInt k t)
    (hf : (k.procTable t).pFlags &&& ~~~receiving = 0) : QueueInv (wake k t a) queue := by
  have hf' : ((MyOS.wake k t a).procTable t).pFlags = 0 := by
    simpa [MyOS.wake] using hf
  have hto := ((h.proc t).receiving ha.1).2.1
  refine h.frame (p := t) (fun q hq => ?_) ?_ ?_ ?_ (not_sending_of_runs hf') ?_
  · simp [MyOS.wake, hq]
  · simp [MyOS.wake]
  · simp [MyOS.wake]
  · exact fun hs => hs (and_eq_zero hf (by decide))
  · refine ⟨fun hs => absurd hs (not_sending_of_runs hf'),
      fun hr => absurd hr (not_receiving_of_runs hf'), fun _ _ _ => ?_, fun hfree => ?_⟩
    · simp [MyOS.wake, hto]
    · simp [hf'] at hfree

theorem waitFor (h : QueueInv k queue) {p : Slot} {src : Int} {m : Addr}
    (hp : (k.procTable p).pFlags = 0) (hsrc : src ≠ noTask) (hm : m ≠ 0) :
    QueueInv (waitFor k p src m) queue := by
  have hf' : ((MyOS.waitFor k p src m).procTable p).pFlags = receiving := by
    simp [MyOS.waitFor]
  have hto := ((h.proc p).of_runs hp).2.1
  have hs' : ¬ Sending ((MyOS.waitFor k p src m).procTable p) := by
    rw [Sending, hf']
    decide
  refine h.frame (p := p) (fun q hq => ?_) ?_ ?_ (not_sending_of_runs hp) hs' ?_
  · simp [MyOS.waitFor, hq]
  · simp [MyOS.waitFor]
  · simp [MyOS.waitFor]
  · refine ⟨fun hs => absurd hs hs', fun _ => ?_, fun _ hr => ?_, fun hfree => ?_⟩
    · simpa [MyOS.waitFor, hto, hsrc] using hm
    · exact absurd (by rw [Receiving, hf']; decide) hr
    · rw [hf'] at hfree
      exact absurd (by decide) hfree

theorem takeInterrupt (h : QueueInv k queue) (p : Slot) (dst : Addr) :
    QueueInv (takeInterrupt k p dst) queue :=
  h.congr fun q => ⟨if q = p then false else (k.procTable q).hasIntMsg, by
    rcases eq_or_ne q p with rfl | hq <;> simp [MyOS.takeInterrupt, *]⟩

theorem pend (h : QueueInv k queue) (t : Slot) : QueueInv (pend k t) queue :=
  h.congr fun q => ⟨if q = t then true else (k.procTable q).hasIntMsg, by
    rcases eq_or_ne q t with rfl | hq <;> simp [MyOS.pend, *]⟩

theorem not_mem_of_runs (h : QueueInv k queue) {s : Slot} (hs : (k.procTable s).pFlags = 0)
    (d : Slot) : s ∉ queue d :=
  fun hm => not_sending_of_runs hs ((h.mem d s).1 hm).1

theorem disjoint (h : QueueInv k queue) {s d e : Slot} (hd : s ∈ queue d) (he : s ∈ queue e) :
    d = e :=
  proc2pid_inj (((h.mem d s).1 hd).2.symm.trans ((h.mem e s).1 he).2)

/-- The tail the walk along the queue finds. -/
theorem tail (h : QueueInv k queue) {d : Slot} {last : Option Slot} (hl : Tail k d last) :
    (queue d).getLast? = last := by
  have hc := h.chain d
  rcases last with _ | p
  · rw [show (k.procTable d).qSending = none from hl, chain_none] at hc
    simp [hc]
  · obtain ⟨q, hq, hp⟩ := hl
    rw [hq] at hc
    obtain ⟨l, t, hlt, ht⟩ := lastFrom_of_chain hc (h.length_le d)
    rw [hp, Option.some.injEq] at ht
    simp [hlt, ht]

theorem queueUp_nextSending (k : Kernel) (s d : Slot) (m : Addr) (last : Option Slot) :
    (fun q => ((MyOS.queueUp k s d m last).procTable q).nextSending) =
      Function.update (match last with
        | none => fun q => (k.procTable q).nextSending
        | some p => Function.update (fun q => (k.procTable q).nextSending) p (some s)) s none := by
  funext q
  rcases last with _ | p
  · simp [queueUp_procTable, Function.update_apply]
  · simp [queueUp_procTable, Function.update_apply, eq_comm]

theorem queueUp_chain (h : QueueInv k queue) {s d : Slot} (m : Addr) {last : Option Slot}
    (hs : (k.procTable s).pFlags = 0) (hl : Tail k d last) (e : Slot) :
    Chain (fun q => ((MyOS.queueUp k s d m last).procTable q).nextSending)
      ((MyOS.queueUp k s d m last).procTable e).qSending
      (Function.update queue d (queue d ++ [s]) e) := by
  have hsq := h.not_mem_of_runs hs
  have htail := h.tail hl
  have hc := h.chain e
  rw [queueUp_nextSending]
  simp only [queueUp_procTable]
  rcases eq_or_ne e d with rfl | he
  · rw [Function.update_self]
    rcases last with _ | p
    · rw [if_pos ⟨rfl, rfl⟩, List.getLast?_eq_none_iff.1 htail]
      exact chain_single s
    · obtain ⟨l, hql⟩ := List.getLast?_eq_some_iff.1 htail
      have hsl := hsq e
      rw [hql] at hc hsl ⊢
      rw [if_neg (by simp)]
      exact hc.push hsl
  · rw [Function.update_of_ne he, if_neg fun hn => he hn.2]
    rcases last with _ | p
    · exact hc.update none (hsq e)
    · obtain ⟨l, hql⟩ := List.getLast?_eq_some_iff.1 htail
      have hpe : p ∉ queue e := fun hp => he (h.disjoint hp (by simp [hql]))
      exact (hc.update (some s) hpe).update none (hsq e)

theorem queueUp (h : QueueInv k queue) {s d : Slot} {m : Addr} {last : Option Slot}
    (hs : (k.procTable s).pFlags = 0) (hm : m ≠ 0) (hl : Tail k d last) :
    QueueInv (queueUp k s d m last) (Function.update queue d (queue d ++ [s])) := by
  have hsf : (k.procTable s).pFlags ||| sending = sending := by simp [hs]
  have hss : sending &&& sending ≠ 0 := by decide
  have hsr : sending &&& receiving = 0 := by decide
  refine ⟨h.queueUp_chain m hs hl, fun e q => ?_, fun q hq => ?_, fun q hq => ?_, fun q => ?_⟩
  · simp only [SendsTo, queueUp_procTable]
    rcases eq_or_ne q s with rfl | hqs
    · simp only [if_pos, hsf, Function.update_apply]
      split_ifs with he
      · exact iff_of_true (by simp) ⟨hss, by rw [he]⟩
      · exact iff_of_false (h.not_mem_of_runs hs e) fun hn => he (proc2pid_inj hn.2).symm
    · simp only [if_neg hqs, Function.update_apply]
      split_ifs with he
      · subst he
        simp only [List.mem_append, List.mem_singleton, hqs, or_false]
        exact h.mem e q
      · exact h.mem e q
  · simp only [Sending, queueUp_procTable] at hq ⊢
    rcases eq_or_ne q s with rfl | hqs
    · simp
    · rw [if_neg hqs] at hq ⊢
      -- the process queued up behind is itself in the queue
      have hlast : last ≠ some q := by
        rintro rfl
        obtain ⟨l, hql⟩ := List.getLast?_eq_some_iff.1 (h.tail hl)
        exact hq ((h.mem d q).1 (by simp [hql])).1
      rw [if_neg hlast]
      exact h.next q hq
  · rcases eq_or_ne q s with rfl | hqs
    · exact ⟨d, by simp [queueUp_procTable]⟩
    · simp only [Sending, queueUp_procTable, if_neg hqs] at hq ⊢
      exact h.target q hq
  · obtain ⟨h1, h2, h3, h4⟩ := h.proc q
    rw [queueUp_procTable]
    rcases eq_or_ne q s with rfl | hqs
    · have hr := ((h.proc q).of_runs hs).2.2
      refine ⟨fun _ => ?_, fun hrec => ?_, fun hn => ?_, fun hfree => ?_⟩
      · simp only [Receiving, if_pos, hsf, hsr]
        exact ⟨hm, hr, by simp⟩
      · simp only [Receiving, if_pos, hsf] at hrec
        exact absurd hsr hrec
      · simp only [Sending, if_pos, hsf] at hn
        exact absurd hss hn
      · simp only [if_pos, hsf] at hfree
        exact absurd (by decide) hfree
    · simp only [if_neg hqs]
      exact ⟨h1, h2, h3, h4⟩

/-- Where a sender stands in the queue it is taken from. -/
theorem take_split (h : QueueInv k queue) {p s : Slot} {prev : Option Slot}
    (hs : SendsTo k s p)
    (hprev : prev = none ∧ (k.procTable p).qSending = some s ∨
      (k.procTable p).qSending ≠ some s ∧ ∃ q, prev = some q ∧ ∃ x,
        findPrev (fun q => (k.procTable q).nextSending) s (nrTasks + nrProcs) none
          (k.procTable p).qSending = some (prev, x)) :
    ∃ l m, queue p = l ++ s :: m ∧ l.getLast? = prev := by
  have hmem := (h.mem p s).2 hs
  obtain ⟨l, m, hq, hsl⟩ := List.eq_append_cons_of_mem hmem
  have hc := h.chain p
  have hlen := h.length_le p
  rw [hq] at hc hlen
  refine ⟨l, m, hq, ?_⟩
  rcases hprev with ⟨rfl, hhead⟩ | ⟨hhead, q, rfl, x, hfind⟩
  · rcases l with _ | ⟨a, l⟩
    · rfl
    · have ha := (chain_cons.1 hc).1
      rw [hhead, Option.some.injEq] at ha
      simp [ha] at hsl
  · rw [findPrev_of_chain hc hsl (by simp at hlen; omega), Option.some.injEq,
      Prod.mk.injEq] at hfind
    rcases List.eq_nil_or_concat l with rfl | ⟨l₀, a, rfl⟩
    · exact absurd (chain_cons.1 hc).1 hhead
    · have ha : a = q := by simpa using hfind.1
      simp [ha]

theorem takeFrom_nextSending (k : Kernel) (p s : Slot) (prev : Option Slot) (dst src : Addr) :
    (fun q => ((MyOS.takeFrom k p s prev dst src).procTable q).nextSending) =
      Function.update (match prev with
        | none => fun q => (k.procTable q).nextSending
        | some r => Function.update (fun q => (k.procTable q).nextSending) r
          (k.procTable s).nextSending) s none := by
  funext q
  rcases prev with _ | r
  · simp [takeFrom_procTable, Function.update_apply]
  · simp [takeFrom_procTable, Function.update_apply, eq_comm]

theorem takeFrom_chain (h : QueueInv k queue) {p s : Slot} {prev : Option Slot} (dst src : Addr)
    {l m : List Slot} (hq : queue p = l ++ s :: m) (hprev : l.getLast? = prev) (e : Slot) :
    Chain (fun q => ((MyOS.takeFrom k p s prev dst src).procTable q).nextSending)
      ((MyOS.takeFrom k p s prev dst src).procTable e).qSending
      (Function.update queue p (l ++ m) e) := by
  have hc := h.chain e
  have hsp : s ∈ queue p := by simp [hq]
  rw [takeFrom_nextSending]
  simp only [takeFrom_procTable]
  rcases eq_or_ne e p with rfl | he
  · rw [Function.update_self]
    rcases prev with _ | r
    · obtain rfl := List.getLast?_eq_none_iff.1 hprev
      rw [hq] at hc
      rw [if_pos ⟨rfl, rfl⟩]
      exact hc.pop
    · obtain ⟨l₀, rfl⟩ := List.getLast?_eq_some_iff.1 hprev
      rw [hq, List.append_assoc] at hc
      rw [if_neg (by simp), List.append_assoc]
      exact hc.unlink
  · rw [Function.update_of_ne he, if_neg fun hn => he hn.2]
    have hse : s ∉ queue e := fun hs => he (h.disjoint hs hsp)
    rcases prev with _ | r
    · exact hc.update none hse
    · obtain ⟨l₀, rfl⟩ := List.getLast?_eq_some_iff.1 hprev
      have hre : r ∉ queue e := fun hr => he (h.disjoint hr (by simp [hq]))
      exact (hc.update _ hre).update none hse

theorem takeFrom (h : QueueInv k queue) {p s : Slot} {prev : Option Slot} (dst src : Addr)
    {l m : List Slot} (hq : queue p = l ++ s :: m) (hprev : l.getLast? = prev)
    (hf : (k.procTable s).pFlags = sending) :
    QueueInv (takeFrom k p s prev dst src) (Function.update queue p (l ++ m)) := by
  have hsp : s ∈ queue p := by simp [hq]
  have hss : Sending (k.procTable s) := ((h.mem p s).1 hsp).1
  have hf' : (k.procTable s).pFlags &&& ~~~sending = 0 := by rw [hf]; decide
  have hnd := h.nodup p
  have hr := ((h.proc s).sending hss).2.1
  rw [hq] at hnd
  refine ⟨h.takeFrom_chain dst src hq hprev, fun e q => ?_, fun q hn => ?_, fun q hn => ?_,
    fun q => ?_⟩
  · simp only [SendsTo, takeFrom_procTable]
    rcases eq_or_ne q s with rfl | hqs
    · rw [if_pos rfl, hf']
      refine iff_of_false (fun hm => ?_) (by simp)
      rcases eq_or_ne e p with rfl | he
      · rw [Function.update_self] at hm
        exact (List.nodup_cons.1 (List.nodup_middle.1 hnd)).1 hm
      · rw [Function.update_of_ne he] at hm
        exact he (h.disjoint hm hsp)
    · rw [if_neg hqs, if_neg hqs]
      rcases eq_or_ne e p with rfl | he
      · rw [Function.update_self, ← SendsTo, ← h.mem, hq]
        simp [hqs]
      · rw [Function.update_of_ne he]
        exact h.mem e q
  · simp only [Sending, takeFrom_procTable] at hn ⊢
    rcases eq_or_ne q s with rfl | hqs
    · simp
    · rw [if_neg hqs] at hn ⊢
      have hp : prev ≠ some q := by
        rintro rfl
        obtain ⟨l₀, rfl⟩ := List.getLast?_eq_some_iff.1 hprev
        exact hn ((h.mem p q).1 (by simp [hq])).1
      rw [if_neg hp]
      exact h.next q hn
  · rcases eq_or_ne q s with rfl | hqs
    · simp [Sending, takeFrom_procTable, hf'] at hn
    · simp only [Sending, takeFrom_procTable, if_neg hqs] at hn ⊢
      exact h.target q hn
  · obtain ⟨h1, h2, h3, h4⟩ := h.proc q
    rw [takeFrom_procTable]
    rcases eq_or_ne q s with rfl | hqs
    · refine ⟨fun hn => ?_, fun hn => ?_, fun _ _ _ => ?_, fun hn => ?_⟩
      · simp [Sending, hf'] at hn
      · simp [Receiving, hf'] at hn
      · simp [hr]
      · simp [hf'] at hn
    · simp only [if_neg hqs]
      exact ⟨h1, h2, h3, h4⟩

end QueueInv

/-- An entry of the first table is free, or idle. -/
theorem kernelMain_proc (mem : Mem) (limit : BitVec 32) (s : Slot) :
    ((kernelMain mem limit).procTable s).qSending = none ∧
      ((kernelMain mem limit).procTable s).nextSending = none ∧
      ((kernelMain mem limit).procTable s).hasIntMsg = false ∧
      (((kernelMain mem limit).procTable s).pFlags = freeSlot ∨
        ((kernelMain mem limit).procTable s).pFlags = 0 ∧
        ((kernelMain mem limit).procTable s).pMsg = 0 ∧
        ((kernelMain mem limit).procTable s).pSendto = noTask ∧
        ((kernelMain mem limit).procTable s).pRecvfrom = noTask) := by
  simp only [kernelMain, restart_procTable, kernelMainProc]
  split <;> simp

theorem queueInv_start (mem : Mem) (limit : BitVec 32) :
    QueueInv (kernelMain mem limit) fun _ => [] := by
  have hfs : freeSlot &&& sending = 0 := by decide
  have hfr : freeSlot &&& receiving = 0 := by decide
  have hns (s : Slot) : ¬ Sending ((kernelMain mem limit).procTable s) := by
    obtain ⟨-, -, -, hf | ⟨hf, -⟩⟩ := kernelMain_proc mem limit s <;> simp [Sending, hf, hfs]
  have hnr (s : Slot) : ¬ Receiving ((kernelMain mem limit).procTable s) := by
    obtain ⟨-, -, -, hf | ⟨hf, -⟩⟩ := kernelMain_proc mem limit s <;> simp [Receiving, hf, hfr]
  refine ⟨fun d => ?_, fun d s => ?_, fun s _ => ?_, fun s hs => absurd hs (hns s), fun s => ?_⟩
  · exact (kernelMain_proc mem limit d).1
  · exact iff_of_false List.not_mem_nil fun h => hns s h.1
  · exact (kernelMain_proc mem limit s).2.1
  · refine ⟨fun hs => absurd hs (hns s), fun hr => absurd hr (hnr s), fun _ _ hfree => ?_,
      fun _ => ⟨hns s, hnr s⟩⟩
    obtain ⟨-, -, -, hf | ⟨-, hm, hto, hr⟩⟩ := kernelMain_proc mem limit s
    · rw [hf] at hfree
      exact absurd hfree (by decide)
    · exact ⟨hm, hto, hr⟩

end MyOS
