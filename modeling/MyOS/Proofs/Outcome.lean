import MyOS.Main
import Mathlib.Tactic.SplitIfs

/-!
# What a step can do

A step that does not stop is one of six: a message is handed over, a sender queues up, a message is
taken out of a queue, a receiver waits, a pending interrupt is taken, an interrupt wakes a receiver
or stays pending. `step_outcome` reads these off the code once; every invariant is proved from
them.
-/

namespace MyOS

open Memory Pointer

section States

variable (k : Kernel)

/-- `sys_sendrec` writes the caller into the message. -/
def stamp (p : Slot) (mla : Addr) : Kernel :=
  { k with mem := Message.setSource k.mem mla (BitVec.ofInt 32 (proc2pid p)) }

/-- The memory and the log with the message at `src` of `s` copied to `dst` of `d`. -/
def copy (s d : Slot) (dst src : Addr) : Kernel :=
  { k with
    mem := memcpy k.mem dst src Message.size
    log := .copied s d (Message.load (memcpy k.mem dst src Message.size) dst) :: k.log }

def handOff (s d : Slot) (dst src : Addr) : Kernel :=
  (copy k s d dst src).set d fun p =>
    { p with pMsg := 0, pFlags := p.pFlags &&& ~~~receiving, pRecvfrom := noTask }

/-- `last` is the process `s` queues up behind. -/
def queueUp (s d : Slot) (m : Addr) (last : Option Slot) : Kernel :=
  let k := k.set s fun p =>
    { p with pFlags := p.pFlags ||| sending, pSendto := proc2pid d, pMsg := m }
  let k := match last with
    | some p => k.set p fun x => { x with nextSending := some s }
    | none => k.set d fun x => { x with qSending := some s }
  k.set s fun x => { x with nextSending := none }

/-- `prev` is the process before `s` in the queue of `p`. -/
def unlinkFrom (p s : Slot) (prev : Option Slot) : Kernel :=
  let next := (k.procTable s).nextSending
  let k := match prev with
    | some q => k.set q fun x => { x with nextSending := next }
    | none => k.set p fun x => { x with qSending := next }
  k.set s fun x => { x with nextSending := none }

def takeFrom (p s : Slot) (prev : Option Slot) (dst src : Addr) : Kernel :=
  (copy (unlinkFrom k p s prev) s p dst src).set s fun x =>
    { x with pMsg := 0, pSendto := noTask, pFlags := x.pFlags &&& ~~~sending }

def waitFor (p : Slot) (src : Int) (m : Addr) : Kernel :=
  k.set p fun x => { x with pFlags := receiving, pMsg := m, pRecvfrom := src }

def takeInterrupt (p : Slot) (dst : Addr) : Kernel :=
  { k with
    mem := Message.store k.mem dst hardIntMsg
    log := .hardInt p (Message.load (Message.store k.mem dst hardIntMsg) dst) :: k.log }.set p
      fun x => { x with hasIntMsg := false }

/-- The memory after `inform_int` has written through `a`. -/
def hardIntMem (a : Addr) : Mem :=
  Message.setType (Message.setSource k.mem a (BitVec.ofInt 32 interrupt)) a MsgType.hardInt.code

def wake (t : Slot) (a : Addr) : Kernel :=
  { k with
    mem := hardIntMem k a
    log := .hardInt t (Message.load (hardIntMem k a) a) :: k.log }.set t fun x =>
      { x with
        pMsg := 0, hasIntMsg := false, pFlags := x.pFlags &&& ~~~receiving, pRecvfrom := noTask }

def pend (t : Slot) : Kernel := k.set t fun x => { x with hasIntMsg := true }

end States

/-- `d` waits for a message that `s` may send. -/
def Awaits (k : Kernel) (d s : Slot) : Prop :=
  (k.procTable d).pFlags &&& receiving ≠ 0 ∧
    ((k.procTable d).pRecvfrom = proc2pid s ∨ (k.procTable d).pRecvfrom = any)

/-- `d` waits for an interrupt. -/
def AwaitsInt (k : Kernel) (d : Slot) : Prop :=
  (k.procTable d).pFlags &&& receiving ≠ 0 ∧
    ((k.procTable d).pRecvfrom = interrupt ∨ (k.procTable d).pRecvfrom = any)

/-- `s` is blocked sending to `d`. -/
def SendsTo (k : Kernel) (s d : Slot) : Prop :=
  (k.procTable s).pFlags &&& sending ≠ 0 ∧ (k.procTable s).pSendto = proc2pid d

/-- The process `src` names, if it is one. -/
def Selects (src : Int) (s : Slot) : Prop := src = any ∨ src = proc2pid s

/-- The process at the end of the queue of `d`. -/
def Tail (k : Kernel) (d : Slot) : Option Slot → Prop
  | none => (k.procTable d).qSending = none
  | some p => ∃ q, (k.procTable d).qSending = some q ∧
    lastFrom (fun p => (k.procTable p).nextSending) (nrTasks + nrProcs) q = some p

/-- What `SEND` by `s` to `d` from the address `m`, at `src` in linear memory, can do. -/
inductive SendOutcome (k : Kernel) (s d : Slot) (m src : Addr) : Kernel → Prop
  | handOff (dst : Addr) : Awaits k d s → va2la k d (k.procTable d).pMsg = .ok dst →
    (k.procTable d).pMsg ≠ 0 → (k.procTable d).pFlags &&& ~~~receiving = 0 →
    (k.procTable d).pSendto = noTask →
      SendOutcome k s d m src (handOff k s d dst src)
  | queueUp (last : Option Slot) : ¬ Awaits k d s → (k.procTable s).pRecvfrom = noTask →
    m ≠ 0 → Tail k d last →
      SendOutcome k s d m src (queueUp k s d m last)

/-- What `RECEIVE` by `p` from `src` into the address `m`, at `dst` in linear memory, can do. -/
inductive ReceiveOutcome (k : Kernel) (p : Slot) (src : Int) (m dst : Addr) : Kernel → Prop
  | takeInterrupt : (k.procTable p).hasIntMsg = true → src = any ∨ src = interrupt →
      ReceiveOutcome k p src m dst (takeInterrupt k p dst)
  | takeFrom (s : Slot) (prev : Option Slot) (a : Addr) :
    ¬ ((k.procTable p).hasIntMsg = true ∧ (src = any ∨ src = interrupt)) → Selects src s →
    (src = any → (k.procTable p).qSending = some s) →
    (k.procTable s).pFlags = sending → (k.procTable s).pSendto = proc2pid p →
    (prev = none ∧ (k.procTable p).qSending = some s ∨
      (k.procTable p).qSending ≠ some s ∧ ∃ q, prev = some q ∧ ∃ x,
      findPrev (fun q => (k.procTable q).nextSending) s (nrTasks + nrProcs) none
        (k.procTable p).qSending = some (prev, x)) →
    va2la k s (k.procTable s).pMsg = .ok a →
      ReceiveOutcome k p src m dst (takeFrom k p s prev dst a)
  | waitFor : (k.procTable p).hasIntMsg = false →
    (src = any → (k.procTable p).qSending = none) →
    (∀ s, src = proc2pid s → ¬ SendsTo k s p) → src ≠ noTask → m ≠ 0 →
    (k.procTable p).pSendto = noTask →
      ReceiveOutcome k p src m dst (waitFor k p src m)

/-- What `inform_int` can do. -/
inductive InformOutcome (k : Kernel) (t : Slot) : Kernel → Prop
  | wake : AwaitsInt k t → (k.procTable t).pFlags &&& ~~~receiving = 0 →
      (k.procTable t).pSendto = noTask →
      InformOutcome k t (wake k t (k.procTable t).pMsg)
  | pend : ¬ AwaitsInt k t → InformOutcome k t (pend k t)

/-! ## Field by field -/

section Fields

variable (k : Kernel) (p q : Slot) (a b : Addr)

@[simp] theorem stamp_procTable : (stamp k p a).procTable = k.procTable := rfl

@[simp] theorem stamp_kReenter : (stamp k p a).kReenter = k.kReenter := rfl

@[simp] theorem stamp_log : (stamp k p a).log = k.log := rfl

@[simp] theorem copy_procTable : (copy k p q a b).procTable = k.procTable := rfl

@[simp] theorem copy_kReenter : (copy k p q a b).kReenter = k.kReenter := rfl

@[simp] theorem save_procTable : (save k).procTable = k.procTable := rfl

@[simp] theorem save_mem : (save k).mem = k.mem := rfl

@[simp] theorem save_log : (save k).log = k.log := rfl

@[simp] theorem save_kReenter : (save k).kReenter = k.kReenter + 1 := rfl

@[simp] theorem restart_procTable : (restart k).procTable = k.procTable := rfl

@[simp] theorem restart_mem : (restart k).mem = k.mem := rfl

@[simp] theorem restart_log : (restart k).log = k.log := rfl

@[simp] theorem restart_kReenter : (restart k).kReenter = k.kReenter - 1 := rfl

end Fields

theorem handOff_procTable (k : Kernel) (s d : Slot) (dst src : Addr) (q : Slot) :
    (handOff k s d dst src).procTable q =
      { k.procTable q with
        pMsg := if q = d then 0 else (k.procTable q).pMsg
        pFlags := if q = d then (k.procTable q).pFlags &&& ~~~receiving else (k.procTable q).pFlags
        pRecvfrom := if q = d then noTask else (k.procTable q).pRecvfrom } := by
  rcases eq_or_ne q d with rfl | h <;> simp [handOff, copy, *]

theorem queueUp_procTable (k : Kernel) (s d : Slot) (m : Addr) (last : Option Slot) (q : Slot) :
    (queueUp k s d m last).procTable q =
      { k.procTable q with
        pFlags := if q = s then (k.procTable q).pFlags ||| sending else (k.procTable q).pFlags
        pSendto := if q = s then proc2pid d else (k.procTable q).pSendto
        pMsg := if q = s then m else (k.procTable q).pMsg
        qSending := if last = none ∧ q = d then some s else (k.procTable q).qSending
        nextSending := if q = s then none else if last = some q then some s
          else (k.procTable q).nextSending } := by
  rcases last with _ | p
  · rcases eq_or_ne q s with rfl | h <;> rcases eq_or_ne q d with rfl | h' <;>
      simp [queueUp, *]
  · rcases eq_or_ne q s with rfl | h <;> rcases eq_or_ne p q with rfl | h' <;>
      simp [queueUp, *, Ne.symm]

theorem unlinkFrom_procTable (k : Kernel) (p s : Slot) (prev : Option Slot) (q : Slot) :
    (unlinkFrom k p s prev).procTable q =
      { k.procTable q with
        qSending := if prev = none ∧ q = p then (k.procTable s).nextSending
          else (k.procTable q).qSending
        nextSending := if q = s then none else if prev = some q then (k.procTable s).nextSending
          else (k.procTable q).nextSending } := by
  rcases prev with _ | r
  · rcases eq_or_ne q s with rfl | h <;> rcases eq_or_ne q p with rfl | h' <;>
      simp [unlinkFrom, *]
  · rcases eq_or_ne q s with rfl | h <;> rcases eq_or_ne r q with rfl | h' <;>
      simp [unlinkFrom, *, Ne.symm]

theorem takeFrom_procTable (k : Kernel) (p s : Slot) (prev : Option Slot) (dst src : Addr)
    (q : Slot) :
    (takeFrom k p s prev dst src).procTable q =
      { k.procTable q with
        pMsg := if q = s then 0 else (k.procTable q).pMsg
        pSendto := if q = s then noTask else (k.procTable q).pSendto
        pFlags := if q = s then (k.procTable q).pFlags &&& ~~~sending else (k.procTable q).pFlags
        qSending := if prev = none ∧ q = p then (k.procTable s).nextSending
          else (k.procTable q).qSending
        nextSending := if q = s then none else if prev = some q then (k.procTable s).nextSending
          else (k.procTable q).nextSending } := by
  simp only [takeFrom, copy, Kernel.set_procTable, unlinkFrom_procTable]
  rcases eq_or_ne q s with rfl | h <;> simp [*]

/-! ## Reading the code -/

theorem Kernel.set_set (k : Kernel) (p : Slot) (f g : Proc → Proc) :
    (k.set p f).set p g = k.set p fun x => g (f x) := by
  simp [Kernel.set]

theorem procAt_eq_ok {pid : Int} {p : Slot} : procAt pid = .ok p ↔ proc2pid p = pid := by
  unfold procAt proc2pid
  split
  · simp only [Except.ok.injEq, Fin.ext_iff]
    omega
  · simp only [reduceCtorEq, false_iff]
    omega

theorem procAt_proc2pid (p : Slot) : procAt (proc2pid p) = .ok p := procAt_eq_ok.2 rfl

theorem proc2pid_inj {p q : Slot} (h : proc2pid p = proc2pid q) : p = q := by
  unfold proc2pid at h
  exact Fin.ext (by omega)

theorem va2la_congr {k k' : Kernel} (h : k'.procTable = k.procTable) (p : Slot) (va : Addr) :
    va2la k' p va = va2la k p va := by
  simp [va2la, h]

theorem va2la_eq {k : Kernel} {p : Slot} {va la : Addr} (h : va2la k p va = .ok la) :
    la = ((k.procTable p).ldts 1).linear + va := by
  simp only [va2la] at h
  split at h
  · simp only [bind_eq_ok, Except.ok.injEq, exists_and_right] at h
    exact h.2.symm
  · exact (Except.ok.inj h).symm

theorem physCopy_ok {k k' : Kernel} {d s : Slot} {a b : Addr} (h : physCopy k d a s b = .ok k') :
    ∃ dst src, va2la k d a = .ok dst ∧ va2la k s b = .ok src ∧ k' = copy k s d dst src := by
  simp only [physCopy, bind_eq_ok, Except.ok.injEq] at h
  obtain ⟨dst, hd, src, hs, rfl⟩ := h
  exact ⟨dst, src, hd, hs, rfl⟩

theorem enqueue_ok {k k' : Kernel} {d s : Slot} (h : enqueue k d s = .ok k') :
    ∃ last : Option Slot, Tail k d last ∧
      k' = (match last with
        | some p => k.set p fun x => { x with nextSending := some s }
        | none => k.set d fun x => { x with qSending := some s }).set s
          fun x => { x with nextSending := none } := by
  unfold enqueue at h
  split at h
  · rename_i q hq
    split at h
    · rename_i p hp
      exact ⟨some p, ⟨q, hq, hp⟩, by simpa using h.symm⟩
    · simp at h
  · rename_i hq
    exact ⟨none, hq, by simpa using h.symm⟩

theorem deliver_ok {k k' : Kernel} {s d : Slot} {m src : Addr} (ha : Awaits k d s)
    (hm : va2la k s m = .ok src) (h : deliver k s d m = .ok k') : SendOutcome k s d m src k' := by
  simp only [deliver, unblock, assert_bind_eq_ok] at h
  obtain ⟨hp, -, h⟩ := h
  obtain ⟨k₁, hc, h⟩ := bind_eq_ok.1 h
  obtain ⟨dst, src', hd, hs, rfl⟩ := physCopy_ok hc
  simp only [assert_bind_eq_ok, Kernel.set_procTable, if_pos, Except.ok.injEq] at h
  obtain ⟨hf, -, -, -, ht, -, -, -, -, rfl⟩ := h
  rw [hm, Except.ok.injEq] at hs
  subst hs
  exact .handOff dst ha hd hp hf ht

theorem blockSending_ok {k k' : Kernel} {s d : Slot} {m src : Addr} (ha : ¬ Awaits k d s)
    (hds : d ≠ s) (h : blockSending k s d m = .ok k') : SendOutcome k s d m src k' := by
  simp only [blockSending, block, assert_bind_eq_ok, Kernel.set_set] at h
  obtain ⟨hf, h⟩ := h
  obtain ⟨k₁, he, h⟩ := bind_eq_ok.1 h
  obtain ⟨last, hl, rfl⟩ := enqueue_ok he
  have hn : ∀ q, ((k.set s fun p =>
      { p with pFlags := p.pFlags ||| sending, pSendto := proc2pid d, pMsg := m }).procTable
        q).nextSending = (k.procTable q).nextSending := by
    intro q
    rw [Kernel.set_procTable]
    split_ifs with hq
    · rw [hq]
    · rfl
  have hq : ((k.set s fun p =>
      { p with pFlags := p.pFlags ||| sending, pSendto := proc2pid d, pMsg := m }).procTable
        d).qSending = (k.procTable d).qSending := by
    rw [Kernel.set_procTable, if_neg hds]
  simp only [assert_bind_eq_ok, Except.ok.injEq] at h
  obtain ⟨-, -, hm, hr, -, rfl⟩ := h
  cases last with
  | none =>
    refine .queueUp none ha ?_ ?_ (hq.symm.trans hl)
    · simpa [hds.symm] using hr
    · simpa [hds.symm] using hm
  | some p =>
    simp only [Tail, hn, hq] at hl
    rcases eq_or_ne s p with rfl | hsp
    · exact .queueUp (some s) ha (by simpa using hr) (by simpa using hm) hl
    · exact .queueUp (some p) ha (by simpa [hsp] using hr) (by simpa [hsp] using hm) hl

theorem msgSend_ok {k k' : Kernel} {s : Slot} {dest : Int} {m src : Addr}
    (hm : va2la k s m = .ok src) (h : msgSend k s dest m = .ok k') :
    ∃ d, proc2pid d = dest ∧ d ≠ s ∧
      deadlock (k.note (.call s d (Message.load k.mem src))) s d = .ok false ∧
      SendOutcome (k.note (.call s d (Message.load k.mem src))) s d m src k' := by
  simp only [msgSend, bind_eq_ok, assert_eq_ok] at h
  obtain ⟨d, hd, -, hne, b, hb, h⟩ := h
  rw [procAt_eq_ok] at hd
  subst hd
  rw [← va2la_eq hm] at hb h
  cases b with
  | true => simp at h
  | false =>
  refine ⟨d, rfl, fun he => hne (he ▸ rfl), hb, ?_⟩
  rw [if_neg Bool.false_ne_true] at h
  split at h
  · rename_i ha
    exact deliver_ok ha (by rwa [va2la_congr rfl]) h
  · rename_i ha
    exact blockSending_ok ha (fun he => hne (he ▸ rfl)) h

theorem assertRendezvous_ok {k : Kernel} {p s : Slot} {u : Unit}
    (h : assertRendezvous k p s = .ok u) :
    (k.procTable s).pFlags = sending ∧ (k.procTable s).pSendto = proc2pid p := by
  simp only [assertRendezvous, assert_bind_eq_ok, assert_eq_ok] at h
  exact ⟨h.2.2.2.2.2.1, h.2.2.2.2.2.2.2.2⟩

/-- What a receiver that chooses has found: for `ANY` the head of its queue, for a number the
process that has it, if it sends to the receiver. -/
inductive Chooses (k : Kernel) (p : Slot) (src : Int) : Option (Slot × Option Slot) → Prop
  | head (s : Slot) : src = any → (k.procTable p).qSending = some s →
    assertRendezvous k p s = .ok () → Chooses k p src (some (s, none))
  | noHead : src = any → (k.procTable p).qSending = none → Chooses k p src none
  | found (s : Slot) (prev x : Option Slot) : src ≠ any → src = proc2pid s →
    findPrev (fun q => (k.procTable q).nextSending) s (nrTasks + nrProcs) none
      (k.procTable p).qSending = some (prev, x) →
    assertRendezvous k p s = .ok () → Chooses k p src (some (s, prev))
  | notSending (s : Slot) : src ≠ any → src = proc2pid s → ¬ SendsTo k s p → Chooses k p src none
  | outside : src ≠ any → ¬ (0 ≤ src ∧ src < nrTasks + nrProcs) → Chooses k p src none

theorem chooseSender_chooses {k : Kernel} {p : Slot} {src : Int} {c : Option (Slot × Option Slot)}
    (h : chooseSender k p src = .ok c) : Chooses k p src c := by
  unfold chooseSender at h
  split_ifs at h with hany hsrc
  · split at h
    · rename_i q hq
      obtain ⟨u, hr, h⟩ := bind_eq_ok.1 h
      cases h
      exact .head q hany hq hr
    · rename_i hq
      cases h
      exact .noHead hany hq
  · obtain ⟨q, hq, h⟩ := bind_eq_ok.1 h
    rw [procAt_eq_ok] at hq
    split at h
    · rw [assert_bind_eq_ok] at h
      obtain ⟨-, h⟩ := h
      split at h
      · cases h
      · rename_i prev x hx
        obtain ⟨u, hr, h⟩ := bind_eq_ok.1 h
        cases h
        exact .found q prev x hany hq.symm hx hr
    · rename_i hto
      cases h
      exact .notSending q hany hq.symm hto
  · cases h
    exact .outside hany hsrc

/-- What `chooseSender` finds out of a process it chooses. -/
theorem chooseSender_some {k : Kernel} {p s : Slot} {src : Int} {prev : Option Slot}
    (h : chooseSender k p src = .ok (some (s, prev))) :
    Selects src s ∧ (src = any → (k.procTable p).qSending = some s ∧ prev = none) ∧
      (src ≠ any → ∃ x, findPrev (fun q => (k.procTable q).nextSending) s (nrTasks + nrProcs) none
        (k.procTable p).qSending = some (prev, x)) ∧
      (k.procTable s).pFlags = sending ∧ (k.procTable s).pSendto = proc2pid p := by
  cases chooseSender_chooses h with
  | head _ hany hq hr =>
    exact ⟨.inl hany, fun _ => ⟨hq, rfl⟩, fun hn => absurd hany hn, assertRendezvous_ok hr⟩
  | found _ _ x hany hs hx hr =>
    exact ⟨.inr hs, fun hn => absurd hn hany, fun _ => ⟨x, hx⟩, assertRendezvous_ok hr⟩

/-- No process is chosen only when none that the receiver asks for is in the queue. -/
theorem chooseSender_none {k : Kernel} {p : Slot} {src : Int}
    (h : chooseSender k p src = .ok none) :
    (src = any → (k.procTable p).qSending = none) ∧ ∀ s, src = proc2pid s → ¬ SendsTo k s p := by
  cases chooseSender_chooses h with
  | noHead hany hq =>
    refine ⟨fun _ => hq, fun s hs => ?_⟩
    simp only [hs, proc2pid, any] at hany
    omega
  | notSending s hany hs hto =>
    refine ⟨fun hn => absurd hn hany, fun s' hs' => ?_⟩
    rwa [proc2pid_inj (hs'.symm.trans hs)]
  | outside hany hsrc =>
    refine ⟨fun hn => absurd hn hany, fun s hs => ?_⟩
    simp only [hs, proc2pid] at hsrc
    omega

theorem unlink_ok {k k' : Kernel} {p s : Slot} {prev : Option Slot}
    (h : unlink k p s prev = .ok k') :
    (prev = none ∧ (k.procTable p).qSending = some s ∨
      (k.procTable p).qSending ≠ some s ∧ prev ≠ none) ∧ k' = unlinkFrom k p s prev := by
  unfold unlink at h
  split_ifs at h with hq
  · simp only [assert_bind_eq_ok, Except.ok.injEq] at h
    obtain ⟨rfl, rfl⟩ := h
    exact ⟨.inl ⟨rfl, hq.symm⟩, rfl⟩
  · split at h
    · simp at h
    · simp only [Except.ok.injEq] at h
      exact ⟨.inr ⟨Ne.symm hq, by simp⟩, h.symm⟩

theorem va2la_unlinkFrom (k : Kernel) (p s : Slot) (prev : Option Slot) (q : Slot) (va : Addr) :
    va2la (unlinkFrom k p s prev) q va = va2la k q va := by
  simp only [va2la, unlinkFrom_procTable]

theorem takeMessage_ok {k k' : Kernel} {p s : Slot} {prev : Option Slot} {m dst : Addr}
    (hm : va2la k p m = .ok dst) (h : takeMessage k p s prev m = .ok k') :
    (prev = none ∧ (k.procTable p).qSending = some s ∨
      (k.procTable p).qSending ≠ some s ∧ prev ≠ none) ∧
      ∃ a, va2la k s (k.procTable s).pMsg = .ok a ∧ k' = takeFrom k p s prev dst a := by
  obtain ⟨k₁, hu, h⟩ := bind_eq_ok.1 h
  obtain ⟨hprev, rfl⟩ := unlink_ok hu
  rw [assert_bind_eq_ok, assert_bind_eq_ok] at h
  obtain ⟨-, -, h⟩ := h
  obtain ⟨k₂, hc, h⟩ := bind_eq_ok.1 h
  obtain ⟨dst', a, hd, ha, rfl⟩ := physCopy_ok hc
  rw [va2la_unlinkFrom] at hd ha
  rw [hm, Except.ok.injEq] at hd
  subst hd
  simp only [unblock, assert_bind_eq_ok] at h
  refine ⟨hprev, a, ?_, (Except.ok.inj h.2).symm⟩
  simpa only [unlinkFrom_procTable] using ha

theorem receiveInterrupt_ok {k k' : Kernel} {p : Slot} {m dst : Addr}
    (hm : va2la k p m = .ok dst) (h : receiveInterrupt k p m = .ok k') :
    k' = takeInterrupt k p dst := by
  rw [receiveInterrupt, assert_bind_eq_ok, hm, ok_bind] at h
  simp only [assert_bind_eq_ok, Except.ok.injEq] at h
  obtain ⟨-, -, -, -, -, rfl⟩ := h
  rfl

theorem blockReceiving_ok {k k' : Kernel} {p : Slot} {src : Int} {m : Addr}
    (h : blockReceiving k p src m = .ok k') :
    k' = waitFor k p src m ∧ src ≠ noTask ∧ m ≠ 0 ∧ (k.procTable p).pSendto = noTask ∧
      (k.procTable p).hasIntMsg = false := by
  simp only [blockReceiving, block, assert_bind_eq_ok, Kernel.set_set, Kernel.set_procTable, if_pos,
    Except.ok.injEq] at h
  obtain ⟨-, hm, hr, hs, hi, rfl⟩ := h
  exact ⟨rfl, hr, hm, hs, hi⟩

theorem msgReceive_ok {k k' : Kernel} {p : Slot} {src : Int} {m dst : Addr}
    (hm : va2la k p m = .ok dst) (h : msgReceive k p src m = .ok k') :
    ReceiveOutcome k p src m dst k' := by
  rw [msgReceive, assert_bind_eq_ok] at h
  obtain ⟨hne, h⟩ := h
  split_ifs at h with hi
  · obtain rfl := receiveInterrupt_ok hm h
    exact .takeInterrupt hi.1 hi.2
  · obtain ⟨c, hc, h⟩ := bind_eq_ok.1 h
    rcases c with _ | ⟨s, prev⟩
    · obtain ⟨rfl, hsrc, hm0, hto, hint⟩ := blockReceiving_ok h
      obtain ⟨hany, hsel⟩ := chooseSender_none hc
      exact .waitFor hint hany hsel hsrc hm0 hto
    · obtain ⟨hsel, hany, hfind, hf, hto⟩ := chooseSender_some hc
      obtain ⟨hprev, a, ha, rfl⟩ := takeMessage_ok hm h
      refine .takeFrom s prev a hi hsel (fun h => (hany h).1) hf hto ?_ ha
      refine hprev.imp id fun ⟨hq, hp⟩ => ⟨hq, ?_⟩
      obtain ⟨q, rfl⟩ := Option.ne_none_iff_exists'.1 hp
      exact ⟨q, rfl, hfind fun he => hq (hany he).1⟩

theorem printCycle_congr {k k' : Kernel} (h : k'.procTable = k.procTable)
    (hr : k'.kReenter = k.kReenter) (src : Slot) :
    ∀ n p, printCycle k' src n p = printCycle k src n p
  | 0, _ => rfl
  | n + 1, p => by
    unfold printCycle printf save
    rw [h, hr]
    simp only [printCycle_congr h hr src n]

theorem deadlockLoop_congr {k k' : Kernel} (h : k'.procTable = k.procTable)
    (hr : k'.kReenter = k.kReenter) (src dest : Slot) :
    ∀ n p, deadlockLoop k' src dest n p = deadlockLoop k src dest n p
  | 0, _ => rfl
  | n + 1, p => by
    unfold deadlockLoop printf save
    rw [h, hr, printCycle_congr h hr]
    simp only [deadlockLoop_congr h hr src dest n]

theorem deadlock_congr {k k' : Kernel} (h : k'.procTable = k.procTable)
    (hr : k'.kReenter = k.kReenter) (src dest : Slot) :
    deadlock k' src dest = deadlock k src dest :=
  deadlockLoop_congr h hr src dest _ _

/-- What a trap for a message that does not stop can do. The process has its number written into
its message first. -/
inductive SendrecOutcome (k : Kernel) (p : Slot) (m src : Addr) : Function → Int → Kernel → Prop
  | send (d : Slot) (k' : Kernel) : d ≠ p → deadlock k p d = .ok false →
    SendOutcome ((stamp k p src).note (.call p d (Message.load (stamp k p src).mem src))) p d m src
      k' → SendrecOutcome k p m src .send (proc2pid d) k'
  | receive (srcDest : Int) (k' : Kernel) :
    ReceiveOutcome (stamp k p src) p srcDest m src k' →
      SendrecOutcome k p m src .receive srcDest k'

theorem sysSendrec_ok {k k' : Kernel} {p : Slot} {function : Function} {srcDest : Int} {m : Addr}
    (h : sysSendrec k function srcDest m p = .ok k') :
    ∃ src, va2la k p m = .ok src ∧ SendrecOutcome k p m src function srcDest k' := by
  rw [sysSendrec, assert_bind_eq_ok, assert_bind_eq_ok] at h
  obtain ⟨-, -, h⟩ := h
  obtain ⟨src, hm, h⟩ := bind_eq_ok.1 h
  rw [assert_bind_eq_ok] at h
  obtain ⟨-, h⟩ := h
  have hm' : va2la (stamp k p src) p m = .ok src := by rwa [va2la_congr rfl]
  refine ⟨src, hm, ?_⟩
  cases function with
  | send =>
    obtain ⟨d, rfl, hne, hd, ho⟩ := msgSend_ok hm' h
    refine .send d k' hne ?_ ho
    rw [← hd]
    exact deadlock_congr (by simp) (by simp) p d
  | receive => exact .receive srcDest k' (msgReceive_ok hm' h)
  | other => simp at h

theorem sendrec_ok {k k' : Kernel} {p : Slot} {function : Function} {srcDest : Int} {m : Addr}
    (h : sendrec k p function srcDest m = .ok k') :
    ∃ src k₁, va2la k p m = .ok src ∧ SendrecOutcome (save k) p m src function srcDest k₁ ∧
      k' = restart k₁ := by
  obtain ⟨k₁, hs, h⟩ := bind_eq_ok.1 h
  obtain ⟨src, hm, ho⟩ := sysSendrec_ok hs
  exact ⟨src, k₁, by rwa [va2la_congr rfl] at hm, ho, (Except.ok.inj h).symm⟩

theorem informInt_ok {k k' : Kernel} {t : Slot} (h : informInt k t = .ok k') :
    InformOutcome (k.note (.informed t)) t k' := by
  simp only [informInt] at h
  split_ifs at h with ha
  · simp only [assert_bind_eq_ok, unblock, Except.ok.injEq, Kernel.set_procTable, if_pos] at h
    obtain ⟨hf, -, -, -, -, hto, rfl⟩ := h
    exact .wake ha hf hto
  · obtain rfl := Except.ok.inj h
    exact .pend ha

/-- A step is a trap of a process that runs, an interrupt, or a write to memory. -/
theorem step_cases {k k' : Kernel} {a : Act} (h : Step k a k') :
    (∃ p function srcDest m, a = .sendrec p function srcDest m ∧ (k.procTable p).pFlags = 0 ∧
      sendrec k p function srcDest m = .ok k') ∨
    (∃ t, a = .informInt t ∧ informInt k t = .ok k') ∨
    ∃ mem, a = .user mem ∧ k' = { k with mem } := by
  cases a with
  | sendrec p function srcDest m =>
    simp only [Step, step] at h
    split_ifs at h with hp
    exact .inl ⟨p, function, srcDest, m, rfl, hp, toOption_eq_some.1 h⟩
  | informInt t => exact .inr (.inl ⟨t, rfl, toOption_eq_some.1 h⟩)
  | user mem => exact .inr (.inr ⟨mem, rfl, (Option.some.inj h).symm⟩)

/-- No trap and no interrupt writes a segment. -/
theorem step_ldts {k k' : Kernel} {a : Act} (hs : Step k a k') (x : Slot) :
    (k'.procTable x).ldts = (k.procTable x).ldts := by
  rcases step_cases hs with ⟨p, function, srcDest, m, -, -, hs⟩ | ⟨t, -, hs⟩ | ⟨mem, -, rfl⟩
  · obtain ⟨src, k₁, -, ho, rfl⟩ := sendrec_ok hs
    cases ho with
    | send d k₁ hne hdead ho =>
      cases ho with
      | handOff dst => simp [handOff_procTable]
      | queueUp last => simp [queueUp_procTable]
    | receive srcDest k₁ ho =>
      cases ho with
      | takeInterrupt => rcases eq_or_ne x p with rfl | hx <;> simp [takeInterrupt, *]
      | takeFrom => simp [takeFrom_procTable]
      | waitFor => rcases eq_or_ne x p with rfl | hx <;> simp [waitFor, *]
  · have ho := informInt_ok hs
    cases ho with
    | wake => rcases eq_or_ne x t with rfl | hx <;> simp [wake, *]
    | pend => rcases eq_or_ne x t with rfl | hx <;> simp [pend, *]
  · rfl

end MyOS
