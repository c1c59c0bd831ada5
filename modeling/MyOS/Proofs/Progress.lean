import MyOS.Proofs.Outcome

/-!
# Messages that go through

A process that runs and asks for a message blocks where there is none, and one that sends to a
process that waits for it hands its message over: none of the assertions on the way fails.
-/

namespace MyOS

open Memory Pointer

/-- A process that runs has no message and no partner. -/
structure Idle (x : Proc) : Prop where
  pFlags : x.pFlags = 0
  pMsg : x.pMsg = 0
  pRecvfrom : x.pRecvfrom = noTask
  pSendto : x.pSendto = noTask

/-- A process that waits for a message from `src` and for nothing else. -/
structure Awaiting (x : Proc) (src : Int) : Prop where
  pFlags : x.pFlags = receiving
  pMsg : x.pMsg ≠ 0
  pRecvfrom : x.pRecvfrom = src
  pSendto : x.pSendto = noTask

/-- A receiver after a message has been handed over to it. -/
def woken (x : Proc) : Proc :=
  { x with pMsg := 0, pFlags := x.pFlags &&& ~~~receiving, pRecvfrom := noTask }

theorem Awaiting.woken {x : Proc} {src : Int} (h : Awaiting x src) : Idle (woken x) := by
  refine ⟨?_, rfl, rfl, h.pSendto⟩
  simp only [MyOS.woken, h.pFlags]
  decide

/-- The segments of the native processes start at 0. -/
def NativeBase (k : Kernel) : Prop :=
  ∀ p : Slot, p.val < nrTasks + nrNativeProcs → ((k.procTable p).ldts 1).linear = 0

theorem NativeBase.va2la {k : Kernel} (h : NativeBase k) (p : Slot) (va : Addr) :
    va2la k p va = .ok (((k.procTable p).ldts 1).linear + va) := by
  unfold MyOS.va2la
  simp only
  split_ifs with hp
  · have hla : ((k.procTable p).ldts 1).linear + va = va := by
      rw [h p hp]
      exact BitVec.zero_add va
    rw [assert_of hla, ok_bind]
  · rfl

/-- They do in the first table. -/
theorem NativeBase.start (mem : Mem) (limit : BitVec 32) : NativeBase (kernelMain mem limit) := by
  intro q hq
  simp only [kernelMain, restart, kernelMainProc, if_neg (Nat.not_le.2 hq)]
  unfold nativeLdts
  by_cases hi : q = init
  · rw [if_pos hi]
    exact linear_initDescriptor _ _ _
  · rw [if_neg hi]
    exact linear_initDescriptor 0 0xfffff (daDrw ||| da32 ||| daLimit4k)

theorem ofInt_proc2pid (p : Slot) : (BitVec.ofInt 32 (proc2pid p)).toNat = p.val := by
  have hp : p.val < 37 := p.isLt
  unfold proc2pid
  rw [BitVec.ofInt_natCast, BitVec.toNat_ofNat, Nat.mod_eq_of_lt (by omega)]

theorem ofInt_proc2pid_ne {p q : Slot} (h : p ≠ q) :
    BitVec.ofInt 32 (proc2pid p) ≠ BitVec.ofInt 32 (proc2pid q) := by
  intro he
  have := congrArg BitVec.toNat he
  rw [ofInt_proc2pid, ofInt_proc2pid] at this
  exact h (Fin.ext this)

theorem ofInt_proc2pid_ne_any (p : Slot) :
    BitVec.ofInt 32 (proc2pid p) ≠ BitVec.ofInt 32 any := by
  intro he
  have := congrArg BitVec.toNat he
  have hp : p.val < 37 := p.isLt
  rw [ofInt_proc2pid, show (BitVec.ofInt 32 any).toNat = 47 by decide] at this
  omega

variable {k : Kernel}

/-- The first checks of `sys_sendrec`. -/
theorem sysSendrec_eq {p : Slot} (function : Function) {srcDest : Int} {m la : Addr}
    (hk : k.kReenter = 0)
    (hr : (0 ≤ srcDest ∧ srcDest < nrTasks + nrProcs) ∨ srcDest = any ∨ srcDest = interrupt)
    (hla : va2la k p m = .ok la)
    (hne : BitVec.ofInt 32 (proc2pid p) ≠ BitVec.ofInt 32 srcDest) :
    sysSendrec k function srcDest m p = (match function with
      | .send => msgSend (stamp k p la) p srcDest m
      | .receive => msgReceive (stamp k p la) p srcDest m
      | .other => .error .panic) := by
  have hsrc : (Message.load (stamp k p la).mem la).source ≠ BitVec.ofInt 32 srcDest := by
    simp only [stamp, Message.load_setSource]
    exact hne
  unfold sysSendrec
  rw [assert_of hk, ok_bind, assert_of hr, ok_bind, hla, ok_bind]
  exact (congrArg (· >>= _) (assert_of hsrc)).trans (ok_bind _ _)

theorem sendrec_of_sysSendrec {k₁ : Kernel} {p : Slot} {function : Function} {srcDest : Int}
    {m : Addr} (h : sysSendrec (save k) function srcDest m p = .ok k₁) :
    sendrec k p function srcDest m = .ok (restart k₁) := by
  rw [sendrec, h]
  rfl

theorem proc2pid_range (p : Slot) : 0 ≤ proc2pid p ∧ proc2pid p < nrTasks + nrProcs := by
  unfold proc2pid
  omega

theorem toInt_proc2pid (p : Slot) : (BitVec.ofInt 32 (proc2pid p)).toInt = proc2pid p := by
  have hpos := (proc2pid_range p).1
  have hlt : proc2pid p < 37 := (proc2pid_range p).2
  rw [BitVec.toInt_ofInt, Int.bmod_eq_of_le (by omega) (by omega)]

/-- A process that does not send ends the walk of the deadlock check at once. -/
theorem deadlock_of_not_sending {src dest : Slot}
    (h : (k.procTable dest).pFlags &&& sending = 0) : deadlock k src dest = .ok false := by
  rw [deadlock, show nrTasks + nrProcs = 36 + 1 from rfl, deadlockLoop, if_neg (by simpa using h)]

theorem physCopy_eq {d s : Slot} {a b dst src : Addr} (hd : va2la k d a = .ok dst)
    (hs : va2la k s b = .ok src) : physCopy k d a s b = .ok (copy k s d dst src) := by
  simp only [physCopy, hd, hs, ok_bind]
  rfl

theorem deliver_eq {s d : Slot} {m dst src : Addr} (hs : Idle (k.procTable s))
    (hf : (k.procTable d).pFlags = receiving) (hmsg : (k.procTable d).pMsg ≠ 0)
    (hto : (k.procTable d).pSendto = noTask) (hds : d ≠ s) (hm : m ≠ 0)
    (hsrc : va2la k s m = .ok src) (hdst : va2la k d (k.procTable d).pMsg = .ok dst) :
    deliver k s d m = .ok (handOff k s d dst src) := by
  have hself : (handOff k s d dst src).procTable s = k.procTable s := by
    rw [handOff_procTable]
    simp only [if_neg hds.symm]
  have hother : Idle ((handOff k s d dst src).procTable d) := by
    rw [handOff_procTable]
    have hz : receiving &&& ~~~receiving = 0 := by decide
    simp only [if_pos, hf]
    exact ⟨hz, rfl, rfl, hto⟩
  unfold deliver unblock
  rw [assert_of hmsg, ok_bind, assert_of hm, ok_bind, physCopy_eq hdst hsrc, ok_bind]
  change (do
    assert (((handOff k s d dst src).procTable d).pFlags = 0)
    assert (((handOff k s d dst src).procTable d).pFlags = 0)
    assert (((handOff k s d dst src).procTable d).pMsg = 0)
    assert (((handOff k s d dst src).procTable d).pRecvfrom = noTask)
    assert (((handOff k s d dst src).procTable d).pSendto = noTask)
    assert (((handOff k s d dst src).procTable s).pFlags = 0)
    assert (((handOff k s d dst src).procTable s).pMsg = 0)
    assert (((handOff k s d dst src).procTable s).pRecvfrom = noTask)
    assert (((handOff k s d dst src).procTable s).pSendto = noTask)
    Except.ok (handOff k s d dst src)) = _
  rw [hself, assert_of hother.pFlags, ok_bind, ok_bind, assert_of hother.pMsg, ok_bind,
    assert_of hother.pRecvfrom, ok_bind, assert_of hother.pSendto, ok_bind, assert_of hs.pFlags,
    ok_bind, assert_of hs.pMsg, ok_bind, assert_of hs.pRecvfrom, ok_bind, assert_of hs.pSendto,
    ok_bind]

/-- A message that is awaited is handed over. -/
theorem msgSend_eq {s d : Slot} {m dst src : Addr} (hs : Idle (k.procTable s))
    (hd : Awaiting (k.procTable d) (proc2pid s) ∨ Awaiting (k.procTable d) any) (hds : d ≠ s)
    (hm : m ≠ 0) (hsrc : va2la k s m = .ok src)
    (hdst : va2la k d (k.procTable d).pMsg = .ok dst) :
    msgSend k s (proc2pid d) m =
      .ok (handOff (k.note (.call s d (Message.load k.mem src))) s d dst src) := by
  have hf : (k.procTable d).pFlags = receiving := hd.elim (·.pFlags) (·.pFlags)
  have hmsg : (k.procTable d).pMsg ≠ 0 := hd.elim (·.pMsg) (·.pMsg)
  have hto : (k.procTable d).pSendto = noTask := hd.elim (·.pSendto) (·.pSendto)
  have hns : (k.procTable d).pFlags &&& sending = 0 := by
    rw [hf]
    decide
  have hrec : (k.procTable d).pFlags &&& receiving ≠ 0 := by
    rw [hf]
    decide
  have hne : proc2pid s ≠ proc2pid d := fun he => hds (Fin.ext (by unfold proc2pid at he; omega))
  simp only [msgSend, procAt_proc2pid, ok_bind, assert_of hne, ← va2la_eq hsrc]
  rw [deadlock_of_not_sending (k := k.note _) hns, ok_bind, if_neg Bool.false_ne_true]
  refine (if_pos ⟨hrec, hd.imp (·.pRecvfrom) (·.pRecvfrom)⟩).trans ?_
  exact deliver_eq (k := k.note _) hs hf hmsg hto hds hm hsrc hdst

/-- A receiver that finds nothing blocks. -/
theorem msgReceive_eq {p : Slot} {src : Int} {m : Addr} (hp : Idle (k.procTable p))
    (hint : (k.procTable p).hasIntMsg = false) (hsrc : proc2pid p ≠ src) (hto : src ≠ noTask)
    (hm : m ≠ 0) (hc : chooseSender k p src = .ok none) :
    msgReceive k p src m = .ok (waitFor k p src m) := by
  have hflags : (k.procTable p).pFlags ||| receiving = receiving := by
    rw [hp.pFlags]
    decide
  unfold msgReceive
  rw [assert_of hsrc, ok_bind, if_neg (by simp [hint]), hc, ok_bind]
  simp only [blockReceiving, block, Kernel.set_set, Kernel.set_procTable, if_pos, hflags]
  rw [assert_of (by decide), ok_bind, assert_of hm, ok_bind, assert_of hto, ok_bind,
    assert_of hp.pSendto, ok_bind, assert_of hint, ok_bind]
  rfl

theorem chooseSender_any {p : Slot} (hq : (k.procTable p).qSending = none) :
    chooseSender k p any = .ok none := by
  simp [chooseSender, hq]

theorem chooseSender_of_not_sendsTo {p s : Slot} (hs : ¬ SendsTo k s p) :
    chooseSender k p (proc2pid s) = .ok none := by
  unfold chooseSender
  have hany : proc2pid s ≠ any := by
    have hs : s.val < 37 := s.isLt
    unfold proc2pid any
    omega
  rw [if_neg hany, if_pos (proc2pid_range s), procAt_proc2pid, ok_bind]
  exact if_neg hs

/-- A trap that hands a message over, as the table and the log show it. -/
theorem sendrec_send {s d : Slot} {m : Addr} (hk : k.kReenter = -1) (hb : NativeBase k)
    (hs : Idle (k.procTable s))
    (hd : Awaiting (k.procTable d) (proc2pid s) ∨ Awaiting (k.procTable d) any) (hds : d ≠ s)
    (hm : m ≠ 0) : ∃ k' m', sendrec k s .send (proc2pid d) m = .ok k' ∧ k'.kReenter = -1 ∧
      (∀ q, k'.procTable q = if q = d then woken (k.procTable d) else k.procTable q) ∧
      k'.log = .copied s d m' :: .call s d { Message.load k.mem
        (((k.procTable s).ldts 1).linear + m) with source := BitVec.ofInt 32 (proc2pid s) } ::
          k.log := by
  have hla := hb.va2la s m
  have hdst := hb.va2la d (k.procTable d).pMsg
  have hk0 : (save k).kReenter = 0 := by rw [save_kReenter, hk]; rfl
  have hsend := msgSend_eq (k := stamp (save k) s (((k.procTable s).ldts 1).linear + m)) hs hd hds
    hm hla hdst
  have hload : Message.load (stamp (save k) s (((k.procTable s).ldts 1).linear + m)).mem
      (((k.procTable s).ldts 1).linear + m) = { Message.load k.mem
        (((k.procTable s).ldts 1).linear + m) with source := BitVec.ofInt 32 (proc2pid s) } :=
    Message.load_setSource _ _ _
  rw [hload] at hsend
  have hsys := sysSendrec_eq .send hk0 (.inl (proc2pid_range d)) hla
    (ofInt_proc2pid_ne hds.symm)
  have hback : k.kReenter + 1 - 1 = -1 := by omega
  refine ⟨_, _, sendrec_of_sysSendrec (hsys.trans hsend), hback, fun q => ?_, rfl⟩
  rw [restart_procTable, handOff_procTable]
  split_ifs with hq
  · rw [hq]
    rfl
  · rfl

/-- A trap that blocks for a message. -/
theorem sendrec_receive {p : Slot} {src : Int} {m : Addr} (hk : k.kReenter = -1)
    (hb : NativeBase k) (hp : Idle (k.procTable p)) (hint : (k.procTable p).hasIntMsg = false)
    (hm : m ≠ 0) (hsrc : src = any ∧ (k.procTable p).qSending = none ∨
      ∃ s, src = proc2pid s ∧ s ≠ p ∧ ¬ SendsTo k s p) :
    ∃ k', sendrec k p .receive src m = .ok k' ∧ k'.kReenter = -1 ∧
      (∀ q, k'.procTable q = if q = p then
        { k.procTable p with pFlags := receiving, pMsg := m, pRecvfrom := src }
          else k.procTable q) ∧ k'.log = k.log := by
  have hla := hb.va2la p m
  have hk0 : (save k).kReenter = 0 := by rw [save_kReenter, hk]; rfl
  have hpid : p.val < 37 := p.isLt
  have hne : proc2pid p ≠ src ∧ src ≠ noTask ∧
      BitVec.ofInt 32 (proc2pid p) ≠ BitVec.ofInt 32 src ∧
      ((0 ≤ src ∧ src < nrTasks + nrProcs) ∨ src = any ∨ src = interrupt) := by
    rcases hsrc with ⟨rfl, -⟩ | ⟨s, rfl, hsp, -⟩
    · refine ⟨?_, by decide, ofInt_proc2pid_ne_any p, .inr (.inl rfl)⟩
      unfold proc2pid any
      omega
    · have hs : s.val < 37 := s.isLt
      refine ⟨fun he => hsp (Fin.ext ?_), ?_, ofInt_proc2pid_ne hsp.symm, .inl (proc2pid_range s)⟩
      · unfold proc2pid at he
        omega
      · unfold proc2pid noTask
        omega
  obtain ⟨hne, hto, hsource, hrange⟩ := hne
  have hc : chooseSender (stamp (save k) p (((k.procTable p).ldts 1).linear + m)) p src =
      .ok none := by
    rcases hsrc with ⟨rfl, hq⟩ | ⟨s, rfl, -, hs⟩
    · exact chooseSender_any hq
    · exact chooseSender_of_not_sendsTo hs
  have hrec := msgReceive_eq (k := stamp (save k) p (((k.procTable p).ldts 1).linear + m)) hp hint
    hne hto hm hc
  have hsys := sysSendrec_eq .receive hk0 hrange hla hsource
  have hback : k.kReenter + 1 - 1 = -1 := by omega
  refine ⟨_, sendrec_of_sysSendrec (hsys.trans hrec), hback, fun q => ?_, rfl⟩
  rw [restart_procTable]
  exact Kernel.set_procTable _ _ _ _

end MyOS
