import MyOS.ForkSteps
import MyOS.Proofs.ForkQueue

/-!
# A child that is half built

Between the copy of its parent's entry and the second of its descriptors a child has an entry that
is in use and its parent's segments. It does not run in that time where the parent was blocked when
the copy was made; and a parent that has made the first of its two traps is not.
-/

namespace MyOS

open Memory

variable {mm : MmEnv} {k k' : Kernel} {s s' : Forking} {p q x : Slot}

/-! ## Processes that a step leaves alone -/

/-- Nothing but a trap of its own or a message of `q` changes the flags of `x`. -/
def Still (k : Kernel) (q x : Slot) : Prop :=
  (k.procTable x).pFlags = 0 ∨ (k.procTable x).pFlags = freeSlot ∨
    (k.procTable x).pFlags = receiving ∧ (k.procTable x).pRecvfrom = proc2pid q

theorem Still.not_sending (h : Still k q x) : (k.procTable x).pFlags ≠ sending := by
  rcases h with h | h | ⟨h, -⟩ <;> rw [h] <;> decide

theorem Still.recvfrom (h : Still k q x) (hrecv : (k.procTable x).pFlags &&& receiving ≠ 0) :
    (k.procTable x).pRecvfrom = proc2pid q := by
  rcases h with h | h | ⟨-, h⟩
  · rw [h] at hrecv
    exact absurd (by decide) hrecv
  · rw [h] at hrecv
    exact absurd (by decide) hrecv
  · exact h

theorem Still.not_awaits (h : Still k q x) (hpq : p ≠ q) : ¬ Awaits k x p := by
  rintro ⟨hrecv, hfrom⟩
  rw [h.recvfrom hrecv] at hfrom
  rcases hfrom with hfrom | hfrom
  · exact hpq (proc2pid_inj hfrom).symm
  · exact proc2pid_ne_any q hfrom

theorem Still.not_awaitsInt (h : Still k q x) : ¬ AwaitsInt k x := by
  rintro ⟨hrecv, hfrom⟩
  rw [h.recvfrom hrecv] at hfrom
  rcases hfrom with hfrom | hfrom
  · exact proc2pid_ne_interrupt q hfrom
  · exact proc2pid_ne_any q hfrom

/-- What a step keeps of a process: its flags, whom it waits for and whom it sends to. -/
structure Keeps (k k' : Kernel) (x : Slot) : Prop where
  flags : (k'.procTable x).pFlags = (k.procTable x).pFlags
  recvfrom : (k'.procTable x).pRecvfrom = (k.procTable x).pRecvfrom
  sendto : (k'.procTable x).pSendto = (k.procTable x).pSendto

theorem Keeps.of_eq (h : k'.procTable x = k.procTable x) : Keeps k k' x := by
  constructor <;> rw [h]

/-- A trap of a process that `x` does not wait for. -/
theorem Still.sendrec {function : Function} {srcDest : Int} {m : Addr} (h : Still k q x)
    (hpq : p ≠ q) (hpx : p ≠ x) (hs : MyOS.sendrec k p function srcDest m = .ok k') :
    Keeps k k' x := by
  obtain ⟨src, k₁, -, ho, rfl⟩ := sendrec_ok hs
  cases ho with
  | send d k₁ hne hdead ho =>
    cases ho with
    | handOff dst ha =>
      have hxd : x ≠ d := by
        rintro rfl
        exact h.not_awaits hpq ha
      refine .of_eq ?_
      simp [handOff_procTable, hxd]
    | queueUp last =>
      constructor <;> simp [queueUp_procTable, hpx.symm]
  | receive srcDest k₁ ho =>
    cases ho with
    | takeInterrupt =>
      refine .of_eq ?_
      simp [takeInterrupt, hpx.symm]
    | takeFrom r prev a hint hsel hany hflags =>
      have hxr : x ≠ r := by
        rintro rfl
        exact h.not_sending hflags
      constructor <;> simp [takeFrom_procTable, hxr]
    | waitFor =>
      refine .of_eq ?_
      simp [waitFor, hpx.symm]

theorem Still.informInt {t : Slot} (h : Still k q x) (hs : MyOS.informInt k t = .ok k') :
    Keeps k k' x := by
  have ho := informInt_ok hs
  cases ho with
  | wake ha =>
    have hxt : x ≠ t := by
      rintro rfl
      exact h.not_awaitsInt ha
    refine .of_eq ?_
    simp [wake, hxt]
  | pend =>
    rcases eq_or_ne x t with rfl | hxt
    · constructor <;> simp [pend]
    · refine .of_eq ?_
      simp [pend, hxt]

/-! ## The message the memory manager got last -/

/-- While it does not wait for them, a trap of another process gives the memory manager nothing. -/
theorem Still.gotLast {function : Function} {srcDest : Int} {m : Addr} (h : Still k q taskMm)
    (hpq : p ≠ q) (hp : p ≠ taskMm) (hs : MyOS.sendrec k p function srcDest m = .ok k') :
    MyOS.gotLast k'.log = MyOS.gotLast k.log := by
  obtain ⟨src, k₁, -, ho, rfl⟩ := sendrec_ok hs
  cases ho with
  | send d k₁ hne hdead ho =>
    cases ho with
    | handOff dst ha =>
      have hd : d ≠ taskMm := by
        rintro rfl
        exact h.not_awaits hpq ha
      simp [handOff, copy, MyOS.gotLast, hd]
    | queueUp last => cases last <;> simp [queueUp, MyOS.gotLast]
  | receive srcDest k₁ ho =>
    cases ho with
    | takeInterrupt => simp [takeInterrupt, MyOS.gotLast, hp]
    | takeFrom r prev => cases prev <;> simp [takeFrom, copy, unlinkFrom, MyOS.gotLast, hp]
    | waitFor => simp [waitFor]

theorem Still.gotLast_informInt {t : Slot} (h : Still k q taskMm)
    (hs : MyOS.informInt k t = .ok k') : MyOS.gotLast k'.log = MyOS.gotLast k.log := by
  have ho := informInt_ok hs
  cases ho with
  | wake ha =>
    have ht : t ≠ taskMm := by
      rintro rfl
      exact h.not_awaitsInt ha
    simp [wake, MyOS.gotLast, ht]
  | pend => simp [pend, MyOS.gotLast]

/-! ## Whom processes send to -/

theorem chooseSender_sendto {src : Int} {c : Slot × Option Slot}
    (h : chooseSender k p src = .ok (some c)) : (k.procTable p).pSendto = noTask := by
  have hassert {r : Slot} (h : assertRendezvous k p r = .ok ()) :
      (k.procTable p).pSendto = noTask := by
    simp only [assertRendezvous, assert_bind_eq_ok] at h
    exact h.2.2.2.1
  cases chooseSender_chooses h with
  | head _ _ _ hr => exact hassert hr
  | found _ _ _ _ _ _ hr => exact hassert hr

/-- Who receives is sending to nobody. -/
theorem msgReceive_sendto {src : Int} {m : Addr} (h : msgReceive k p src m = .ok k') :
    (k.procTable p).pSendto = noTask := by
  rw [msgReceive, assert_bind_eq_ok] at h
  obtain ⟨-, h⟩ := h
  split_ifs at h
  · rw [receiveInterrupt, assert_bind_eq_ok] at h
    obtain ⟨dst, -, h⟩ := bind_eq_ok.1 h.2
    simp only [assert_bind_eq_ok] at h
    simpa using h.2.2.1
  · obtain ⟨c, hc, h⟩ := bind_eq_ok.1 h
    rcases c with _ | c
    · exact (blockReceiving_ok h).2.2.2.1
    · exact chooseSender_sendto hc

theorem sendrec_receive_sendto {srcDest : Int} {m : Addr}
    (h : sendrec k p .receive srcDest m = .ok k') : (k.procTable p).pSendto = noTask := by
  obtain ⟨k₁, hs, -⟩ := bind_eq_ok.1 h
  rw [sysSendrec, assert_bind_eq_ok, assert_bind_eq_ok] at hs
  obtain ⟨-, -, hs⟩ := hs
  obtain ⟨src, -, hs⟩ := bind_eq_ok.1 hs
  rw [assert_bind_eq_ok] at hs
  have hto := msgReceive_sendto (k := stamp (save k) p src) hs.2
  exact hto

/-- Who sends to the memory manager after a trap did so before, or made it. -/
theorem sendrec_sendto {function : Function} {srcDest : Int} {m : Addr}
    (hs : sendrec k p function srcDest m = .ok k')
    (hx : (k'.procTable x).pSendto = proc2pid taskMm) :
    (k.procTable x).pSendto = proc2pid taskMm ∨
      x = p ∧ function = .send ∧ srcDest = proc2pid taskMm := by
  obtain ⟨src, k₁, -, ho, rfl⟩ := sendrec_ok hs
  cases ho with
  | send d k₁ hne hdead ho =>
    cases ho with
    | handOff dst => exact .inl (by simpa [handOff_procTable] using hx)
    | queueUp last =>
      rcases eq_or_ne x p with rfl | hxp
      · exact .inr ⟨rfl, rfl, by simpa [queueUp_procTable] using hx⟩
      · exact .inl (by simpa [queueUp_procTable, hxp] using hx)
  | receive srcDest k₁ ho =>
    cases ho with
    | takeInterrupt =>
      rcases eq_or_ne x p with rfl | hxp <;> exact .inl (by simpa [takeInterrupt, *] using hx)
    | takeFrom r =>
      rcases eq_or_ne x r with rfl | hxr
      · rw [restart_procTable, takeFrom_procTable] at hx
        simp only [if_true] at hx
        exact absurd hx.symm (proc2pid_ne_noTask taskMm)
      · exact .inl (by simpa [takeFrom_procTable, hxr] using hx)
    | waitFor =>
      rcases eq_or_ne x p with rfl | hxp <;> exact .inl (by simpa [waitFor, *] using hx)

theorem informInt_sendto {t : Slot} (hs : informInt k t = .ok k') (x : Slot) :
    (k'.procTable x).pSendto = (k.procTable x).pSendto := by
  have ho := informInt_ok hs
  cases ho with
  | wake => rcases eq_or_ne x t with rfl | hx <;> simp [wake, *]
  | pend => rcases eq_or_ne x t with rfl | hx <;> simp [pend, *]

/-! ## The invariant -/

/-- Blocked in the second trap of a `send_recv(BOTH, TASK_MM, ..)`. -/
def AwaitsMm (k : Kernel) (x : Slot) : Prop :=
  (k.procTable x).pFlags = receiving ∧ (k.procTable x).pRecvfrom = proc2pid taskMm

/-- Between the two traps, or blocked in the second one. -/
def Asking (k : Kernel) (between : Slot → Option Addr) (x : Slot) : Prop :=
  (k.procTable x).pFlags = 0 ∧ between x ≠ none ∨ AwaitsMm k x

/-- The child is at the base of the memory it was given. -/
def Given (mm : MmEnv) (c : Slot) (base : BitVec 32) : Prop :=
  ∃ size, allocMem mm c size = .ok base

/-- What holds at each place of the memory manager. -/
def AtPlace (mm : MmEnv) (k : Kernel) (between : Slot → Option Addr) : MmPlace → Prop
  | .top => (k.procTable taskMm).pFlags = 0 ∧
      (∀ pid, forkCaller k = some pid → Asking k between pid) ∨
    (k.procTable taskMm).pFlags = receiving ∧ (k.procTable taskMm).pRecvfrom = any
  | .found pid c => (k.procTable taskMm).pFlags = 0 ∧ Asking k between pid ∧
    (k.procTable c).pFlags = freeSlot ∧ nrTasks + nrNativeProcs ≤ c.val ∧ pid ≠ taskFs
  | .copied _ c | .named _ c => (k.procTable taskMm).pFlags = 0 ∧ AwaitsMm k c
  | .moved _ c base => (k.procTable taskMm).pFlags = 0 ∧ AwaitsMm k c ∧ Given mm c base
  | .text _ c base => (k.procTable taskMm).pFlags = 0 ∧ AwaitsMm k c ∧ Given mm c base ∧
    ((k.procTable c).ldts 0).linear = base
  | .built _ c base => Given mm c base ∧ ((k.procTable c).ldts 0).linear = base ∧
    ((k.procTable c).ldts 1).linear = base
  | _ => True

structure ForkInv (mm : MmEnv) (s : Forking) : Prop where
  /-- Who is queued up for the memory manager has made the first of its two traps. -/
  between : ∀ x, x ≠ taskFs → x ≠ taskMm →
    (s.kernel.procTable x).pSendto = proc2pid taskMm → s.between x ≠ none
  place : AtPlace mm s.kernel s.between s.place

theorem AwaitsMm.still (h : AwaitsMm k x) : Still k taskMm x := .inr (.inr h)

theorem AwaitsMm.flags_ne (h : AwaitsMm k x) : (k.procTable x).pFlags ≠ 0 := by
  rw [h.1]
  decide

theorem AwaitsMm.of_keeps (h : AwaitsMm k x) (hk : Keeps k k' x) : AwaitsMm k' x :=
  ⟨hk.flags.trans h.1, hk.recvfrom.trans h.2⟩

theorem Asking.still {between : Slot → Option Addr} (h : Asking k between x) :
    Still k taskMm x := by
  rcases h with ⟨h, -⟩ | h
  · exact .inl h
  · exact h.still

theorem Asking.of_keeps {between between' : Slot → Option Addr} (h : Asking k between x)
    (hk : Keeps k k' x) (hb : between' x = between x) : Asking k' between' x := by
  rcases h with ⟨hf, hx⟩ | h
  · exact .inl ⟨hk.flags.trans hf, hb ▸ hx⟩
  · exact .inr (h.of_keeps hk)

/-! ## Steps of the others -/

/-- The step is not a trap of `x`. -/
def NotBy (a : Act) (x : Slot) : Prop :=
  ∀ p function srcDest m, a = .sendrec p function srcDest m → p ≠ x

theorem Still.step {a : Act} (h : Still k q x) (hq : NotBy a q) (hx : NotBy a x)
    (hs : Step k a k') : Keeps k k' x := by
  rcases step_cases hs with ⟨p, function, srcDest, m, rfl, -, hs⟩ | ⟨t, -, hs⟩ | ⟨mem, -, rfl⟩
  · exact h.sendrec (hq _ _ _ _ rfl) (hx _ _ _ _ rfl) hs
  · exact h.informInt hs
  · exact .of_eq rfl

theorem Still.gotLast_step {a : Act} (h : Still k taskMm taskMm) (ha : NotBy a taskMm)
    (hs : Step k a k') : MyOS.gotLast k'.log = MyOS.gotLast k.log := by
  rcases step_cases hs with ⟨p, function, srcDest, m, rfl, -, hs⟩ | ⟨t, -, hs⟩ | ⟨mem, -, rfl⟩
  · exact h.gotLast (ha _ _ _ _ rfl) (ha _ _ _ _ rfl) hs
  · exact h.gotLast_informInt hs
  · rfl

/-- Who traps runs. -/
theorem notBy_of_flags {a : Act} (hs : Step k a k') (hx : (k.procTable x).pFlags ≠ 0) :
    NotBy a x := by
  rintro p function srcDest m rfl rfl
  rcases step_cases hs with ⟨p', _, _, _, he, hp, -⟩ | ⟨t, he, -⟩ | ⟨mem, he, -⟩
  · obtain ⟨rfl, -⟩ := Act.sendrec.inj he
    exact hx hp
  · exact Act.noConfusion he
  · exact Act.noConfusion he

theorem AwaitsMm.step {a : Act} (h : AwaitsMm k x) (ha : NotBy a taskMm) (hs : Step k a k') :
    AwaitsMm k' x :=
  h.of_keeps (h.still.step ha (notBy_of_flags hs h.flags_ne) hs)

/-- A process in the second trap of its pair, while the memory manager runs. -/
theorem awaitsMm_of_receive {m : Addr} (hmm : (k.procTable taskMm).pFlags = 0)
    (hs : sendrec k p .receive (proc2pid taskMm) m = .ok k') : AwaitsMm k' p := by
  obtain ⟨src, k₁, -, ho, rfl⟩ := sendrec_ok hs
  cases ho with
  | receive _ k₁ ho =>
    cases ho with
    | takeInterrupt hint hsrc =>
      rcases hsrc with hsrc | hsrc
      · exact absurd hsrc (proc2pid_ne_any taskMm)
      · exact absurd hsrc (proc2pid_ne_interrupt taskMm)
    | takeFrom r prev a hint hsel hany hflags =>
      rcases hsel with hsel | hsel
      · exact absurd hsel (proc2pid_ne_any taskMm)
      · obtain rfl := proc2pid_inj hsel
        exact absurd (hflags.symm.trans hmm) (by decide)
    | waitFor => exact ⟨by simp [waitFor], by simp [waitFor]⟩

/-- What a step of another process means for the pairs of traps. -/
inductive PairStep (s : Forking) (between : Slot → Option Addr) : Act → Prop
  | ask (p : Slot) (m : Addr) : p ≠ taskMm → s.between p = none →
    between = Function.update s.between p (some m) →
      PairStep s between (.sendrec p .send (proc2pid taskMm) m)
  | trap (p : Slot) (function : Function) (srcDest : Int) (m : Addr) : p ≠ taskMm →
    MayTrap s p function srcDest m → between = Function.update s.between p none →
      PairStep s between (.sendrec p function srcDest m)
  | informInt (t : Slot) : between = s.between → PairStep s between (.informInt t)
  | user (mem : Mem) : between = s.between → PairStep s between (.user mem)

variable {between : Slot → Option Addr} {a : Act}

theorem PairStep.notBy (h : PairStep s between a) : NotBy a taskMm := by
  rintro p function srcDest m rfl
  cases h with
  | ask _ _ hp => exact hp
  | trap _ _ _ _ hp => exact hp

theorem PairStep.between_of_notBy (h : PairStep s between a) (hx : NotBy a x) :
    between x = s.between x := by
  cases h with
  | ask p m _ _ hb => rw [hb, Function.update_of_ne (hx _ _ _ _ rfl).symm]
  | trap p function srcDest m _ _ hb => rw [hb, Function.update_of_ne (hx _ _ _ _ rfl).symm]
  | informInt t hb => rw [hb]
  | user mem hb => rw [hb]

/-- While the memory manager runs, who asks it for something goes on asking. -/
theorem Asking.step (h : Asking s.kernel s.between x)
    (hmm : (s.kernel.procTable taskMm).pFlags = 0) (hp : PairStep s between a)
    (hs : Step s.kernel a k') : Asking k' between x := by
  by_cases hx : NotBy a x
  · exact h.of_keeps (h.still.step hp.notBy hx hs) (hp.between_of_notBy hx)
  · have hflags : (s.kernel.procTable x).pFlags = 0 := by
      by_contra hne
      exact hx (notBy_of_flags hs hne)
    have hbetween : s.between x ≠ none := by
      rcases h with ⟨-, hb⟩ | h
      · exact hb
      · exact absurd hflags h.flags_ne
    simp only [NotBy, not_forall, not_not] at hx
    obtain ⟨p, function, srcDest, m, rfl, rfl⟩ := hx
    cases hp with
    | ask _ _ _ hb => exact absurd hb hbetween
    | trap _ _ _ _ _ hmay =>
      obtain ⟨m', hm'⟩ := Option.ne_none_iff_exists'.1 hbetween
      rw [MayTrap, hm'] at hmay
      obtain ⟨rfl, rfl, -⟩ := hmay
      rcases step_cases hs with ⟨p', _, _, _, he, -, hs⟩ | ⟨t, he, -⟩ | ⟨mem, he, -⟩
      · obtain ⟨rfl, rfl, rfl, rfl⟩ := Act.sendrec.inj he
        exact .inr (awaitsMm_of_receive hmm hs)
      · exact Act.noConfusion he
      · exact Act.noConfusion he

theorem forkCaller_congr (h : gotLast k'.log = gotLast k.log) :
    forkCaller k' = forkCaller k := by
  unfold forkCaller
  rw [h]

/-- The process a fork is made for sent the last message. -/
theorem forkCaller_some {pid : Slot} (h : forkCaller k = some pid) :
    pid ≠ taskFs ∧ ∃ m, gotLast k.log = some (pid, m) := by
  unfold forkCaller at h
  split at h
  · rename_i r m hlast
    split_ifs at h with hm
    obtain rfl := Option.some.inj h
    exact ⟨hm.2, m, hlast⟩
  · exact nomatch h

/-- The message the memory manager waits for may come, from a process that asks. -/
theorem atPlace_top_step (hp : PairStep s between a) (hs : Step s.kernel a k')
    (h : AtPlace mm s.kernel s.between .top) : AtPlace mm k' between .top := by
  rcases h with ⟨hmm, hcaller⟩ | ⟨hmm, hfrom⟩
  · have hstill : Still s.kernel taskMm taskMm := .inl hmm
    refine .inl ⟨(hstill.step hp.notBy hp.notBy hs).flags.trans hmm, fun pid hpid => ?_⟩
    rw [forkCaller_congr (hstill.gotLast_step hp.notBy hs)] at hpid
    exact (hcaller pid hpid).step hmm hp hs
  · rcases step_cases hs with ⟨p, function, srcDest, m, rfl, hrun, hs⟩ | ⟨t, rfl, hi⟩ |
      ⟨mem, rfl, rfl⟩
    · have hpmm : taskMm ≠ p := (hp.notBy _ _ _ _ rfl).symm
      obtain ⟨src, k₁, -, ho, rfl⟩ := sendrec_ok hs
      cases ho with
      | send d k₁ hne hdead ho =>
        cases ho with
        | handOff dst ha hdst hmsg hflags =>
          by_cases hd : d = taskMm
          · -- the message is there
            subst hd
            refine .inl ⟨by simpa [handOff_procTable] using hflags, fun pid hpid => ?_⟩
            obtain ⟨hfs, m', hlast⟩ := forkCaller_some hpid
            have hpid : pid = p := by
              simp only [restart_log, handOff, copy, Kernel.set_log, gotLast, if_true,
                Option.some.injEq, Prod.mk.injEq] at hlast
              exact hlast.1.symm
            subst hpid
            refine .inl ⟨?_, ?_⟩
            · simpa [handOff_procTable, hpmm.symm] using hrun
            · cases hp with
              | ask _ _ _ _ hb => simp [hb]
              | trap _ _ _ _ _ hmay =>
                unfold MayTrap at hmay
                split at hmay
                · cases hmay.1
                · exact absurd (hmay rfl rfl) hfs
          · refine .inr ?_
            simp [handOff_procTable, Ne.symm hd, hmm, hfrom]
        | queueUp last =>
          refine .inr ?_
          simp [queueUp_procTable, hpmm, hmm, hfrom]
      | receive srcDest k₁ ho =>
        refine .inr ?_
        cases ho with
        | takeInterrupt => simp [takeInterrupt, hpmm, hmm, hfrom]
        | takeFrom r prev a' hint hsel hany hflags =>
          have hr : taskMm ≠ r := by
            rintro rfl
            exact absurd (hmm.symm.trans hflags) (by decide)
          simp [takeFrom_procTable, hr, hmm, hfrom]
        | waitFor => simp [waitFor, hpmm, hmm, hfrom]
    · have ho := informInt_ok hi
      cases ho with
      | wake ha hflags =>
        by_cases ht : t = taskMm
        · subst ht
          refine .inl ⟨by simpa [wake] using hflags, fun pid hpid => ?_⟩
          obtain ⟨-, m', hlast⟩ := forkCaller_some hpid
          simp [wake, gotLast] at hlast
        · refine .inr ?_
          simp [wake, Ne.symm ht, hmm, hfrom]
      | pend =>
        refine .inr ?_
        by_cases ht : t = taskMm
        · subst ht
          simp [pend, hmm, hfrom]
        · simp [pend, Ne.symm ht, hmm, hfrom]
    · exact .inr ⟨hmm, hfrom⟩

/-- A step of another process or an interrupt keeps what holds at the place of the memory
manager. -/
theorem atPlace_step (hp : PairStep s between a) (hs : Step s.kernel a k') {place : MmPlace}
    (h : AtPlace mm s.kernel s.between place) : AtPlace mm k' between place := by
  have hrun (hmm : (s.kernel.procTable taskMm).pFlags = 0) :
      (k'.procTable taskMm).pFlags = 0 :=
    (Still.step (q := taskMm) (.inl hmm) hp.notBy hp.notBy hs).flags.trans hmm
  cases place with
  | top => exact atPlace_top_step hp hs h
  | found pid c =>
    obtain ⟨hmm, hask, hfree, hc, hfs⟩ := h
    have hne : (s.kernel.procTable c).pFlags ≠ 0 := by
      rw [hfree]
      decide
    have hstill : Still s.kernel taskMm c := .inr (.inl hfree)
    exact ⟨hrun hmm, hask.step hmm hp hs,
      (hstill.step hp.notBy (notBy_of_flags hs hne) hs).flags.trans hfree, hc, hfs⟩
  | copied pid c => exact ⟨hrun h.1, h.2.step hp.notBy hs⟩
  | named pid c => exact ⟨hrun h.1, h.2.step hp.notBy hs⟩
  | moved pid c base => exact ⟨hrun h.1, h.2.1.step hp.notBy hs, h.2.2⟩
  | text pid c base =>
    obtain ⟨hmm, hchild, hgiven, htext⟩ := h
    have hldts := step_ldts hs c
    exact ⟨hrun hmm, hchild.step hp.notBy hs, hgiven, hldts ▸ htext⟩
  | built pid c base =>
    obtain ⟨hgiven, htext, hdata⟩ := h
    have hldts := step_ldts hs c
    exact ⟨hgiven, hldts ▸ htext, hldts ▸ hdata⟩
  | other => trivial
  | told => trivial
  | heard => trivial
  | replying => trivial

/-- Another process, an interrupt or a write to memory. -/
theorem ForkInv.others (h : ForkInv mm s) (hp : PairStep s between a)
    (hs : Step s.kernel a k') : ForkInv mm { s with kernel := k', between } := by
  refine ⟨fun x hfs hmm hx => ?_, atPlace_step hp hs h.place⟩
  dsimp only at hx ⊢
  rcases step_cases hs with ⟨p, function, srcDest, m, rfl, -, hs⟩ | ⟨t, rfl, hi⟩ | ⟨mem, rfl, rfl⟩
  · by_cases hxp : x = p
    · subst hxp
      cases hp with
      | ask _ _ _ _ hb => simp [hb]
      | trap _ _ _ _ _ hmay hb =>
        rcases sendrec_sendto hs hx with hold | ⟨-, rfl, rfl⟩
        · -- it was queued up before, so that it was between its traps and has made the second
          have hbetween := h.between x hfs hmm hold
          obtain ⟨m', hm'⟩ := Option.ne_none_iff_exists'.1 hbetween
          rw [MayTrap, hm'] at hmay
          obtain ⟨rfl, -, -⟩ := hmay
          rw [sendrec_receive_sendto hs] at hold
          exact absurd hold.symm (proc2pid_ne_noTask taskMm)
        · unfold MayTrap at hmay
          split at hmay
          · cases hmay.1
          · exact absurd (hmay rfl rfl) hfs
    · have hnot : NotBy (.sendrec p function srcDest m) x := by
        rintro _ _ _ _ he rfl
        exact hxp (Act.sendrec.inj he).1.symm
      rw [hp.between_of_notBy hnot]
      refine h.between x hfs hmm ?_
      rcases sendrec_sendto hs hx with hold | ⟨he, -, -⟩
      · exact hold
      · exact absurd he hxp
  · cases hp with
    | informInt _ hb =>
      rw [informInt_sendto hi] at hx
      exact hb ▸ h.between x hfs hmm hx
  · cases hp with
    | user _ hb => exact hb ▸ h.between x hfs hmm hx

/-! ## Steps of the memory manager -/

/-- The memory manager has trapped for its next message. -/
theorem atPlace_top_of_receive {m : Addr} (h : ForkInv mm s)
    (hrun : (s.kernel.procTable taskMm).pFlags = 0)
    (hs : sendrec s.kernel taskMm .receive any m = .ok k') : AtPlace mm k' s.between .top := by
  obtain ⟨src, k₁, -, ho, rfl⟩ := sendrec_ok hs
  cases ho with
  | receive _ k₁ ho =>
    cases ho with
    | takeInterrupt =>
      refine .inl ⟨by simpa [takeInterrupt] using hrun, fun pid hpid => ?_⟩
      obtain ⟨-, m', hlast⟩ := forkCaller_some hpid
      simp [takeInterrupt, gotLast] at hlast
    | takeFrom r prev a hint hsel hany hflags hto =>
      have hr : taskMm ≠ r := by
        rintro rfl
        exact absurd (hrun.symm.trans hflags) (by decide)
      refine .inl ⟨by simpa [takeFrom_procTable, hr] using hrun, fun pid hpid => ?_⟩
      obtain ⟨hfs, m', hlast⟩ := forkCaller_some hpid
      have hpid : pid = r := by
        simp only [restart_log, takeFrom, copy, Kernel.set_log, gotLast, if_true,
          Option.some.injEq, Prod.mk.injEq] at hlast
        exact hlast.1.symm
      subst hpid
      have hflags : (s.kernel.procTable pid).pFlags = sending := hflags
      refine .inl ⟨?_, h.between pid hfs hr.symm hto⟩
      rw [restart_procTable, takeFrom_procTable]
      simp only [if_true, stamp_procTable, save_procTable, hflags]
      decide
    | waitFor => exact .inr ⟨by simp [waitFor], by simp [waitFor]⟩

theorem ForkInv.mmTrap {function : Function} {srcDest : Int} {m : Addr} {place : MmPlace}
    (h : ForkInv mm s) (hp : MyOS.mmTrap mm function srcDest m s.place = some place)
    (hrun : (s.kernel.procTable taskMm).pFlags = 0)
    (hs : sendrec s.kernel taskMm function srcDest m = .ok k') :
    ForkInv mm { s with kernel := k', place } := by
  refine ⟨fun x hfs hmm hx => ?_, ?_⟩
  · rcases sendrec_sendto hs hx with hold | ⟨he, -, -⟩
    · exact h.between x hfs hmm hold
    · exact absurd he hmm
  · cases hplace : s.place with
    | other | top =>
      rw [hplace] at hp
      simp only [MyOS.mmTrap] at hp
      split_ifs at hp with hreceive
      · obtain ⟨rfl, rfl, rfl⟩ := hreceive
        obtain rfl := Option.some.inj hp
        exact atPlace_top_of_receive (s := s) h hrun hs
      · obtain rfl := Option.some.inj hp
        trivial
    | found | copied | named | moved | text =>
      rw [hplace] at hp
      exact nomatch hp
    | built | told | heard | replying =>
      rw [hplace] at hp
      simp only [MyOS.mmTrap] at hp
      split_ifs at hp
      obtain rfl := Option.some.inj hp
      trivial

/-- Of the table the other requests write nothing that has to do with sending. -/
theorem mmStep_sendto {a : MmAct} (hkernel : ∀ b, a ≠ .kernel b) (hfork : ∀ pid, a ≠ .fork pid)
    (hs : MmStep mm k a k') (x : Slot) :
    (k'.procTable x).pSendto = (k.procTable x).pSendto := by
  unfold MmStep mmStep at hs
  cases a with
  | kernel b => exact absurd rfl (hkernel b)
  | fork pid => exact absurd rfl (hfork pid)
  | exit pid status =>
    dsimp only at hs
    split_ifs at hs
    obtain ⟨⟨b, k₁⟩, he, rfl⟩ := Option.map_eq_some_iff.1 hs
    exact ((exitProc_ok (toOption_eq_some.1 he)).2 x).pSendto
  | adopt pid i =>
    dsimp only at hs
    split_ifs at hs
    obtain rfl := Option.some.inj hs
    by_cases horphan : HangingOrphan k pid i
    · rw [adopt_orphan horphan]
      simp only [Kernel.set_procTable]
      split_ifs with hi hq hq <;> simp [*]
    · rw [adopt_eq horphan]
      dsimp only
      split_ifs
      · rw [Kernel.set_procTable]
        split_ifs with hq <;> simp [*]
      · rfl
  | free p =>
    dsimp only at hs
    split_ifs at hs
    obtain rfl := Option.some.inj hs
    rw [freeProc, Kernel.set_procTable]
    split_ifs with hp <;> simp [*]
  | wait pid =>
    dsimp only at hs
    split_ifs at hs
    obtain rfl := Option.some.inj hs
    rw [waitProc, Kernel.set_procTable]
    split_ifs with hp <;> simp [*]

/-- A write to the child's entry that does not touch what messages see. -/
theorem ForkInv.setChild {c : Slot} {f : Proc → Proc} (h : ForkInv mm s)
    (hrun : (s.kernel.procTable taskMm).pFlags = 0) (hchild : AwaitsMm s.kernel c)
    (hf : ∀ y, (f y).pFlags = y.pFlags ∧ (f y).pRecvfrom = y.pRecvfrom ∧
      (f y).pSendto = y.pSendto) :
    (∀ x, x ≠ taskFs → x ≠ taskMm →
      ((s.kernel.set c f).procTable x).pSendto = proc2pid taskMm → s.between x ≠ none) ∧
    ((s.kernel.set c f).procTable taskMm).pFlags = 0 ∧ AwaitsMm (s.kernel.set c f) c := by
  have hself : (s.kernel.set c f).procTable c = f (s.kernel.procTable c) := by
    rw [Kernel.set_procTable, if_pos rfl]
  have hother {x : Slot} (hx : x ≠ c) : (s.kernel.set c f).procTable x = s.kernel.procTable x := by
    rw [Kernel.set_procTable, if_neg hx]
  obtain ⟨hflags, hfrom, hto⟩ := hf (s.kernel.procTable c)
  refine ⟨fun x hfs hmm hx => h.between x hfs hmm ?_, ?_, ?_⟩
  · by_cases hxc : x = c
    · subst hxc
      rwa [hself, hto] at hx
    · rwa [hother hxc] at hx
  · -- the child, which waits, is not the memory manager, which runs
    have hc : taskMm ≠ c := by
      rintro rfl
      exact hchild.flags_ne hrun
    rw [hother hc, hrun]
  · unfold AwaitsMm
    rw [hself, hflags, hfrom]
    exact hchild

/-- The parent whose entry is about to be copied is blocked. -/
def ParentBlocked (k : Kernel) : MmPlace → Prop
  | .found pid _ => (k.procTable pid).pFlags ≠ 0
  | _ => True

/-- The copy is made of a parent that is blocked. -/
def ForkOk (s : Forking) : ForkAct → Prop
  | .stmt .copy => ParentBlocked s.kernel s.place
  | _ => True

instance (k : Kernel) (place : MmPlace) : Decidable (ParentBlocked k place) := by
  unfold ParentBlocked
  split <;> infer_instance

instance (s : Forking) (b : ForkAct) : Decidable (ForkOk s b) := by
  unfold ForkOk
  split <;> infer_instance

theorem ForkInv.stmt {x : Stmt} (h : ForkInv mm s) (hrun : (s.kernel.procTable taskMm).pFlags = 0)
    (hok : ForkOk s (.stmt x)) (hs : doForkStmt mm s x s.place = .ok s') : ForkInv mm s' := by
  have hplace := h.place
  unfold doForkStmt at hs
  split at hs <;> rename_i hat <;> try rw [hat] at hplace
  · -- `find`
    have hcaller := (hplace.resolve_right fun hn => absurd (hrun.symm.trans hn.1) (by decide)).2
    split at hs
    · exact nomatch hs
    · rename_i pid hpid
      split at hs
      · obtain rfl := Except.ok.inj hs
        exact ⟨h.between, trivial⟩
      · rename_i c hc
        rw [assert_bind_eq_ok] at hs
        obtain ⟨hnative, hs⟩ := hs
        obtain rfl := Except.ok.inj hs
        exact ⟨h.between, hrun, hcaller pid hpid, findFree_some hc, hnative,
          (forkCaller_some hpid).1⟩
  · -- `copy`
    rename_i pid c
    obtain ⟨hmm, hask, hfree, hnative, hfs⟩ := hplace
    have hflags : (s.kernel.procTable pid).pFlags ≠ 0 := by
      rw [ForkOk, hat] at hok
      exact hok
    have hblocked : AwaitsMm s.kernel pid := hask.resolve_left fun hn => hflags hn.1
    have hpid : pid ≠ taskMm := by
      rintro rfl
      exact hflags hmm
    have hc : taskMm ≠ c := by
      rintro rfl
      exact absurd hnative (by decide)
    obtain rfl := Except.ok.inj hs
    refine ⟨fun x hxfs hxmm hx => ?_, ?_, ?_⟩
    · dsimp only at hx ⊢
      rw [Kernel.set_procTable] at hx
      rw [Function.update_apply]
      split_ifs at hx ⊢ with hxc
      · exact h.between pid hfs hpid hx
      · exact h.between x hxfs hxmm hx
    · dsimp only
      rw [Kernel.set_procTable, if_neg hc, hmm]
    · refine ⟨?_, ?_⟩
      · dsimp only
        rw [Kernel.set_procTable, if_pos rfl]
        exact hblocked.1
      · dsimp only
        rw [Kernel.set_procTable, if_pos rfl]
        exact hblocked.2
  · -- `name`
    rename_i pid c
    obtain ⟨name, -, hs⟩ := bind_eq_ok.1 hs
    obtain rfl := Except.ok.inj hs
    obtain ⟨hbetween, hmm, hchild⟩ := h.setChild hrun hplace.2
      (f := fun p => { p with pParent := proc2pid pid, pName := name }) fun _ => ⟨rfl, rfl, rfl⟩
    exact ⟨hbetween, hmm, hchild⟩
  · -- `move`
    rename_i pid c
    rw [assert_bind_eq_ok] at hs
    obtain ⟨-, hs⟩ := hs
    obtain ⟨base, hbase, hs⟩ := bind_eq_ok.1 hs
    obtain rfl := Except.ok.inj hs
    exact ⟨h.between, hrun, hplace.2, _, hbase⟩
  · -- `text`
    rename_i pid c base
    obtain ⟨-, hchild, hgiven⟩ := hplace
    obtain rfl := Except.ok.inj hs
    obtain ⟨hbetween, hmm, hchild⟩ := h.setChild hrun hchild
      (f := fun p =>
        { p with
          ldts := Function.update p.ldts 0
            (initDescriptor base childLimit (childAttr ||| daC)) }) fun _ => ⟨rfl, rfl, rfl⟩
    refine ⟨hbetween, hmm, hchild, hgiven, ?_⟩
    dsimp only
    rw [Kernel.set_procTable, if_pos rfl]
    exact linear_initDescriptor _ _ _
  · -- `data`
    rename_i pid c base
    obtain ⟨-, hchild, hgiven, htext⟩ := hplace
    obtain rfl := Except.ok.inj hs
    obtain ⟨hbetween, -, -⟩ := h.setChild hrun hchild
      (f := fun p =>
        { p with
          ldts := Function.update p.ldts 1
            (initDescriptor base childLimit (childAttr ||| daDrw)) }) fun _ => ⟨rfl, rfl, rfl⟩
    refine ⟨hbetween, hgiven, ?_, ?_⟩
    · dsimp only
      rw [Kernel.set_procTable, if_pos rfl]
      exact htext
    · dsimp only
      rw [Kernel.set_procTable, if_pos rfl]
      exact linear_initDescriptor _ _ _
  · exact nomatch hs

/-- What a step of the whole can be. -/
theorem forkStep_cases {b : ForkAct} (hs : ForkStep mm s b s') :
    (∃ a k' between, PairStep s between a ∧ Step s.kernel a k' ∧
      (∀ x, b ≠ .stmt x) ∧ s' = { s with kernel := k', between }) ∨
    (∃ function srcDest m place k', mmTrap mm function srcDest m s.place = some place ∧
      (s.kernel.procTable taskMm).pFlags = 0 ∧
      sendrec s.kernel taskMm function srcDest m = .ok k' ∧ (∀ x, b ≠ .stmt x) ∧
      s' = { s with kernel := k', place }) ∨
    (∃ k', (∀ x, (k'.procTable x).pSendto = (s.kernel.procTable x).pSendto) ∧
      (∀ x, b ≠ .stmt x) ∧ s' = { s with kernel := k', place := .other }) ∨
    ∃ x, b = .stmt x ∧ (s.kernel.procTable taskMm).pFlags = 0 ∧
      doForkStmt mm s x s.place = .ok s' := by
  unfold ForkStep forkStep at hs
  split at hs
  · -- the first trap of a pair
    rename_i p m
    split_ifs at hs with hguard
    obtain ⟨k', hk, rfl⟩ := Option.map_eq_some_iff.1 hs
    exact .inl ⟨_, k', _, .ask p m hguard.1 hguard.2 rfl, hk, nofun, rfl⟩
  · rename_i p function srcDest m
    split_ifs at hs with hp hmay
    · subst hp
      obtain ⟨place, hplace, hs⟩ := Option.bind_eq_some_iff.1 hs
      obtain ⟨k', hk, hs⟩ := Option.bind_eq_some_iff.1 hs
      obtain rfl := Option.some.inj hs
      unfold step at hk
      dsimp only at hk
      split_ifs at hk with hrun
      exact .inr (.inl ⟨function, srcDest, m, place, k', hplace, hrun, toOption_eq_some.1 hk, nofun,
        rfl⟩)
    · obtain ⟨k', hk, rfl⟩ := Option.map_eq_some_iff.1 hs
      exact .inl ⟨_, k', _, .trap p function srcDest m hp hmay rfl, hk, nofun, rfl⟩
  · rename_i a hnot
    obtain ⟨k', hk, rfl⟩ := Option.map_eq_some_iff.1 hs
    refine .inl ⟨a, k', s.between, ?_, hk, nofun, rfl⟩
    cases a with
    | sendrec p function srcDest m => exact absurd rfl (hnot p function srcDest m)
    | informInt t => exact .informInt t rfl
    | user mem => exact .user mem rfl
  · rename_i a
    split at hs
    pick_goal 9
    · exact nomatch hs
    all_goals
      obtain ⟨k', hk, rfl⟩ := Option.map_eq_some_iff.1 hs
      exact .inr (.inr (.inl ⟨k', mmStep_sendto (fun _ he => MmAct.noConfusion he)
        (fun _ he => MmAct.noConfusion he) hk, fun _ he => ForkAct.noConfusion he, rfl⟩))
  · rename_i x
    split_ifs at hs with hrun
    exact .inr (.inr (.inr ⟨x, rfl, hrun, toOption_eq_some.1 hs⟩))

theorem ForkInv.step {b : ForkAct} (h : ForkInv mm s) (hs : ForkStep mm s b s')
    (hok : ForkOk s b) : ForkInv mm s' := by
  rcases forkStep_cases hs with ⟨a, k', between, hp, hk, -, rfl⟩ |
    ⟨function, srcDest, m, place, k', hp, hrun, hk, -, rfl⟩ | ⟨k', hto, -, rfl⟩ |
    ⟨x, rfl, hrun, hx⟩
  · exact h.others hp hk
  · exact h.mmTrap hp hrun hk
  · refine ⟨fun x hfs hmm hx => h.between x hfs hmm ?_, trivial⟩
    rw [← hto]
    exact hx
  · exact h.stmt hrun hok hx

theorem ForkInv.start (h : ForkStart s) : ForkInv mm s := by
  obtain ⟨⟨mem, limit, hk⟩, hplace, hbetween⟩ := h
  refine ⟨fun x _ _ hx => ?_, ?_⟩
  · -- nobody sends to anybody
    have hto : ((kernelMain mem limit).procTable x).pSendto = 0 ∧ nrTasks + nrNativeProcs ≤ x.val ∨
        ((kernelMain mem limit).procTable x).pSendto = noTask := by
      simp only [kernelMain, restart_procTable, kernelMainProc]
      split_ifs with hx
      · exact .inl ⟨rfl, hx⟩
      · exact .inr rfl
    rw [hk] at hx
    rcases hto with ⟨hto, -⟩ | hto <;> rw [hto] at hx <;> exact absurd hx (by decide)
  · rw [hplace]
    trivial

/-! ## Nothing in between -/

/-- The two descriptors written one after the other. -/
theorem ldts_update (l : Fin 2 → Descriptor) (a b : Descriptor) :
    Function.update (Function.update l 0 a) 1 b = ![a, b] := by
  funext i
  match i with
  | 0 => rfl
  | 1 => rfl

/-- The statements of `do_fork` one after the other are `do_fork` as a whole. -/
theorem stmts_eq_forkProc {pid c : Slot} (hplace : s.place = .top)
    (hrun : (s.kernel.procTable taskMm).pFlags = 0) (hcaller : forkCaller s.kernel = some pid)
    (hpid : (s.kernel.procTable pid).pFlags ≠ freeSlot)
    (hfork : forkProc mm s.kernel pid = .ok (some c, k')) :
    ∃ base, Run.exec (forkStep mm) s
      [.stmt .find, .stmt .copy, .stmt .name, .stmt .move, .stmt .text, .stmt .data] =
        some ⟨k', .built pid c base, Function.update s.between c (s.between pid)⟩ := by
  cases forkProc_done hfork with
  | made _ name base hfree hnative hname hsegs hbase =>
    have hpc : pid ≠ c := by
      rintro rfl
      exact hpid (findFree_some hfree)
    have hmm : taskMm ≠ c := by
      rintro rfl
      exact absurd hnative (by decide)
    refine ⟨base, ?_⟩
    simp only [Run.exec, forkStep, hrun, hplace, doForkStmt, hcaller, hfree, assert_of hnative,
      ok_bind, Except.toOption, Option.bind_some, Kernel.set_procTable, if_neg hmm,
      if_neg hpc, hname, Kernel.set_set, assert_of hsegs, hbase, if_pos]
    simp [Kernel.set, childProc, childLdts, ldts_update, childAttr, childLimit]

/-! ## The child -/

/-- A child that is half built is blocked as its parent was, waiting for the memory manager. -/
def ChildHeld (s : Forking) : Prop :=
  ∀ c, s.place.halfBuilt = some c →
    (s.kernel.procTable c).pFlags = receiving ∧ (s.kernel.procTable c).pRecvfrom = proc2pid taskMm

/-- A child that is half built is not scheduled. -/
def ChildStopped (s : Forking) : Prop :=
  ∀ c, s.place.halfBuilt = some c → (s.kernel.procTable c).pFlags ≠ 0

theorem ForkInv.childHeld (h : ForkInv mm s) : ChildHeld s := by
  intro c hc
  have hplace := h.place
  cases hs : s.place with
  | copied pid c' | named pid c' =>
    rw [hs] at hc hplace
    obtain rfl := Option.some.inj hc
    exact hplace.2
  | moved pid c' base | text pid c' base =>
    rw [hs] at hc hplace
    obtain rfl := Option.some.inj hc
    exact hplace.2.1
  | other | top | found | built | told | heard | replying =>
    rw [hs] at hc
    exact nomatch hc

theorem ChildHeld.stopped (h : ChildHeld s) : ChildStopped s := by
  intro c hc
  rw [(h c hc).1]
  decide

/-- A copy of a parent that runs, runs. -/
theorem forkOk_of_stopped {b : ForkAct} (hs : ForkStep mm s b s') (h : ChildStopped s') :
    ForkOk s b := by
  rcases forkStep_cases hs with ⟨a, k', between, -, -, hb, -⟩ |
    ⟨function, srcDest, m, place, k', -, -, -, hb, -⟩ | ⟨k', -, hb, -⟩ | ⟨x, rfl, hrun, hx⟩
  iterate 3
    unfold ForkOk
    split
    · exact absurd rfl (hb _)
    · trivial
  cases x with
  | copy =>
    change ParentBlocked s.kernel s.place
    unfold ParentBlocked
    split
    · rename_i pid c hat
      rw [hat] at hx
      obtain rfl := Except.ok.inj hx
      have hflags := h c rfl
      dsimp only at hflags
      rwa [Kernel.set_procTable, if_pos rfl] at hflags
    · trivial
  | _ => trivial

/-- In every run whose copies are made of parents that are blocked, a child that is half built is
held, and one that is built has segments of its own; a further step leaves it so, and leaves it
stopped, just where it meets the condition too. -/
theorem half_built_held {l : List ForkAct}
    (h : Run ForkStart (fun s b s' => ForkStep mm s b s' ∧ ForkOk s b) l s) :
    ChildHeld s ∧
    (∀ pid c base, s.place = .built pid c base → (∃ size, allocMem mm c size = .ok base) ∧
      ((s.kernel.procTable c).ldts 0).linear = base ∧
      ((s.kernel.procTable c).ldts 1).linear = base) ∧
    ∀ b s', ForkStep mm s b s' →
      (ChildHeld s' ↔ ForkOk s b) ∧ (ChildStopped s' ↔ ForkOk s b) := by
  have hinv : ForkInv mm s :=
    h.invariant (P := fun _ s => ForkInv mm s) (fun _ h0 => .start h0)
      fun _ _ _ _ hinv hs => hinv.step hs.1 hs.2
  refine ⟨hinv.childHeld, fun pid c base hat => ?_,
    fun b s' hs => ⟨⟨fun hheld => ?_, fun hok => ?_⟩, fun hstop => ?_, fun hok => ?_⟩⟩
  · have hplace := hinv.place
    rw [hat] at hplace
    exact hplace
  · exact forkOk_of_stopped hs hheld.stopped
  · exact (hinv.step hs hok).childHeld
  · exact forkOk_of_stopped hs hstop
  · exact (hinv.step hs hok).childHeld.stopped

/-- `INIT` has asked for a fork at 0x2000, and the memory manager has not looked yet. -/
def initAsks : Forking where
  kernel := kernelMain (fun a => if a = 0x2004 then 14 else 0) 0
  place := .other
  between := fun _ => none

theorem forkStart_initAsks : ForkStart initAsks := ⟨⟨_, _, rfl⟩, rfl, fun _ => rfl⟩

/-- `INIT` comes to its second trap before the memory manager makes the copy. -/
theorem half_built_held_init : ∃ s l,
    Run ForkStart (fun s b s' => ForkStep mmEnv64 s b s' ∧ ForkOk s b) l s ∧
    s.place = .built 5 9 procsBase ∧
    ChildHeld s ∧
    (∀ pid c base, s.place = .built pid c base → (∃ size, allocMem mmEnv64 c size = .ok base) ∧
      ((s.kernel.procTable c).ldts 0).linear = base ∧
      ((s.kernel.procTable c).ldts 1).linear = base) ∧
    ∀ b s', ForkStep mmEnv64 s b s' →
      (ChildHeld s' ↔ ForkOk s b) ∧ (ChildStopped s' ↔ ForkOk s b) := by
  have hany : (Run.exec (fun s b => if ForkOk s b then forkStep mmEnv64 s b else none) initAsks
      [.kernel (.sendrec 4 .receive any mmEnv64.mmMsg), .ask 5 0x2000,
        .kernel (.sendrec 5 .receive 4 0x2000), .stmt .find, .stmt .copy, .stmt .name,
        .stmt .move, .stmt .text, .stmt .data]).any
      (fun s => s.place = .built 5 9 procsBase) = true := by decide +kernel
  obtain ⟨s, hs, hp⟩ := (Option.any_eq_true _ _).1 hany
  have hrun : Run ForkStart (fun s b s' => ForkStep mmEnv64 s b s' ∧ ForkOk s b) _ s :=
    (Run.of_exec (.start forkStart_initAsks) hs).mono fun s b s' hs => by
      split_ifs at hs with hok
      exact ⟨hs, hok⟩
  exact ⟨s, _, hrun, of_decide_eq_true hp, half_built_held hrun⟩

/-- The memory manager is scheduled between the two traps of `INIT`: the child is there, in the
segments of `INIT`, and may be scheduled. -/
theorem half_built_runs : ∃ s s' l, Run ForkStart (ForkStep mmEnv64) l s ∧
    s.place.halfBuilt = some 9 ∧ (s.kernel.procTable 9).pFlags = 0 ∧
    (s.kernel.procTable 9).ldts = (s.kernel.procTable init).ldts ∧
    ForkStep mmEnv64 s (.kernel (.sendrec 9 .receive (proc2pid taskMm) 0x2000)) s' := by
  have hany : (Run.exec (forkStep mmEnv64) initAsks
      [.kernel (.sendrec 4 .receive any mmEnv64.mmMsg), .ask 5 0x2000, .stmt .find,
        .stmt .copy]).any
      (fun s => s.place.halfBuilt = some 9 ∧ (s.kernel.procTable 9).pFlags = 0 ∧
        (s.kernel.procTable 9).ldts = (s.kernel.procTable init).ldts ∧
        (forkStep mmEnv64 s
          (.kernel (.sendrec 9 .receive (proc2pid taskMm) 0x2000))).isSome = true) = true := by
    decide +kernel
  obtain ⟨s, hs, hp⟩ := (Option.any_eq_true _ _).1 hany
  obtain ⟨hhalf, hflags, hldts, hnext⟩ := of_decide_eq_true hp
  obtain ⟨s', hnext⟩ := Option.isSome_iff_exists.1 hnext
  exact ⟨s, s', _, Run.of_exec (.start forkStart_initAsks) hs, hhalf, hflags, hldts, hnext⟩

end MyOS
