import MyOS.TaskMm
import MyOS.Proofs.ForkQueue
import MyOS.Proofs.Progress

/-!
# A turn of the memory manager

What a turn makes of the process table and what it sends, from a state in which every process the
memory manager serves runs, waits for a child to exit, hangs after its own exit, or is free.
-/

namespace MyOS

open Memory Pointer

/-- A process blocked on the memory manager, with a flag of its own. -/
structure AtMm (x : Proc) (f : BitVec 32) : Prop where
  pFlags : x.pFlags = receiving ||| f
  pMsg : x.pMsg ≠ 0
  pRecvfrom : x.pRecvfrom = proc2pid taskMm
  pSendto : x.pSendto = noTask

/-- Whether an exit has been reported or is yet to be. -/
def Hanging (x : Proc) : Prop := x.pFlags &&& hanging ≠ 0

def Waiting (x : Proc) : Prop := x.pFlags &&& waiting ≠ 0

instance (x : Proc) : Decidable (Hanging x) := inferInstanceAs (Decidable (_ ≠ _))

instance (x : Proc) : Decidable (Waiting x) := inferInstanceAs (Decidable (_ ≠ _))

/-- What a process may be between two turns. -/
def Settled (x : Proc) : Prop :=
  Idle x ∨ AtMm x waiting ∨ AtMm x hanging ∨ x.pFlags = freeSlot

theorem Idle.quiet {x : Proc} (h : Idle x) : ¬ Hanging x ∧ ¬ Waiting x := by
  unfold Hanging Waiting
  rw [h.pFlags]
  decide

theorem free_quiet {x : Proc} (h : x.pFlags = freeSlot) : ¬ Hanging x ∧ ¬ Waiting x := by
  unfold Hanging Waiting
  rw [h]
  decide

theorem AtMm.waits {x : Proc} (h : AtMm x waiting) : ¬ Hanging x ∧ Waiting x := by
  unfold Hanging Waiting
  rw [h.pFlags]
  decide

theorem AtMm.hangs {x : Proc} (h : AtMm x hanging) : Hanging x ∧ ¬ Waiting x := by
  unfold Hanging Waiting
  rw [h.pFlags]
  decide

theorem Settled.atMm_waiting {x : Proc} (h : Settled x) (hw : Waiting x) : AtMm x waiting := by
  rcases h with h | h | h | h
  · exact absurd hw h.quiet.2
  · exact h
  · exact absurd hw h.hangs.2
  · exact absurd hw (free_quiet h).2

theorem settled_not_both {x : Proc} (h : Settled x) (hh : Hanging x) : ¬ Waiting x :=
  fun hw => (h.atMm_waiting hw).waits.1 hh

/-- A process that may have children. -/
structure Parent (k : Kernel) (p : Slot) : Prop where
  user : p ≠ taskMm
  used : (k.procTable p).pFlags ≠ freeSlot
  alive : ¬ Hanging (k.procTable p)

/-- The kernel is not in a trap, and the memory manager can send. -/
structure Ready (k : Kernel) : Prop where
  kReenter : k.kReenter = -1
  base : NativeBase k
  mm : Idle (k.procTable taskMm)

/-- The state between two turns. -/
structure Between (k : Kernel) : Prop extends Ready k where
  hasIntMsg : ∀ q, (k.procTable q).hasIntMsg = false
  qSending : ∀ q, (k.procTable q).qSending = none
  state : ∀ q, Settled (k.procTable q)
  native : ∀ q : Slot, q.val < nrTasks + nrNativeProcs → (k.procTable q).pFlags ≠ freeSlot ∧
    ¬ Hanging (k.procTable q) ∧ (k.procTable q).pParent = noTask
  parent : ∀ c : Slot, nrTasks + nrNativeProcs ≤ c.val → (k.procTable c).pFlags ≠ freeSlot →
    ∃ p, (k.procTable c).pParent = proc2pid p ∧ p ≠ c ∧ Parent k p
  prompt : ∀ c p, Hanging (k.procTable c) → (k.procTable c).pParent = proc2pid p →
    ¬ Waiting (k.procTable p)

/-! ## Messages of the memory manager -/

theorem woken_idle {x : Proc} (h : Idle x) (m : Addr) (src : Int) :
    woken { x with pFlags := receiving, pMsg := m, pRecvfrom := src } = x := by
  have hz : receiving &&& ~~~receiving = 0 := by decide
  obtain ⟨h1, h2, h3, -⟩ := h
  cases x
  simp only at h1 h2 h3
  subst h1 h2 h3
  simp [woken, hz]

variable {mm : MmEnv} {k : Kernel}

/-- The table after a step that leaves the memory manager and the segments alone. -/
theorem Ready.of_table {k' : Kernel} (h : Ready k) (hk : k'.kReenter = -1)
    (hmm : k'.procTable taskMm = k.procTable taskMm)
    (hl : ∀ q : Slot, q.val < nrTasks + nrNativeProcs →
      (k'.procTable q).ldts = (k.procTable q).ldts) : Ready k' :=
  ⟨hk, fun p hp => by rw [hl p hp]; exact h.base p hp, by rw [hmm]; exact h.mm⟩

theorem mmSend_spec (h : Ready k) {d : Slot} {a : Addr} (ha : a ≠ 0) (hd : d ≠ taskMm)
    (hw : Awaiting (k.procTable d) (proc2pid taskMm)) (f : Message → Message) :
    ∃ k' m m', mmSend k (proc2pid d) a f = .ok k' ∧ Ready k' ∧
      (∀ q, k'.procTable q = if q = d then woken (k.procTable d) else k.procTable q) ∧
      k'.log = .copied taskMm d m' ::
        .call taskMm d { f m with source := BitVec.ofInt 32 (proc2pid taskMm) } :: k.log := by
  have hbase : ((k.procTable taskMm).ldts 1).linear = 0 := h.base taskMm (by decide)
  obtain ⟨k', m', hs, hk, ht, hl⟩ := sendrec_send
    (k := { k with mem := Message.store k.mem a (f (Message.load k.mem a)) }) (s := taskMm)
    h.kReenter h.base h.mm (.inl hw) hd ha
  refine ⟨k', Message.load k.mem a, m', hs, h.of_table hk ?_ fun q _ => ?_, ht, ?_⟩
  · rw [ht, if_neg hd.symm]
  · rw [ht]
    split_ifs with hq
    · rw [hq]
      rfl
    · rfl
  · rw [hl]
    simp only [hbase]
    have hz : (0 : Addr) + a = a := BitVec.zero_add a
    rw [hz, Message.load_store]

variable (mm) in
/-- A report goes to the parent, which runs again, and the entry is free. -/
theorem cleanup_spec (h : Ready k) {p d : Slot} (hp : (k.procTable p).pParent = proc2pid d)
    (hpd : p ≠ d) (hpm : p ≠ taskMm) (hd : d ≠ taskMm)
    (hw : Awaiting (k.procTable d) (proc2pid taskMm)) :
    ∃ k' m m', cleanup mm k p = .ok (⟨p, proc2pid d, (k.procTable p).exitStatus⟩, k') ∧ Ready k' ∧
      (∀ q, k'.procTable q = if q = p then { k.procTable p with pFlags := freeSlot }
        else if q = d then woken (k.procTable d) else k.procTable q) ∧
      k'.log = .copied taskMm d m' :: .call taskMm d
        { Report.fill ⟨p, proc2pid d, (k.procTable p).exitStatus⟩ m with
          source := BitVec.ofInt 32 (proc2pid taskMm) } :: k.log := by
  obtain ⟨k₁, m, m', hs, hr, ht, hl⟩ := mmSend_spec h mm.msg_ne hd hw
    (Report.fill ⟨p, proc2pid d, (k.procTable p).exitStatus⟩)
  refine ⟨freeProc k₁ p, m, m', ?_, hr.of_table hr.kReenter ?_ fun q _ => ?_, fun q => ?_, hl⟩
  · simp only [cleanup, hp, hs, ok_bind]
  · simp [freeProc, hpm.symm]
  · simp only [freeProc, Kernel.set_procTable]
    split_ifs with hq
    · rw [hq]
    · rfl
  · simp only [freeProc, Kernel.set_procTable, ht, if_neg hpd]

/-- A process that was forked is not the memory manager. -/
theorem user_ne_taskMm {p : Slot} (hp : nrTasks + nrNativeProcs ≤ p.val) : p ≠ taskMm := by
  rintro rfl
  exact absurd hp (by decide)

/-- A process that has asked the memory manager, with the message for the reply at `m`. -/
def asked (x : Proc) (m : Addr) : Proc :=
  { x with pFlags := receiving, pMsg := m, pRecvfrom := proc2pid taskMm }

/-- A parent that waited, after the report. -/
def told (x : Proc) : Proc := woken { x with pFlags := x.pFlags &&& ~~~waiting }

theorem AtMm.told {x : Proc} (h : AtMm x waiting) : Idle (told x) := by
  have hz : (receiving ||| waiting) &&& ~~~waiting = receiving := by decide
  have hawaits : Awaiting { x with pFlags := x.pFlags &&& ~~~waiting } (proc2pid taskMm) :=
    ⟨by simp only [h.pFlags, hz], h.pMsg, h.pRecvfrom, h.pSendto⟩
  exact hawaits.woken

/-- A process that may ask is not blocked. -/
theorem Between.idle (h : Between k) {p : Slot} (hp : (k.procTable p).pFlags = 0) :
    Idle (k.procTable p) := by
  rcases h.state p with hs | hs | hs | hs
  · exact hs
  · exact absurd (hp.symm.trans hs.pFlags) (by decide)
  · exact absurd (hp.symm.trans hs.pFlags) (by decide)
  · exact absurd (hp.symm.trans hs) (by decide)

variable (mm) in
/-- A process that asks waits for the reply; nothing else has changed. -/
theorem ask_spec (h : Between k) {pid : Slot} {m : Addr} (hne : pid ≠ taskMm)
    (hp : (k.procTable pid).pFlags = 0) (hm : m ≠ 0) : ∃ k', ask mm k pid m = .ok k' ∧ Ready k' ∧
      (∀ q, k'.procTable q = if q = pid then asked (k.procTable pid) m else k.procTable q) ∧
        ∃ m₁ m₂, k'.log = .copied pid taskMm m₁ :: .call pid taskMm m₂ :: k.log := by
  have hidle := h.idle hp
  obtain ⟨k₁, h₁, hk₁, ht₁, hl₁⟩ := @sendrec_receive k taskMm any _ h.kReenter h.base h.mm
    (h.hasIntMsg taskMm) mm.mmMsg_ne (.inl ⟨rfl, h.qSending taskMm⟩)
  have hr₁ : NativeBase k₁ := fun q hq => by
    rw [ht₁]
    split_ifs with hqm
    · exact h.base taskMm (by decide)
    · exact h.base q hq
  have hself₁ : k₁.procTable pid = k.procTable pid := by rw [ht₁, if_neg hne]
  have hmm₁ : Awaiting (k₁.procTable taskMm) any := by
    rw [ht₁, if_pos rfl]
    exact ⟨rfl, mm.mmMsg_ne, rfl, h.mm.pSendto⟩
  obtain ⟨k₂, m', h₂, hk₂, ht₂, hl₂⟩ := sendrec_send (m := m) hk₁ hr₁ (hself₁ ▸ hidle) (.inr hmm₁)
    hne.symm hm
  have htab₂ (q : Slot) : k₂.procTable q = k.procTable q := by
    rw [ht₂]
    split_ifs with hq
    · rw [ht₁, if_pos rfl, hq]
      exact woken_idle h.mm _ _
    · rw [ht₁, if_neg hq]
  have hr₂ : Ready k₂ := h.toReady.of_table hk₂ (htab₂ _) fun q _ => by rw [htab₂]
  have hns : ¬ SendsTo k₂ taskMm pid := by
    intro hn
    exact hn.1 (by simp [htab₂, h.mm.pFlags])
  obtain ⟨k₃, h₃, hk₃, ht₃, hl₃⟩ := sendrec_receive (m := m) hk₂ hr₂.base (by rwa [htab₂])
    (by rw [htab₂]; exact h.hasIntMsg pid) hm (.inr ⟨taskMm, rfl, hne.symm, hns⟩)
  refine ⟨k₃, ?_, hr₂.of_table hk₃ ?_ fun q _ => ?_, fun q => ?_, ?_⟩
  · rw [ask, h₁, ok_bind, h₂, ok_bind, h₃]
  · rw [ht₃, if_neg hne.symm]
  · rw [ht₃]
    split_ifs with hq
    · rw [hq]
    · rfl
  · rw [ht₃, htab₂]
    split_ifs
    · rfl
    · exact htab₂ q
  · rw [hl₃, hl₂, hl₁]
    exact ⟨_, _, rfl⟩

/-! ## Exit -/

/-- What the loop of `do_exit` makes of an entry. -/
def orphan (pid : Slot) (x : Proc) : Proc :=
  if x.pParent = proc2pid pid then { x with pParent := proc2pid init } else x

theorem orphan_orphan (pid : Slot) (x : Proc) : orphan pid (orphan pid x) = orphan pid x := by
  unfold orphan
  split_ifs <;> rfl

@[simp] theorem orphan_ldts (pid : Slot) (x : Proc) : (orphan pid x).ldts = x.ldts := by
  unfold orphan
  split_ifs <;> rfl

@[simp] theorem orphan_pFlags (pid : Slot) (x : Proc) : (orphan pid x).pFlags = x.pFlags := by
  unfold orphan
  split_ifs <;> rfl

@[simp] theorem orphan_pMsg (pid : Slot) (x : Proc) : (orphan pid x).pMsg = x.pMsg := by
  unfold orphan
  split_ifs <;> rfl

@[simp] theorem orphan_pRecvfrom (pid : Slot) (x : Proc) :
    (orphan pid x).pRecvfrom = x.pRecvfrom := by
  unfold orphan
  split_ifs <;> rfl

@[simp] theorem orphan_pSendto (pid : Slot) (x : Proc) : (orphan pid x).pSendto = x.pSendto := by
  unfold orphan
  split_ifs <;> rfl

@[simp] theorem orphan_hasIntMsg (pid : Slot) (x : Proc) :
    (orphan pid x).hasIntMsg = x.hasIntMsg := by
  unfold orphan
  split_ifs <;> rfl

@[simp] theorem orphan_qSending (pid : Slot) (x : Proc) : (orphan pid x).qSending = x.qSending := by
  unfold orphan
  split_ifs <;> rfl

@[simp] theorem orphan_exitStatus (pid : Slot) (x : Proc) :
    (orphan pid x).exitStatus = x.exitStatus := by
  unfold orphan
  split_ifs <;> rfl

theorem orphan_pParent_of {pid : Slot} {x : Proc} (h : x.pParent = proc2pid pid) :
    (orphan pid x).pParent = proc2pid init := by
  rw [orphan, if_pos h]

theorem orphan_pParent_of_ne {pid : Slot} {x : Proc} (h : x.pParent ≠ proc2pid pid) :
    (orphan pid x).pParent = x.pParent := by
  rw [orphan, if_neg h]

/-- The table after an adoption that writes a parent and nothing else. -/
def adopted (k : Kernel) (pid i : Slot) : Kernel :=
  if (k.procTable i).pParent = proc2pid pid then
    k.set i fun p => { p with pParent := proc2pid init } else k

theorem adopted_procTable (k : Kernel) (pid i q : Slot) : (adopted k pid i).procTable q =
    if q = i then orphan pid (k.procTable i) else k.procTable q := by
  unfold adopted orphan
  split_ifs with h1 h2 h3
  · simp [h2]
  · simp [h2]
  · rw [h3]
  · rfl

theorem adopted_log (k : Kernel) (pid i : Slot) : (adopted k pid i).log = k.log := by
  unfold adopted
  split_ifs <;> rfl

theorem adopted_pFlags (k : Kernel) (pid i q : Slot) :
    ((adopted k pid i).procTable q).pFlags = (k.procTable q).pFlags := by
  rw [adopted_procTable]
  split_ifs with hq
  · rw [hq, orphan_pFlags]
  · rfl

theorem adopted_pSendto (k : Kernel) (pid i q : Slot) :
    ((adopted k pid i).procTable q).pSendto = (k.procTable q).pSendto := by
  rw [adopted_procTable]
  split_ifs with hq
  · rw [hq, orphan_pSendto]
  · rfl

theorem Ready.adopted (h : Ready k) (pid i : Slot) : Ready (adopted k pid i) := by
  have hkr : (MyOS.adopted k pid i).kReenter = -1 := by
    unfold MyOS.adopted
    split_ifs <;> exact h.kReenter
  refine ⟨hkr, fun q hq => ?_, ?_⟩
  · rw [adopted_procTable]
    split_ifs with hqi
    · rw [orphan_ldts, ← hqi]
      exact h.base q hq
    · exact h.base q hq
  · obtain ⟨h1, h2, h3, h4⟩ := h.mm
    refine ⟨(adopted_pFlags ..).trans h1, ?_, ?_, (adopted_pSendto ..).trans h4⟩
    · rw [adopted_procTable]
      split_ifs with hqi
      · rw [orphan_pMsg, ← hqi, h2]
      · exact h2
    · rw [adopted_procTable]
      split_ifs with hqi
      · rw [orphan_pRecvfrom, ← hqi, h3]
      · exact h3

/-- An orphan that hangs before an adoption does so after it, unless it is the one adopted. -/
theorem hangingOrphan_adopted {pid i j : Slot} (hp : pid ≠ init) :
    HangingOrphan (adopted k pid i) pid j ↔ j ≠ i ∧ HangingOrphan k pid j := by
  unfold HangingOrphan
  rw [adopted_pFlags, adopted_pFlags, adopted_procTable]
  by_cases hji : j = i
  · have hno : (orphan pid (k.procTable i)).pParent ≠ proc2pid pid := by
      unfold orphan
      split_ifs with ho
      · exact fun he => hp (proc2pid_inj he).symm
      · exact ho
    simp [hji, hno]
  · simp [hji]

variable (mm) in
/-- Where no orphan hangs while `INIT` waits the loop gives the orphans to `INIT`. -/
theorem adoptAll_spec {pid : Slot} (hp : pid ≠ init) : ∀ (l : List Slot) {k : Kernel}, Ready k →
    (∀ i ∈ l, ¬ HangingOrphan k pid i) → ∃ k', adoptAll mm pid l k = .ok ([], k') ∧ Ready k' ∧
      (∀ q, k'.procTable q = if q ∈ l then orphan pid (k.procTable q) else k.procTable q) ∧
      k'.log = k.log
  | [], k, h, _ => ⟨k, rfl, h, fun q => by simp, rfl⟩
  | i :: l, k, h, hno => by
    have hno₁ : ∀ j ∈ l, ¬ HangingOrphan (adopted k pid i) pid j := fun j hj hh =>
      hno j (List.mem_cons_of_mem _ hj) ((hangingOrphan_adopted hp).1 hh).2
    obtain ⟨k', hs, hr', ht', hl'⟩ := adoptAll_spec hp l (h.adopted pid i) hno₁
    have hstep : adoptAll mm pid (i :: l) k = .ok ([], k') := by
      rw [adoptAll, adopt_eq (hno i List.mem_cons_self)]
      exact hs
    refine ⟨k', hstep, hr', fun q => ?_, hl'.trans (adopted_log k pid i)⟩
    rw [ht', adopted_procTable]
    rcases eq_or_ne q i with rfl | hqi
    · simp only [if_pos, List.mem_cons_self, orphan_orphan, ite_self]
    · rw [if_neg hqi]
      simp only [List.mem_cons, hqi, false_or]

/-- A message to a process whose flags are all set but `WAITING` goes astray: the check for a
deadlock follows the `p_sendto` of a process that does not send. -/
theorem msgSend_astray {d : Slot} (hd : d ≠ taskMm) {a : Addr}
    (hfl : (k.procTable d).pFlags = ~~~waiting) (hto : (k.procTable d).pSendto = noTask) :
    msgSend k taskMm (proc2pid d) a = .error .wild := by
  have hloop (e : Event) : deadlock (k.note e) taskMm d = .error .wild := by
    have hs : ((k.note e).procTable d).pFlags &&& sending ≠ 0 := by
      rw [Kernel.note_procTable, hfl]
      decide
    have hne : noTask ≠ proc2pid taskMm := by decide
    have hwild : procAt noTask = .error .wild := rfl
    rw [deadlock, show nrTasks + nrProcs = 36 + 1 from rfl, deadlockLoop, if_pos hs,
      Kernel.note_procTable, hto, if_neg hne, hwild]
    rfl
  have hne : proc2pid taskMm ≠ proc2pid d := fun he => hd (proc2pid_inj he).symm
  simp only [msgSend, procAt_proc2pid, ok_bind, assert_of hne, hloop]
  rfl

theorem mmSend_astray (h : Ready k) {d : Slot} (hd : d ≠ taskMm) {a : Addr}
    (hfl : (k.procTable d).pFlags = ~~~waiting) (hto : (k.procTable d).pSendto = noTask)
    (f : Message → Message) : mmSend k (proc2pid d) a f = .error .wild := by
  have hk0 : (save k).kReenter = 0 := by
    rw [save_kReenter, h.kReenter]
    rfl
  have hsys := (sysSendrec_eq (m := a)
    (k := save { k with mem := Message.store k.mem a (f (Message.load k.mem a)) }) .send hk0
    (.inl (proc2pid_range d)) (h.base.va2la taskMm a) (ofInt_proc2pid_ne hd.symm)).trans
    (msgSend_astray hd hfl hto)
  rw [mmSend, sendrec, hsys]
  rfl

/-- The loop of `do_exit` stops at the first orphan that hangs while `INIT` waits. -/
theorem adoptAll_astray {pid : Slot} (hp : pid ≠ init) : ∀ (l : List Slot) {k : Kernel}, Ready k →
    (k.procTable init).pSendto = noTask → (∃ i ∈ l, HangingOrphan k pid i) →
      adoptAll mm pid l k = .error .wild
  | [], _, _, _, ⟨_, hi, _⟩ => absurd hi List.not_mem_nil
  | i :: l, k, h, hto, ⟨j, hj, hh⟩ => by
    by_cases hi : HangingOrphan k pid i
    · rw [adoptAll, adopt_orphan hi]
      generalize hk₁ : (k.set i fun p => { p with pParent := proc2pid init }).set init
        (fun p => { p with pFlags := ~~~waiting }) = k₁
      have ht₁ (q : Slot) : k₁.procTable q = if q = init then
          { (adopted k pid i).procTable init with pFlags := ~~~waiting }
          else (adopted k pid i).procTable q := by
        rw [← hk₁, Kernel.set_procTable, adopted, if_pos hi.1]
      have hr₁ : Ready k₁ := by
        refine (h.adopted pid i).of_table ?_ (ht₁ taskMm) fun q _ => ?_
        · rw [← hk₁]
          exact h.kReenter
        · rw [ht₁]
          split_ifs with hq
          · rw [hq]
          · rfl
      have hpar : (k₁.procTable i).pParent = proc2pid init := by
        have horphan : ((adopted k pid i).procTable i).pParent = proc2pid init := by
          rw [adopted_procTable, if_pos rfl, orphan_pParent_of hi.1]
        rw [ht₁]
        split_ifs with hq
        · subst hq
          exact horphan
        · exact horphan
      have hend := mmSend_astray hr₁ (d := init) (a := mm.msg) (by decide)
        (by rw [ht₁, if_pos rfl]) (by rw [ht₁, if_pos rfl]; exact (adopted_pSendto ..).trans hto)
      simp only [cleanup, hpar, hend]
      rfl
    · have hji : j ≠ i := by
        rintro rfl
        exact hi hh
      have hmem : j ∈ l := (List.mem_cons.1 hj).resolve_left hji
      rw [adoptAll, adopt_eq hi]
      exact adoptAll_astray hp l (h.adopted pid i) ((adopted_pSendto ..).trans hto)
        ⟨j, hmem, (hangingOrphan_adopted hp).2 ⟨hji, hh⟩⟩

/-! ## What a turn does -/

/-- What a turn for `pid`, which gave `m` for the reply, makes of the table. -/
inductive TurnOutcome (k : Kernel) (pid : Slot) (m : Addr) : Done → (Slot → Proc) → Prop
  | full : findFree k = none → TurnOutcome k pid m ⟨pid, .fork, none, []⟩ k.procTable
  | forked (c : Slot) (name : List Char) (ldts : Fin 2 → Descriptor) :
    findFree k = some c → nrTasks + nrNativeProcs ≤ c.val →
    TurnOutcome k pid m ⟨pid, .fork, some c, []⟩ fun q =>
      if q = c then childProc (k.procTable pid) pid name ldts else k.procTable q
  | told (p : Slot) (status : BitVec 32) :
    (k.procTable pid).pParent = proc2pid p → Waiting (k.procTable p) →
    TurnOutcome k pid m ⟨pid, .exit status, none, [⟨pid, proc2pid p, status⟩]⟩ fun q =>
      orphan pid (if q = pid then
          { asked (k.procTable pid) m with pFlags := freeSlot, exitStatus := status }
        else if q = p then told (k.procTable p) else k.procTable q)
  | hung (p : Slot) (status : BitVec 32) :
    (k.procTable pid).pParent = proc2pid p → ¬ Waiting (k.procTable p) →
    TurnOutcome k pid m ⟨pid, .exit status, none, []⟩ fun q =>
      orphan pid (if q = pid then
          { asked (k.procTable pid) m with pFlags := receiving ||| hanging, exitStatus := status }
        else k.procTable q)
  | reaped (c : Slot) :
    (k.procTable c).pParent = proc2pid pid → Hanging (k.procTable c) →
    TurnOutcome k pid m
      ⟨pid, .wait, none, [⟨c, proc2pid pid, (k.procTable c).exitStatus⟩]⟩ fun q =>
        if q = c then { k.procTable c with pFlags := freeSlot } else k.procTable q
  | waits : (∀ c, (k.procTable c).pParent = proc2pid pid → ¬ Hanging (k.procTable c)) →
    TurnOutcome k pid m ⟨pid, .wait, none, []⟩ fun q => if q = pid then
      { asked (k.procTable pid) m with pFlags := receiving ||| waiting } else k.procTable q
  | childless : (∀ c, (k.procTable c).pParent ≠ proc2pid pid) →
    TurnOutcome k pid m ⟨pid, .wait, none, []⟩ k.procTable

/-- The calls of the memory manager among some events, newest first. -/
def mmCalls (l : List Event) : List (Slot × Message) :=
  l.filterMap fun
    | .call s q m => if s = taskMm then some (q, m) else none
    | _ => none

/-- A message that tells an exit. -/
def Tells (x : Slot × Message) : Prop :=
  x.2.type = MsgType.syscallRet.code ∧ x.2.m3i2 ≠ BitVec.ofInt 32 noTask

instance (x : Slot × Message) : Decidable (Tells x) := inferInstanceAs (Decidable (_ ∧ _))

/-- A report and the message that tells it. -/
def Report.Is (r : Report) (x : Slot × Message) : Prop :=
  r.parent = proc2pid x.1 ∧ x.2.type = MsgType.syscallRet.code ∧
    x.2.m3i2 = BitVec.ofInt 32 (proc2pid r.child) ∧ x.2.m3i1 = r.status

/-- What the memory manager has sent in a turn tells its reports and no other exit, and what it has
sent has arrived. -/
def Sent (k : Kernel) (d : Done) (k' : Kernel) : Prop :=
  ∃ new, k'.log = new ++ k.log ∧
    List.Forall₂ Report.Is d.reports ((mmCalls new).filter fun x => Tells x) ∧
    ∀ x ∈ mmCalls new, ∃ m, .copied taskMm x.1 m ∈ new

/-- The memory manager has answered `pid` that it has no children. -/
def RepliesNone (k : Kernel) (pid : Slot) (k' : Kernel) : Prop :=
  ∃ new m, k'.log = new ++ k.log ∧ (pid, m) ∈ mmCalls new ∧
    m.type = MsgType.syscallRet.code ∧ m.m3i2 = BitVec.ofInt 32 noTask

theorem ask_mmCalls {pid : Slot} (hpid : pid ≠ taskMm) (m₁ m₂ : Message) (l : List Event) :
    mmCalls (l ++ [.copied pid taskMm m₁, .call pid taskMm m₂]) = mmCalls l := by
  simp [mmCalls, hpid]

theorem ofInt_proc2pid_ne_noTask (p : Slot) :
    BitVec.ofInt 32 (proc2pid p) ≠ BitVec.ofInt 32 noTask := by
  intro he
  have := congrArg BitVec.toNat he
  have hp : p.val < 37 := p.isLt
  rw [ofInt_proc2pid, show (BitVec.ofInt 32 noTask).toNat = 57 by decide] at this
  omega

/-- A turn that sends nothing, -/
theorem Sent.nothing {k' : Kernel} {d : Done} {pid : Slot} {m₁ m₂ : Message}
    (hpid : pid ≠ taskMm) (hd : d.reports = [])
    (hl : k'.log = .copied pid taskMm m₁ :: .call pid taskMm m₂ :: k.log) : Sent k d k' := by
  have hc := ask_mmCalls hpid m₁ m₂ []
  refine ⟨[_, _], hl, ?_, ?_⟩
  · rw [hd, show mmCalls [.copied pid taskMm m₁, .call pid taskMm m₂] = [] from hc]
    exact .nil
  · rw [show mmCalls [.copied pid taskMm m₁, .call pid taskMm m₂] = [] from hc]
    intro x hx
    exact absurd hx List.not_mem_nil

/-- and one that sends a message: a report, or that there is nothing to report. -/
theorem Sent.one {k' : Kernel} {d : Done} {pid q : Slot} {m m' m₁ m₂ : Message}
    (hpid : pid ≠ taskMm)
    (hd : List.Forall₂ Report.Is d.reports ([(q, m)].filter fun x => Tells x))
    (hl : k'.log = .copied taskMm q m' :: .call taskMm q m :: .copied pid taskMm m₁ ::
      .call pid taskMm m₂ :: k.log) : Sent k d k' := by
  have hc : mmCalls [.copied taskMm q m', .call taskMm q m, .copied pid taskMm m₁,
      .call pid taskMm m₂] = [(q, m)] :=
    ask_mmCalls hpid m₁ m₂ [.copied taskMm q m', .call taskMm q m]
  refine ⟨[_, _, _, _], hl, ?_, ?_⟩
  · rw [hc]
    exact hd
  · rw [hc]
    intro x hx
    obtain rfl := List.mem_singleton.1 hx
    exact ⟨m', List.mem_cons_self⟩

theorem Report.Is.forall₂ {r : Report} {x : Slot × Message} (h : r.Is x) :
    List.Forall₂ Report.Is [r] ([x].filter fun x => Tells x) := by
  have ht : Tells x := ⟨h.2.1, h.2.2.1 ▸ ofInt_proc2pid_ne_noTask r.child⟩
  have hx : [x].filter (fun x => Tells x) = [x] :=
    List.filter_eq_self.2 fun y hy => by
      rw [List.mem_singleton.1 hy]
      exact decide_eq_true ht
  rw [hx]
  exact .cons h .nil

/-- The exits that would set the flags of `INIT`: of a process with a child that hangs while `INIT`
waits, and waits for somebody else. -/
def Spares (k : Kernel) (pid : Slot) : Request → Prop
  | .exit _ => ¬ ((k.procTable pid).pParent ≠ proc2pid init ∧ Waiting (k.procTable init) ∧
      ∃ i, (k.procTable i).pParent = proc2pid pid ∧ Hanging (k.procTable i))
  | _ => True

instance (k : Kernel) (pid : Slot) : (request : Request) → Decidable (Spares k pid request)
  | .exit _ => inferInstanceAs (Decidable (¬ (_ ∧ _ ∧ _)))
  | .fork => .isTrue trivial
  | .wait => .isTrue trivial

variable {pid p : Slot} {m : Addr} {status : BitVec 32}

variable (status) in
/-- Where a process that exits is told to its parent. -/
theorem exitProc_waiting (hp : (k.procTable pid).pParent = proc2pid p) (hpp : p ≠ pid)
    (hw : Waiting (k.procTable p)) :
    exitProc k pid status = .ok (true, (k.set pid fun x => { x with exitStatus := status }).set p
      fun x => { x with pFlags := x.pFlags &&& ~~~waiting }) := by
  have hw' : ((k.set pid fun x => { x with exitStatus := status }).procTable p).pFlags &&& waiting
      ≠ 0 := by
    rw [Kernel.set_procTable, if_neg hpp]
    exact hw
  rw [exitProc, hp, procAt_proc2pid, ok_bind]
  exact if_pos hw'

variable (status) in
/-- Where it is not. -/
theorem exitProc_hanging (hp : (k.procTable pid).pParent = proc2pid p) (hpp : p ≠ pid)
    (hw : ¬ Waiting (k.procTable p)) :
    exitProc k pid status = .ok (false, (k.set pid fun x => { x with exitStatus := status }).set
      pid fun x => { x with pFlags := x.pFlags ||| hanging }) := by
  have hw' : ¬ ((k.set pid fun x => { x with exitStatus := status }).procTable p).pFlags &&& waiting
      ≠ 0 := by
    rw [Kernel.set_procTable, if_neg hpp]
    exact hw
  rw [exitProc, hp, procAt_proc2pid, ok_bind]
  exact if_neg hw'

/-- An exit up to its loop: the reports it has made when it gets there, and the state. -/
def BeforeAdopt (mm : MmEnv) (k : Kernel) (pid : Slot) (m : Addr) (status : BitVec 32)
    (reports : List Report) (k₁ : Kernel) : Prop :=
  Ready k₁ ∧ turn mm k pid (.exit status) m = do
    let (rs, k') ← adoptAll mm pid (List.finRange _) k₁
    .ok (⟨pid, .exit status, none, reports ++ rs⟩, k')

/-- Where no child of the process hangs while `INIT` waits, the loop leaves orphans only, -/
theorem BeforeAdopt.adopts {reports : List Report} {k₁ : Kernel}
    (h : BeforeAdopt mm k pid m status reports k₁) (hpid : pid ≠ init)
    (hno : ∀ i, ¬ HangingOrphan k₁ pid i) :
    ∃ k', turn mm k pid (.exit status) m = .ok (⟨pid, .exit status, none, reports⟩, k') ∧
      Ready k' ∧ (k'.procTable = fun q => orphan pid (k₁.procTable q)) ∧ k'.log = k₁.log := by
  obtain ⟨hr, ht⟩ := h
  obtain ⟨k', ha, hr', ht', hl'⟩ := adoptAll_spec mm hpid (List.finRange _) hr fun i _ => hno i
  refine ⟨k', ?_, hr', ?_, hl'⟩
  · rw [ht, ha, ok_bind]
    dsimp only
    rw [List.append_nil]
  · funext q
    rw [ht', if_pos (List.mem_finRange q)]

/-- and where one does, it goes astray. -/
theorem BeforeAdopt.astray {reports : List Report} {k₁ : Kernel} {i : Slot}
    (h : BeforeAdopt mm k pid m status reports k₁) (hpid : pid ≠ init)
    (hto : (k₁.procTable init).pSendto = noTask) (ho : HangingOrphan k₁ pid i) :
    turn mm k pid (.exit status) m = .error .wild := by
  obtain ⟨hr, ht⟩ := h
  rw [ht, adoptAll_astray hpid _ hr hto ⟨i, List.mem_finRange i, ho⟩]
  rfl

variable (mm status) in
/-- A process with a parent that waits is told and freed first. -/
theorem exit_told (h : Between k) (hu : nrTasks + nrNativeProcs ≤ pid.val)
    (hf : (k.procTable pid).pFlags = 0) (hm : m ≠ 0)
    (hp : (k.procTable pid).pParent = proc2pid p) (hpp : p ≠ pid)
    (hpu : p ≠ taskMm)
    (hw : AtMm (k.procTable p) waiting) :
    ∃ k₁, BeforeAdopt mm k pid m status [⟨pid, proc2pid p, status⟩] k₁ ∧
      (∀ q, k₁.procTable q = if q = pid then
        { asked (k.procTable pid) m with pFlags := freeSlot, exitStatus := status }
        else if q = p then told (k.procTable p) else k.procTable q) ∧
      ∀ (d : Done) (k' : Kernel), d.reports = [⟨pid, proc2pid p, status⟩] → k'.log = k₁.log →
        Sent k d k' := by
  have hwait : Waiting (k.procTable p) := hw.waits.2
  obtain ⟨k₁, hask, hr₁, ht₁, m₁, m₂, hl₁⟩ := ask_spec mm h (user_ne_taskMm hu) hf hm
  have hself₁ : (k₁.procTable pid).pParent = proc2pid p := by
    rw [ht₁, if_pos rfl]
    exact hp
  have hpar₁ : k₁.procTable p = k.procTable p := by rw [ht₁, if_neg hpp]
  have he := exitProc_waiting status hself₁ hpp (hpar₁ ▸ hwait)
  generalize hk₂ : (k₁.set pid fun x => { x with exitStatus := status }).set p
    (fun x => { x with pFlags := x.pFlags &&& ~~~waiting }) = k₂ at he
  have ht₂ (q : Slot) : k₂.procTable q = if q = pid then
      { asked (k.procTable pid) m with exitStatus := status }
      else if q = p then { k.procTable p with pFlags := (k.procTable p).pFlags &&& ~~~waiting }
      else k.procTable q := by
    subst hk₂
    simp only [Kernel.set_procTable, if_neg hpp, ht₁]
    rcases eq_or_ne q pid with rfl | hq
    · simp only [if_neg hpp.symm, if_pos]
    · simp only [if_neg hq]
  have hp₂ : k₂.procTable p =
      { k.procTable p with pFlags := (k.procTable p).pFlags &&& ~~~waiting } := by
    rw [ht₂, if_neg hpp, if_pos rfl]
  have hpid₂ : k₂.procTable pid = { asked (k.procTable pid) m with exitStatus := status } := by
    rw [ht₂, if_pos rfl]
  have hlog₂ : k₂.log = k₁.log := by
    subst hk₂
    rfl
  have hr₂ : Ready k₂ := by
    refine h.toReady.of_table (by subst hk₂; exact hr₁.kReenter) ?_ fun q _ => ?_
    · rw [ht₂, if_neg (user_ne_taskMm hu).symm, if_neg hpu.symm]
    · rw [ht₂]
      split_ifs with h1 h2
      · rw [h1]
        rfl
      · rw [h2]
      · rfl
  have hz : (receiving ||| waiting) &&& ~~~waiting = receiving := by decide
  have haw : Awaiting (k₂.procTable p) (proc2pid taskMm) := by
    rw [hp₂]
    exact ⟨by simp only [hw.pFlags, hz], hw.pMsg, hw.pRecvfrom, hw.pSendto⟩
  obtain ⟨k₃, m₃, m₄, hc, hr₃, ht₃, hl₃⟩ := cleanup_spec mm hr₂
    (by rw [hpid₂]; exact hp) hpp.symm (user_ne_taskMm hu) hpu haw
  have htab (q : Slot) : k₃.procTable q = if q = pid then
      { asked (k.procTable pid) m with pFlags := freeSlot, exitStatus := status }
      else if q = p then told (k.procTable p) else k.procTable q := by
    rw [ht₃, hpid₂, hp₂, ht₂]
    split_ifs <;> rfl
  rw [hpid₂] at hc hl₃
  refine ⟨k₃, ⟨hr₃, ?_⟩, htab, fun d k' hd hl => ?_⟩
  · simp only [turn, serve, doExit, hask, he, hc, ok_bind]
    cases adoptAll mm pid (List.finRange (nrTasks + nrProcs)) k₃ <;> rfl
  · rw [hlog₂, hl₁] at hl₃
    refine .one (user_ne_taskMm hu) ?_ (hl.trans hl₃)
    rw [hd]
    exact Report.Is.forall₂ ⟨rfl, rfl, rfl, rfl⟩

variable (mm status) in
/-- A process with a parent that does not wait hangs first. -/
theorem exit_hung (h : Between k) (hu : nrTasks + nrNativeProcs ≤ pid.val)
    (hf : (k.procTable pid).pFlags = 0) (hm : m ≠ 0)
    (hp : (k.procTable pid).pParent = proc2pid p) (hpp : p ≠ pid)
    (hw : ¬ Waiting (k.procTable p)) :
    ∃ k₁, BeforeAdopt mm k pid m status [] k₁ ∧
      (∀ q, k₁.procTable q = if q = pid then
        { asked (k.procTable pid) m with pFlags := receiving ||| hanging, exitStatus := status }
        else k.procTable q) ∧
      ∀ (d : Done) (k' : Kernel), d.reports = [] → k'.log = k₁.log → Sent k d k' := by
  obtain ⟨k₁, hask, hr₁, ht₁, m₁, m₂, hl₁⟩ := ask_spec mm h (user_ne_taskMm hu) hf hm
  have hself₁ : (k₁.procTable pid).pParent = proc2pid p := by
    rw [ht₁, if_pos rfl]
    exact hp
  have hpar₁ : k₁.procTable p = k.procTable p := by rw [ht₁, if_neg hpp]
  have he := exitProc_hanging status hself₁ hpp (hpar₁ ▸ hw)
  generalize hk₂ : (k₁.set pid fun x => { x with exitStatus := status }).set pid
    (fun x => { x with pFlags := x.pFlags ||| hanging }) = k₂ at he
  have htab (q : Slot) : k₂.procTable q = if q = pid then
      { asked (k.procTable pid) m with pFlags := receiving ||| hanging, exitStatus := status }
      else k.procTable q := by
    subst hk₂
    simp only [Kernel.set_procTable, if_pos, ht₁]
    split_ifs <;> rfl
  have hr₂ : Ready k₂ := by
    refine h.toReady.of_table (by subst hk₂; exact hr₁.kReenter) ?_ fun q _ => ?_
    · rw [htab, if_neg (user_ne_taskMm hu).symm]
    · rw [htab]
      split_ifs with h1
      · rw [h1]
        rfl
      · rfl
  refine ⟨k₂, ⟨hr₂, ?_⟩, htab, fun d k' hd hl => ?_⟩
  · simp only [turn, serve, doExit, hask, he, ok_bind]
    rfl
  · have hlog₂ : k₂.log = k₁.log := by
      subst hk₂
      rfl
    exact .nothing (user_ne_taskMm hu) hd (hl.trans (hlog₂.trans hl₁))

variable (mm) in
/-- An exit, where no child of the process hangs while `INIT` waits for somebody else. -/
theorem exit_spec (h : Between k) (hu : nrTasks + nrNativeProcs ≤ pid.val)
    (hf : (k.procTable pid).pFlags = 0) (hm : m ≠ 0) (hs : Spares k pid (.exit status)) :
    ∃ d k', turn mm k pid (.exit status) m = .ok (d, k') ∧ Ready k' ∧
      TurnOutcome k pid m d k'.procTable ∧ Sent k d k' := by
  have hinit : pid ≠ init := by
    rintro rfl
    exact absurd hu (by decide)
  have hused : (k.procTable pid).pFlags ≠ freeSlot := by
    rw [hf]
    decide
  obtain ⟨p, hp, hpp, hlv⟩ := h.parent pid hu hused
  by_cases hw : Waiting (k.procTable p)
  · have hat := (h.state p).atMm_waiting hw
    obtain ⟨k₁, hbefore, htab, hsent⟩ := exit_told mm status h hu hf hm hp hpp hlv.user hat
    have hno (i : Slot) : ¬ HangingOrphan k₁ pid i := by
      rintro ⟨hpi, hwi, hhi⟩
      rw [htab] at hpi hwi hhi
      rw [if_neg hinit.symm] at hwi
      split_ifs at hwi with hip
      · exact hat.told.quiet.2 hwi
      · by_cases h1 : i = pid
        · rw [if_pos h1] at hhi
          exact (free_quiet rfl).1 hhi
        rw [if_neg h1] at hpi hhi
        by_cases h2 : i = p
        · rw [if_pos h2] at hhi
          exact hat.told.quiet.1 hhi
        rw [if_neg h2] at hpi hhi
        exact hs ⟨fun he => hip (proc2pid_inj (he.symm.trans hp)), hwi, i, hpi, hhi⟩
    obtain ⟨k', ht, hr, htab', hl⟩ := hbefore.adopts hinit hno
    refine ⟨_, k', ht, hr, ?_, hsent _ _ rfl hl⟩
    have hout := TurnOutcome.told (m := m) p status hp hw
    simp only [htab', htab]
    exact hout
  · obtain ⟨k₁, hbefore, htab, hsent⟩ := exit_hung mm status h hu hf hm hp hpp hw
    have hno (i : Slot) : ¬ HangingOrphan k₁ pid i := by
      rintro ⟨hpi, hwi, hhi⟩
      rw [htab, if_neg hinit.symm] at hwi
      rw [htab] at hpi hhi
      by_cases h1 : i = pid
      · -- nobody is its own parent
        rw [if_pos h1] at hpi
        exact hpp (proc2pid_inj (hp.symm.trans hpi))
      rw [if_neg h1] at hpi hhi
      refine hs ⟨fun he => hw ?_, hwi, i, hpi, hhi⟩
      rw [proc2pid_inj (hp.symm.trans he)]
      exact hwi
    obtain ⟨k', ht, hr, htab', hl⟩ := hbefore.adopts hinit hno
    refine ⟨_, k', ht, hr, ?_, hsent _ _ rfl hl⟩
    have hout := TurnOutcome.hung (m := m) p status hp hw
    simp only [htab', htab]
    exact hout

/-- An exit where one does. -/
theorem exit_astray (h : Between k) (hu : nrTasks + nrNativeProcs ≤ pid.val)
    (hf : (k.procTable pid).pFlags = 0) (hm : m ≠ 0) (hs : ¬ Spares k pid (.exit status)) :
    turn mm k pid (.exit status) m = .error .wild := by
  obtain ⟨hpi, hwi, i, hi, hhi⟩ := not_not.1 hs
  have hinit : init ≠ pid := by
    rintro rfl
    exact absurd hu (by decide)
  have hused : (k.procTable pid).pFlags ≠ freeSlot := by
    rw [hf]
    decide
  obtain ⟨p, hp, hpp, hlv⟩ := h.parent pid hu hused
  have hinitp : init ≠ p := by
    rintro rfl
    exact hpi hp
  have hto : (k.procTable init).pSendto = noTask := ((h.state init).atMm_waiting hwi).pSendto
  have hipid : i ≠ pid := by
    rintro rfl
    exact hpp (proc2pid_inj (hp.symm.trans hi))
  have hip : i ≠ p := by
    rintro rfl
    exact hlv.alive hhi
  by_cases hw : Waiting (k.procTable p)
  · obtain ⟨k₁, hbefore, htab, -⟩ := exit_told mm status h hu hf hm hp hpp hlv.user
      ((h.state p).atMm_waiting hw)
    have hinit₁ : k₁.procTable init = k.procTable init := by rw [htab, if_neg hinit, if_neg hinitp]
    have hi₁ : k₁.procTable i = k.procTable i := by rw [htab, if_neg hipid, if_neg hip]
    exact hbefore.astray hinit.symm (by rwa [hinit₁]) ⟨by rwa [hi₁], by rwa [hinit₁], by rwa [hi₁]⟩
  · obtain ⟨k₁, hbefore, htab, -⟩ := exit_hung mm status h hu hf hm hp hpp hw
    have hinit₁ : k₁.procTable init = k.procTable init := by rw [htab, if_neg hinit]
    have hi₁ : k₁.procTable i = k.procTable i := by rw [htab, if_neg hipid]
    exact hbefore.astray hinit.symm (by rwa [hinit₁]) ⟨by rwa [hi₁], by rwa [hinit₁], by rwa [hi₁]⟩

theorem find?_false {α : Type} {p : α → Prop} [DecidablePred p] {l : List α}
    (h : l.find? (fun x => p x) = none) {x : α} (hx : x ∈ l) : ¬ p x := by
  simpa using List.find?_eq_none.1 h x hx

theorem woken_asked {x : Proc} (h : Idle x) (m : Addr) : woken (asked x m) = x :=
  woken_idle h m _

/-- A process of the first table has no parent whose flags could be read. -/
theorem exit_native (h : Between k) (hn : pid.val < nrTasks + nrNativeProcs) (hne : pid ≠ taskMm)
    (hf : (k.procTable pid).pFlags = 0) (hm : m ≠ 0) :
    turn mm k pid (.exit status) m = .error .wild := by
  obtain ⟨k₁, hask, -, ht₁, -⟩ := ask_spec mm h hne hf hm
  have hp : (k₁.procTable pid).pParent = noTask := by
    rw [ht₁, if_pos rfl]
    exact (h.native pid hn).2.2
  rw [turn, hask, ok_bind, serve, doExit, exitProc, hp]
  rfl

/-- What an answer is, where the memory manager sends nothing, -/
theorem repliesNone_nothing {k' : Kernel} {m₁ m₂ : Message} (hpid : pid ≠ taskMm)
    (hl : k'.log = .copied pid taskMm m₁ :: .call pid taskMm m₂ :: k.log) :
    ¬ RepliesNone k pid k' := by
  rintro ⟨new, m, hnew, hm, -⟩
  obtain rfl : new = [.copied pid taskMm m₁, .call pid taskMm m₂] :=
    List.append_cancel_right (hnew.symm.trans hl)
  rw [show mmCalls [.copied pid taskMm m₁, .call pid taskMm m₂] = [] from
    ask_mmCalls hpid m₁ m₂ []] at hm
  exact absurd hm List.not_mem_nil

/-- and where it sends a message. -/
theorem repliesNone_one {k' : Kernel} {x m' m₁ m₂ : Message} (hpid : pid ≠ taskMm)
    (hl : k'.log = .copied taskMm pid m' :: .call taskMm pid x :: .copied pid taskMm m₁ ::
      .call pid taskMm m₂ :: k.log) :
    RepliesNone k pid k' ↔
      x.type = MsgType.syscallRet.code ∧ x.m3i2 = BitVec.ofInt 32 noTask := by
  have hc : mmCalls [.copied taskMm pid m', .call taskMm pid x, .copied pid taskMm m₁,
      .call pid taskMm m₂] = [(pid, x)] :=
    ask_mmCalls hpid m₁ m₂ [.copied taskMm pid m', .call taskMm pid x]
  constructor
  · rintro ⟨new, m, hnew, hm, hx⟩
    obtain rfl : new = [.copied taskMm pid m', .call taskMm pid x, .copied pid taskMm m₁,
        .call pid taskMm m₂] := List.append_cancel_right (hnew.symm.trans hl)
    rw [hc, List.mem_singleton, Prod.mk.injEq] at hm
    rwa [← hm.2]
  · intro hx
    exact ⟨_, x, hl, by rw [hc]; exact List.mem_singleton.2 rfl, hx⟩

variable (mm) in
/-- A process that waits gets a report, or waits for one, or is told that it has no children. -/
theorem wait_spec (h : Between k) (hne : pid ≠ taskMm)
    (hf : (k.procTable pid).pFlags = 0) (hm : m ≠ 0) :
    ∃ d k', turn mm k pid .wait m = .ok (d, k') ∧ Ready k' ∧
      TurnOutcome k pid m d k'.procTable ∧ Sent k d k' ∧
      (RepliesNone k pid k' ↔ ∀ c, (k.procTable c).pParent ≠ proc2pid pid) ∧
      ((∀ c, (k.procTable c).pParent ≠ proc2pid pid) → k'.procTable = k.procTable) := by
  have hidle := h.idle hf
  obtain ⟨k₁, hask, hr₁, ht₁, m₁, m₂, hl₁⟩ := ask_spec mm h hne hf hm
  have hpar (c : Slot) : (k₁.procTable c).pParent = (k.procTable c).pParent := by
    rw [ht₁]
    split_ifs with hc
    · rw [hc]
      rfl
    · rfl
  have hself : k₁.procTable pid = asked (k.procTable pid) m := by rw [ht₁, if_pos rfl]
  have hquiet : ¬ Hanging (k₁.procTable pid) := by
    rw [hself, Hanging]
    simp only [asked]
    decide
  have haw : Awaiting (k₁.procTable pid) (proc2pid taskMm) := by
    rw [hself]
    exact ⟨rfl, hm, rfl, hidle.pSendto⟩
  rcases hc : findHanging k₁ pid with ⟨c | c, b⟩
  · have hno : ∀ c, (k.procTable c).pParent = proc2pid pid → ¬ Hanging (k.procTable c) := by
      intro c hp hh
      by_cases hcp : c = pid
      · exact hidle.quiet.1 (hcp ▸ hh)
      refine find?_false (congrArg Prod.fst hc) (List.mem_finRange c) ⟨hpar c ▸ hp, ?_⟩
      rw [ht₁, if_neg hcp]
      exact hh
    cases b with
    | true =>
      have hturn : turn mm k pid .wait m = .ok (⟨pid, .wait, none, []⟩, waitProc k₁ pid) := by
        simp only [turn, serve, doWait, hask, hc, ok_bind]
      have hout : (waitProc k₁ pid).procTable = fun q => if q = pid then
          { asked (k.procTable pid) m with pFlags := receiving ||| waiting }
          else k.procTable q := by
        funext q
        rw [waitProc, Kernel.set_procTable, hself, ht₁]
        split_ifs <;> rfl
      have hchild : ¬ ∀ c, (k.procTable c).pParent ≠ proc2pid pid := by
        obtain ⟨c, -, hp⟩ := List.any_eq_true.1 (congrArg Prod.snd hc)
        exact fun hall => hall c ((hpar c).symm.trans (of_decide_eq_true hp))
      refine ⟨_, _, hturn, h.toReady.of_table hr₁.kReenter ?_ fun q _ => ?_, ?_,
        .nothing hne rfl hl₁, iff_of_false (repliesNone_nothing hne hl₁) hchild,
        fun hall => absurd hall hchild⟩
      · rw [hout]
        exact if_neg hne.symm
      · rw [hout]
        simp only
        split_ifs with hq
        · rw [hq]
          rfl
        · rfl
      · rw [hout]
        exact .waits hno
    | false =>
      obtain ⟨k₂, m₃, m₄, hs, hr₂, ht₂, hl₂⟩ := mmSend_spec hr₁ mm.msg_ne hne haw fun m =>
        { m with type := MsgType.syscallRet.code, m3i2 := BitVec.ofInt 32 noTask }
      have hturn : turn mm k pid .wait m = .ok (⟨pid, .wait, none, []⟩, k₂) := by
        simp only [turn, serve, doWait, hask, hc, hs, ok_bind]
      have hout : k₂.procTable = k.procTable := by
        funext q
        rw [ht₂, hself, woken_asked hidle, ht₁]
        split_ifs with hq
        · rw [hq]
        · rfl
      have hchildless (c : Slot) : (k.procTable c).pParent ≠ proc2pid pid := by
        intro hp
        have hall := List.any_eq_false.1 (congrArg Prod.snd hc) c (List.mem_finRange c)
        exact hall (decide_eq_true (hpar c ▸ hp))
      rw [hl₁] at hl₂
      refine ⟨_, k₂, hturn, hr₂, ?_, .one hne ?_ hl₂,
        iff_of_true ((repliesNone_one hne hl₂).2 ⟨rfl, rfl⟩) hchildless, fun _ => hout⟩
      · rw [hout]
        exact .childless hchildless
      · -- the message names no process
        exact .nil
  · have hfound := List.find?_some (congrArg Prod.fst hc)
    obtain ⟨hp, hh⟩ := of_decide_eq_true hfound
    have hcp : c ≠ pid := by
      rintro rfl
      exact hquiet hh
    have hcm : c ≠ taskMm := by
      rintro rfl
      exact (h.native taskMm (by decide)).2.1 (by rwa [ht₁, if_neg hcp] at hh)
    have hself_c : k₁.procTable c = k.procTable c := by rw [ht₁, if_neg hcp]
    obtain ⟨k₂, m₃, m₄, hcl, hr₂, ht₂, hl₂⟩ := cleanup_spec mm hr₁ hp hcp hcm hne haw
    rw [hself_c] at hcl hl₂ ht₂
    have hturn : turn mm k pid .wait m =
        .ok (⟨pid, .wait, none, [⟨c, proc2pid pid, (k.procTable c).exitStatus⟩]⟩, k₂) := by
      simp only [turn, serve, doWait, hask, hc, hcl, ok_bind]
    have hout : k₂.procTable = fun q =>
        if q = c then { k.procTable c with pFlags := freeSlot } else k.procTable q := by
      funext q
      rw [ht₂, hself, woken_asked hidle, ht₁]
      split_ifs with h1 h2
      · rfl
      · rw [h2]
      · rfl
    rw [hl₁] at hl₂
    refine ⟨_, k₂, hturn, hr₂, ?_, .one hne (Report.Is.forall₂ ⟨rfl, rfl, rfl, rfl⟩) hl₂,
      iff_of_false (fun hr => ?_) fun hall => hall c (hpar c ▸ hp),
      fun hall => absurd (hpar c ▸ hp) (hall c)⟩
    · rw [hout]
      exact .reaped c (hpar c ▸ hp) (hself_c ▸ hh)
    · exact ofInt_proc2pid_ne_noTask c ((repliesNone_one hne hl₂).1 hr).2

/-- The first free entry depends on which entries are free. -/
theorem findFree_congr {k k' : Kernel}
    (h : ∀ q, (k'.procTable q).pFlags = freeSlot ↔ (k.procTable q).pFlags = freeSlot) :
    findFree k' = findFree k := by
  unfold findFree
  congr 1
  funext q
  exact decide_eq_decide.2 (h q)

/-- A fork that does not stop makes a child like its parent, or finds no room for it. -/
theorem fork_spec (h : Between k) (hne : pid ≠ taskMm)
    (hf : (k.procTable pid).pFlags = 0) (hm : m ≠ 0) {d : Done} {k' : Kernel}
    (ht : turn mm k pid .fork m = .ok (d, k')) :
    d.request = .fork ∧ Ready k' ∧ TurnOutcome k pid m d k'.procTable := by
  have hidle := h.idle hf
  obtain ⟨k₁, hask, hr₁, ht₁, m₁, m₂, hl₁⟩ := ask_spec mm h hne hf hm
  have hself : k₁.procTable pid = asked (k.procTable pid) m := by rw [ht₁, if_pos rfl]
  have haw : Awaiting (asked (k.procTable pid) m) (proc2pid taskMm) :=
    ⟨rfl, hm, rfl, hidle.pSendto⟩
  have hfree : findFree k₁ = findFree k := findFree_congr fun q => by
    rw [ht₁]
    split_ifs with hq
    · rw [hq, hf]
      simp only [asked]
      decide
    · rfl
  rw [turn, hask, ok_bind, serve, bind_eq_ok] at ht
  obtain ⟨⟨child, k₀⟩, hfork, ht⟩ := ht
  simp only [Except.ok.injEq, Prod.mk.injEq] at ht
  obtain ⟨rfl, rfl⟩ := ht
  rw [doFork, bind_eq_ok] at hfork
  obtain ⟨⟨c | c, k₂⟩, hproc, hfork⟩ := hfork
  · obtain ⟨hnone, rfl⟩ := forkProc_none hproc
    obtain ⟨k₃, m₃, m₄, hs, hr₃, ht₃, -⟩ := mmSend_spec hr₁ mm.mmMsg_ne hne (hself ▸ haw) fun m =>
      { m with type := MsgType.syscallRet.code, m3i1 := -1 }
    simp only [hs, ok_bind, Except.ok.injEq, Prod.mk.injEq] at hfork
    obtain ⟨rfl, rfl⟩ := hfork
    refine ⟨rfl, hr₃, ?_⟩
    have hout : k₃.procTable = k.procTable := by
      funext q
      rw [ht₃, hself, woken_asked hidle, ht₁]
      split_ifs with hq
      · rw [hq]
      · rfl
    rw [hout]
    exact .full (hfree ▸ hnone)
  · obtain ⟨hc, -, hkr, hn, name, ldts, -, ht₂⟩ := forkProc_some hproc
    rw [hself] at ht₂
    have hcp : c ≠ pid := by
      rintro rfl
      exact absurd (hf.symm.trans (findFree_some (hfree ▸ hc))) (by decide)
    have hcm : c ≠ taskMm := by
      rintro rfl
      exact absurd hn (by decide)
    have hr₂ : Ready k₂ := by
      refine hr₁.of_table (hkr.trans hr₁.kReenter) ?_ fun q hq => ?_
      · rw [ht₂, if_neg hcm.symm]
      · have hqc : q ≠ c := by
          rintro rfl
          omega
        rw [ht₂, if_neg hqc]
    have hawc : Awaiting (k₂.procTable c) (proc2pid taskMm) := by
      rw [ht₂, if_pos rfl]
      exact ⟨haw.pFlags, haw.pMsg, haw.pRecvfrom, haw.pSendto⟩
    obtain ⟨k₃, m₃, m₄, hs₃, hr₃, ht₃, -⟩ := mmSend_spec hr₂ mm.msg_ne hcm hawc fun m =>
      { m with type := MsgType.syscallRet.code, m3i1 := 0, m3i2 := 0 }
    have hawp : Awaiting (k₃.procTable pid) (proc2pid taskMm) := by
      rw [ht₃, if_neg hcp.symm, ht₂, if_neg hcp.symm, hself]
      exact haw
    obtain ⟨k₄, m₅, m₆, hs₄, hr₄, ht₄, -⟩ := mmSend_spec hr₃ mm.mmMsg_ne hne hawp fun m =>
      { m with
        type := MsgType.syscallRet.code
        m3i1 := 0
        m3i2 := BitVec.ofInt 32 (proc2pid c) }
    simp only [hs₃, hs₄, ok_bind, Except.ok.injEq, Prod.mk.injEq] at hfork
    obtain ⟨rfl, rfl⟩ := hfork
    refine ⟨rfl, hr₄, ?_⟩
    have hchild : woken (childProc (asked (k.procTable pid) m) pid name ldts) =
        childProc (k.procTable pid) pid name ldts := by
      rw [← congrArg (childProc · pid name ldts) (woken_asked hidle m)]
      rfl
    have hout : k₄.procTable = fun q => if q = c then
        childProc (k.procTable pid) pid name ldts else k.procTable q := by
      funext q
      rw [ht₄, ht₃, ht₃, ht₂, ht₂, ht₂, if_neg hcp.symm, if_neg hcp.symm, if_pos rfl, hchild, hself,
        woken_asked hidle, ht₁]
      by_cases h1 : q = pid
      · rw [if_pos h1, h1, if_neg hcp.symm]
      · rw [if_neg h1, if_neg h1]
        split_ifs <;> rfl
    rw [hout]
    exact .forked c name ldts (hfree ▸ hc) hn

end MyOS
