import MyOS.Proofs.Asserts
import MyOS.Proofs.ProcRuns

/-!
# The process numbers the kernel indexes with

`sys_sendrec` admits `ANY` and `INTERRUPT` for both functions. A receiver compares them with what it
finds; a sender takes them for the number of a process, and `deadlock` reads the table there. What
`deadlock` finds on its way is the number of a process as long as every process that sends has one
in `p_sendto`, which a run keeps unless an adoption sets the flags of `INIT` under it.
-/

namespace MyOS

open Memory Pointer

/-! ## Staying in the table -/

/-- It follows no number to outside the table. -/
def NoWild {α : Type} (x : Except Fault α) : Prop := x ≠ .error .wild

/-- All that stops it is an assertion, or a walk without an end. -/
def Stops {α : Type} (x : Except Fault α) : Prop :=
  ∀ e, x = .error e → e = .assertion ∨ e = .spin

namespace Stops

theorem ok {α : Type} (a : α) : Stops (.ok a : Except Fault α) := nofun

theorem spin {α : Type} : Stops (.error .spin : Except Fault α) := by
  rintro e ⟨⟩
  exact .inr rfl

theorem assertion {α : Type} : Stops (.error .assertion : Except Fault α) := by
  rintro e ⟨⟩
  exact .inl rfl

theorem assert (c : Prop) [Decidable c] : Stops (assert c) := by
  unfold MyOS.assert
  split_ifs
  · exact ok ()
  · exact assertion

theorem bind {α β : Type} {x : Except Fault α} {f : α → Except Fault β} (hx : Stops x)
    (hf : ∀ a, x = .ok a → Stops (f a)) : Stops (x >>= f) := by
  cases hxa : x with
  | error e =>
    rintro e' ⟨⟩
    exact hx _ hxa
  | ok a => exact hf a hxa

theorem assert_bind {β : Type} {c : Prop} [Decidable c] {f : Unit → Except Fault β}
    (hf : c → Stops (f ())) : Stops (MyOS.assert c >>= f) :=
  bind (assert c) fun _ hc => hf (assert_eq_ok.1 hc)

theorem noWild {α : Type} {x : Except Fault α} (hx : Stops x) : NoWild x :=
  fun he => absurd (hx _ he) (by decide)

theorem noPanic {α : Type} {x : Except Fault α} (hx : Stops x) : x ≠ .error .panic :=
  fun he => absurd (hx _ he) (by decide)

end Stops

namespace NoWild

theorem bind {α β : Type} {x : Except Fault α} {f : α → Except Fault β} (hx : NoWild x)
    (hf : ∀ a, x = .ok a → NoWild (f a)) : NoWild (x >>= f) := by
  cases hxa : x with
  | error e => exact fun he => hx (hxa.trans (Except.error.inj he ▸ rfl))
  | ok a => exact hf a hxa

theorem assert_bind {β : Type} {c : Prop} [Decidable c] {f : Unit → Except Fault β}
    (hf : c → NoWild (f ())) : NoWild (MyOS.assert c >>= f) :=
  bind (Stops.assert c).noWild fun _ hc => hf (assert_eq_ok.1 hc)

end NoWild

variable {k k' : Kernel}

theorem stops_va2la (k : Kernel) (p : Slot) (va : Addr) : Stops (va2la k p va) := by
  unfold va2la
  dsimp only
  split_ifs
  · exact .assert_bind fun _ => .ok _
  · exact .ok _

theorem stops_physCopy (k : Kernel) (d p : Slot) (va' va : Addr) :
    Stops (physCopy k d va' p va) :=
  .bind (stops_va2la _ _ _) fun _ _ => .bind (stops_va2la _ _ _) fun _ _ => .ok _

theorem stops_deliver (k : Kernel) (s d : Slot) (m : Addr) : Stops (deliver k s d m) := by
  unfold deliver unblock
  refine .assert_bind fun _ => .assert_bind fun _ => .bind (stops_physCopy _ _ _ _ _) fun _ _ => ?_
  iterate 9 refine .assert_bind fun _ => ?_
  exact .ok _

theorem stops_enqueue (k : Kernel) (d s : Slot) : Stops (enqueue k d s) := by
  unfold enqueue
  split
  · split
    · exact .ok _
    · exact .spin
  · exact .ok _

theorem stops_blockSending (k : Kernel) (s d : Slot) (m : Addr) :
    Stops (blockSending k s d m) := by
  unfold blockSending block
  refine .assert_bind fun _ => .bind (stops_enqueue _ _ _) fun _ _ => ?_
  iterate 5 refine .assert_bind fun _ => ?_
  exact .ok _

theorem stops_assertRendezvous (k : Kernel) (p s : Slot) : Stops (assertRendezvous k p s) := by
  unfold assertRendezvous
  iterate 8 refine .assert_bind fun _ => ?_
  exact .assert _

/-- The source is looked up where it is the number of a process, and only there. -/
theorem stops_chooseSender (k : Kernel) (p : Slot) (src : Int) :
    Stops (chooseSender k p src) := by
  unfold chooseSender
  split_ifs with hany hsrc
  · split
    · exact .bind (stops_assertRendezvous _ _ _) fun _ _ => .ok _
    · exact .ok _
  · obtain ⟨s, hs⟩ : ∃ s, procAt src = .ok s := by
      unfold procAt
      rw [dif_pos ⟨hsrc.1, by omega⟩]
      exact ⟨_, rfl⟩
    rw [hs, ok_bind]
    split_ifs
    · refine .assert_bind fun _ => ?_
      split
      · exact .spin
      · exact .bind (stops_assertRendezvous _ _ _) fun _ _ => .ok _
    · exact .ok _
  · exact .ok _

theorem stops_unlink (k : Kernel) (p s : Slot) (prev : Option Slot) :
    Stops (unlink k p s prev) := by
  unfold unlink
  dsimp only
  split_ifs
  · exact .assert_bind fun _ => .ok _
  · cases prev with
    | none => exact .assertion
    | some q => exact .ok _

/-- A receiver reads the table nowhere but at processes. -/
theorem stops_msgReceive (k : Kernel) (p : Slot) (src : Int) (m : Addr) :
    Stops (msgReceive k p src m) := by
  unfold msgReceive
  refine .assert_bind fun _ => ?_
  split_ifs
  · unfold receiveInterrupt
    refine .assert_bind fun _ => .bind (stops_va2la _ _ _) fun _ _ => ?_
    iterate 4 refine .assert_bind fun _ => ?_
    exact .ok _
  · refine .bind (stops_chooseSender k p src) fun c _ => ?_
    rcases c with _ | ⟨s, prev⟩
    · unfold blockReceiving block
      iterate 5 refine .assert_bind fun _ => ?_
      exact .ok _
    · unfold takeMessage unblock
      refine .bind (stops_unlink _ _ _ _) fun _ _ => .assert_bind fun _ => .assert_bind fun _ => ?_
      exact .bind (stops_physCopy _ _ _ _ _) fun _ _ => .assert_bind fun _ => .ok _

/-! ## The walk of deadlock -/

/-- Each process that sends has the number of a process in `p_sendto`. -/
def SendtoProc (k : Kernel) : Prop :=
  ∀ p, Sending (k.procTable p) → ∃ d, (k.procTable p).pSendto = proc2pid d

/-- The report of a cycle looks up one number before it stops. -/
theorem noWild_printCycle {src p d : Slot} (hk : k.kReenter = 0)
    (hd : (k.procTable p).pSendto = proc2pid d) (n : ℕ) : NoWild (printCycle k src n p) := by
  cases n with
  | zero => exact Stops.spin.noWild
  | succ n =>
    rw [printCycle, hd, procAt_proc2pid]
    refine .assert_bind fun _ => ?_
    rw [ok_bind, printf, save_kReenter, hk]
    exact Stops.assertion.noWild

theorem noWild_deadlockLoop (ht : SendtoProc k) (hk : k.kReenter = 0) {src dest d : Slot}
    (hd : (k.procTable dest).pSendto = proc2pid d) (n : ℕ) (p : Slot) :
    NoWild (deadlockLoop k src dest n p) := by
  induction n generalizing p with
  | zero => exact Stops.spin.noWild
  | succ n ih =>
    rw [deadlockLoop]
    split_ifs with hs hsrc
    · exact .bind (noWild_printCycle hk hd _) fun _ _ =>
        .bind (Stops.assert _).noWild fun _ _ => (Stops.ok _).noWild
    · obtain ⟨q, hq⟩ := ht p hs
      rw [hq, procAt_proc2pid, ok_bind]
      exact ih q
    · exact (Stops.ok _).noWild

theorem noWild_deadlock (ht : SendtoProc k) (hk : k.kReenter = 0) (src dest : Slot) :
    NoWild (deadlock k src dest) := by
  by_cases hs : Sending (k.procTable dest)
  · obtain ⟨d, hd⟩ := ht dest hs
    exact noWild_deadlockLoop ht hk hd _ _
  · rw [deadlock_of_not_sending (not_not.1 hs)]
    exact nofun

theorem noWild_msgSend (ht : SendtoProc k) (hk : k.kReenter = 0) (s d : Slot) (m : Addr) :
    NoWild (msgSend k s (proc2pid d) m) := by
  unfold msgSend
  rw [procAt_proc2pid, ok_bind]
  refine .assert_bind fun _ => .bind (noWild_deadlock (k := k.note _) ht hk s d) fun b _ => ?_
  split_ifs
  · exact nofun
  · exact (stops_deliver _ _ _ _).noWild
  · exact (stops_blockSending _ _ _ _).noWild

/-! ## The trap -/

/-- What the assertion of `sys_sendrec` admits. -/
def Admitted (srcDest : Int) : Prop :=
  (0 ≤ srcDest ∧ srcDest < nrTasks + nrProcs) ∨ srcDest = any ∨ srcDest = interrupt

/-- Between two traps, with every number in the table that `deadlock` may follow that of a
process. -/
structure Indexed (k : Kernel) : Prop where
  kReenter : k.kReenter = -1
  base : NativeBase k
  sendto : SendtoProc k

theorem Indexed.save_kReenter (h : Indexed k) : (save k).kReenter = 0 := by
  rw [MyOS.save_kReenter, h.kReenter]
  rfl

/-- A trap stays in the table just when it receives, or sends to a process. -/
theorem Indexed.sysSendrec (h : Indexed k) {function : Function} (hf : function ≠ .other)
    {srcDest : Int} (ha : Admitted srcDest) (m : Addr) (p : Slot) :
    NoWild (sysSendrec (save k) function srcDest m p) ↔
      (function = .send → 0 ≤ srcDest ∧ srcDest < nrTasks + nrProcs) := by
  constructor
  · rintro hno rfl
    by_contra hout
    have hsrc : srcDest = any ∨ srcDest = interrupt := ha.resolve_left hout
    have hne : BitVec.ofInt 32 (proc2pid p) ≠ BitVec.ofInt 32 srcDest := by
      intro he
      have hp := congrArg BitVec.toNat he
      rw [ofInt_proc2pid] at hp
      have hlt : p.val < 37 := p.isLt
      rcases hsrc with rfl | rfl
      · rw [show (BitVec.ofInt 32 any).toNat = 47 from rfl] at hp
        omega
      · rw [show (BitVec.ofInt 32 interrupt).toNat = 4294967286 from rfl] at hp
        omega
    have hwild : procAt srcDest = .error .wild := by
      rcases hsrc with rfl | rfl <;> rfl
    refine hno ((sysSendrec_eq .send h.save_kReenter ha (h.base.va2la p m) hne).trans ?_)
    rw [msgSend, hwild]
    rfl
  · intro hd
    unfold MyOS.sysSendrec
    refine .assert_bind fun _ => .assert_bind fun _ => .bind (stops_va2la _ _ _).noWild fun _ _ =>
      .assert_bind fun _ => ?_
    cases function with
    | send =>
      obtain ⟨h0, hlt⟩ := hd rfl
      obtain ⟨d, rfl⟩ : ∃ d : Slot, srcDest = proc2pid d :=
        ⟨⟨srcDest.toNat, by omega⟩, by simp [proc2pid, h0]⟩
      exact noWild_msgSend (k := stamp (save k) p _) h.sendto h.save_kReenter p d m
    | receive => exact (stops_msgReceive _ _ _ _).noWild
    | other => exact absurd rfl hf

/-! ## Runs -/

theorem SendtoProc.of_sendto (h : SendtoProc k) (hk : ∀ q, Sending (k'.procTable q) →
    Sending (k.procTable q) ∧ (k'.procTable q).pSendto = (k.procTable q).pSendto ∨
      ∃ d, (k'.procTable q).pSendto = proc2pid d) : SendtoProc k' := by
  intro q hq
  rcases hk q hq with ⟨hs, hto⟩ | hd
  · rw [hto]
    exact h q hs
  · exact hd

/-- A sender gets its target when it blocks; nobody else starts to send. -/
theorem SendtoProc.sendrec (h : SendtoProc k) {p : Slot} {m src : Addr} {function : Function}
    {srcDest : Int} (ho : SendrecOutcome k p m src function srcDest k') : SendtoProc k' := by
  refine h.of_sendto fun q hq => ?_
  cases ho with
  | send d k' hne hdl ho =>
    cases ho with
    | handOff dst _ _ _ hf =>
      rw [handOff_procTable] at hq ⊢
      by_cases hqd : q = d
      · subst hqd
        simp only [Sending, if_pos] at hq
        exact absurd (by rw [hf]; decide) hq
      · simp only [Sending, if_neg hqd] at hq
        exact .inl ⟨hq, rfl⟩
    | queueUp last =>
      rw [queueUp_procTable] at hq ⊢
      by_cases hqp : q = p
      · exact .inr ⟨d, if_pos hqp⟩
      · simp only [Sending, if_neg hqp] at hq
        exact .inl ⟨hq, if_neg hqp⟩
  | receive srcDest k' ho =>
    cases ho with
    | takeInterrupt => by_cases hqp : q = p <;> simp_all [Sending, takeInterrupt]
    | takeFrom s prev a _ _ _ hf =>
      rw [takeFrom_procTable] at hq ⊢
      by_cases hqs : q = s
      · subst hqs
        simp only [Sending, if_pos] at hq
        rw [hf] at hq
        exact absurd (by decide) hq
      · simp only [Sending, if_neg hqs] at hq
        exact .inl ⟨hq, if_neg hqs⟩
    | waitFor =>
      by_cases hqp : q = p
      · exact absurd (by simp only [waitFor, Kernel.set_procTable, if_pos hqp]; decide) hq
      · simp_all [Sending, waitFor]

theorem SendtoProc.informInt (h : SendtoProc k) {t : Slot} (ho : InformOutcome k t k') :
    SendtoProc k' := by
  refine h.of_sendto fun q hq => ?_
  cases ho with
  | wake _ hf =>
    by_cases hqt : q = t
    · subst hqt
      exact absurd (by simpa [wake] using congrArg (· &&& sending) hf) hq
    · simp_all [Sending, wake]
  | pend => by_cases hqt : q = t <;> simp_all [Sending, pend]

theorem SendtoProc.sameIpc (h : SendtoProc k)
    (hk : ∀ q, SameIpc (k.procTable q) (k'.procTable q)) : SendtoProc k' :=
  h.of_sendto fun q hq => .inl ⟨by rwa [Sending, (hk q).sending] at hq, (hk q).pSendto⟩

/-- An adoption that sets the flags of `INIT`, `SENDING` too, while its `p_sendto` is no process. -/
def MisleadsInit (k : Kernel) : MmAct → Prop
  | .adopt pid i => HangingOrphan k pid i ∧ ∀ d, (k.procTable init).pSendto ≠ proc2pid d
  | _ => False

theorem Indexed.step {a : Act} (h : Indexed k) (hs : Step k a k') : Indexed k' := by
  have hbase : NativeBase k' := fun q hq => by rw [step_ldts hs, h.base q hq]
  rcases step_cases hs with ⟨p, function, srcDest, m, -, -, hs⟩ | ⟨t, -, hi⟩ | ⟨mem, -, rfl⟩
  · obtain ⟨src, k₁, -, ho, rfl⟩ := sendrec_ok hs
    refine ⟨?_, hbase, ?_⟩
    · rw [restart_kReenter, ho.kReenter, h.save_kReenter]
      rfl
    · exact @SendtoProc.sendrec (save k) k₁ h.sendto _ _ _ _ _ ho
  · have ho := informInt_ok hi
    refine ⟨?_, hbase, SendtoProc.informInt (k := k.note (.informed t)) h.sendto ho⟩
    cases ho <;> exact h.kReenter
  · exact ⟨h.kReenter, hbase, h.sendto⟩

variable {mm : MmEnv} {a : MmAct}

theorem Indexed.fork (h : Indexed k) {pid : Slot} (hs : MmStep mm k (.fork pid) k') :
    Indexed k' := by
  simp only [MmStep, MyOS.mmStep] at hs
  split_ifs at hs
  obtain ⟨⟨c, k₁⟩, hf, rfl⟩ := Option.map_eq_some_iff.1 hs
  rw [toOption_eq_some] at hf
  cases c with
  | none =>
    obtain ⟨-, rfl⟩ := forkProc_none hf
    exact h
  | some c =>
    obtain ⟨-, -, hre, hc, name, ldts, -, hk⟩ := forkProc_some hf
    refine ⟨hre.trans h.kReenter, fun q hq => ?_, fun q hq => ?_⟩
    · rw [hk, if_neg (by rintro rfl; omega)]
      exact h.base q hq
    · -- the child sends just where its parent does, and to the same process
      rw [hk] at hq ⊢
      split_ifs at hq ⊢
      · exact h.sendto pid hq
      · exact h.sendto q hq

/-- A write to the entries that neither a segment nor what messages look at is part of. -/
theorem Indexed.sameIpc (h : Indexed k) (hre : k'.kReenter = k.kReenter)
    (hk : ∀ q, SameIpc (k.procTable q) (k'.procTable q))
    (hldts : ∀ q, (k'.procTable q).ldts = (k.procTable q).ldts) : Indexed k' :=
  ⟨hre.trans h.kReenter, fun q hq => by rw [hldts, h.base q hq], h.sendto.sameIpc hk⟩

theorem exitProc_ldts {pid : Slot} {status : BitVec 32} {b : Bool}
    (h : exitProc k pid status = .ok (b, k')) : k'.kReenter = k.kReenter ∧
      ∀ q, (k'.procTable q).ldts = (k.procTable q).ldts := by
  obtain ⟨parent, -, h⟩ := bind_eq_ok.1 h
  dsimp only at h
  split_ifs at h <;> obtain ⟨-, rfl⟩ := Prod.mk.inj (Except.ok.inj h) <;>
    refine ⟨rfl, fun q => ?_⟩ <;> simp only [Kernel.set_procTable] <;> split_ifs <;> simp_all

theorem Indexed.mmStep (h : Indexed k) (hs : MmStep mm k a k') (hok : ¬ MisleadsInit k a) :
    Indexed k' := by
  cases a with
  | kernel a => exact h.step hs
  | fork pid => exact h.fork hs
  | exit pid status =>
    simp only [MmStep, MyOS.mmStep] at hs
    split_ifs at hs
    obtain ⟨⟨b, k₁⟩, he, rfl⟩ := Option.map_eq_some_iff.1 hs
    rw [toOption_eq_some] at he
    obtain ⟨hre, hldts⟩ := exitProc_ldts he
    exact h.sameIpc hre (exitProc_ok he).2 hldts
  | adopt pid i =>
    simp only [MmStep, MyOS.mmStep] at hs
    split_ifs at hs
    obtain rfl := Option.some.inj hs
    by_cases ho : HangingOrphan k pid i
    · rw [adopt_orphan ho]
      obtain ⟨d, hd⟩ : ∃ d, (k.procTable init).pSendto = proc2pid d := by
        by_contra hno
        exact hok ⟨ho, fun d hd => hno ⟨d, hd⟩⟩
      refine ⟨h.kReenter, fun q hq => ?_, h.sendto.of_sendto fun q hq => ?_⟩
      · rw [← h.base q hq]
        simp only [Kernel.set_procTable]
        split_ifs <;> simp_all
      · by_cases hqi : q = init
        · right
          refine ⟨d, ?_⟩
          rw [hqi, Kernel.set_procTable, if_pos rfl, ← hd, Kernel.set_procTable]
          split_ifs with hi
          · rw [hi]
          · rfl
        · left
          simp only [Kernel.set_procTable, Sending, if_neg hqi] at hq ⊢
          split_ifs at hq ⊢ with hi
          · rw [hi]
            exact ⟨hq, rfl⟩
          · exact ⟨hq, rfl⟩
    · rw [adopt_eq ho]
      dsimp only
      split_ifs
      · refine h.sameIpc rfl (SameIpc.set ⟨rfl, rfl, rfl, rfl, rfl, rfl, rfl, rfl⟩) fun q => ?_
        rw [Kernel.set_procTable]
        split_ifs with hq
        · rw [hq]
        · rfl
      · exact h
  | free p =>
    simp only [MmStep, MyOS.mmStep] at hs
    split_ifs at hs
    obtain rfl := Option.some.inj hs
    refine ⟨h.kReenter, fun q hq => ?_, h.sendto.of_sendto fun q hq => ?_⟩
    · rw [← h.base q hq, freeProc, Kernel.set_procTable]
      split_ifs with hqp
      · rw [hqp]
      · rfl
    · simp only [freeProc, Kernel.set_procTable, Sending] at hq ⊢
      split_ifs at hq ⊢
      · exact absurd (show freeSlot &&& sending = 0 by decide) hq
      · exact .inl ⟨hq, rfl⟩
  | wait pid =>
    simp only [MmStep, MyOS.mmStep] at hs
    split_ifs at hs
    obtain rfl := Option.some.inj hs
    refine h.sameIpc rfl (SameIpc.set (.setFlag _ (by decide) (by decide) (by decide))) fun q => ?_
    rw [waitProc, Kernel.set_procTable]
    split_ifs with hq
    · rw [hq]
    · rfl

/-- An exec writes a name, and memory. -/
theorem doExec_kReenter {fs fs' : Fs} {src : Slot} {retval : Int}
    (h : doExec mm fs k src = .ok (retval, fs', k')) : k'.kReenter = k.kReenter := by
  unfold doExec at h
  obtain ⟨path, -, h⟩ := bind_eq_ok.1 h
  obtain ⟨⟨size, fs₁, mem⟩, -, h⟩ := bind_eq_ok.1 h
  cases size with
  | none =>
    obtain ⟨-, -, rfl⟩ := Except.ok.inj h
    rfl
  | some size =>
    obtain ⟨mem₁, -, h⟩ := bind_eq_ok.1 h
    obtain ⟨mem₂, -, h⟩ := bind_eq_ok.1 h
    split_ifs at h
    obtain ⟨-, -, rfl⟩ := Except.ok.inj h
    rfl

/-- Also among the requests for an exec. -/
def PmMisleads (k : Kernel) : PmAct → Prop
  | .other a => MisleadsInit k a
  | _ => False

theorem Indexed.pmStep {a : PmAct} (h : Indexed k) (hs : PmStep mm k a k')
    (hok : ¬ PmMisleads k a) : Indexed k' := by
  cases a with
  | fork pid child =>
    have hfork : MmStep mm k (.fork pid) k' := by
      simp only [MmStep, MyOS.mmStep, if_pos hs.1, hs.2]
      rfl
    exact h.fork hfork
  | exec fs src path =>
    have ho := pmStep_outcome hs
    obtain ⟨-, -, retval, fs', hexec⟩ := hs
    have hre := doExec_kReenter hexec
    cases ho with
    | renamed _ _ path _ _ ht =>
      refine h.sameIpc hre (fun q => ?_) fun q => ?_ <;> rw [ht] <;> split_ifs with hq
      · rw [hq]
        exact ⟨rfl, rfl, rfl, rfl, rfl, rfl, rfl, rfl⟩
      · exact .refl _
      · rw [hq]
      · rfl
    | refused _ _ _ ht =>
      refine h.sameIpc hre (fun q => ?_) fun q => by rw [ht]
      rw [ht]
      exact .refl _
  | other a => exact h.mmStep hs.2 hok

theorem Indexed.start (mem : Mem) (limit : BitVec 32) : Indexed (kernelMain mem limit) := by
  refine ⟨rfl, .start mem limit, fun p hp => ?_⟩
  obtain ⟨-, -, -, hf | ⟨hf, -⟩⟩ := kernelMain_proc mem limit p <;>
    exact absurd (by rw [hf]; decide) hp

theorem procAt_wild {pid : Int} (h : ∀ d, pid ≠ proc2pid d) : procAt pid = .error .wild := by
  unfold procAt
  refine dif_neg fun hp => h ⟨pid.toNat, hp.2⟩ ?_
  simp [proc2pid, hp.1]

/-- A walk that starts at a sender to no process goes astray. -/
theorem sysSendrec_astray (hk : k.kReenter = -1) (hb : NativeBase k) {p d : Slot} (hpd : p ≠ d)
    (hs : Sending (k.procTable d)) (hto : ∀ x, (k.procTable d).pSendto ≠ proc2pid x) (m : Addr) :
    sysSendrec (save k) .send (proc2pid d) m p = .error .wild := by
  have hk0 : (save k).kReenter = 0 := by
    rw [save_kReenter, hk]
    rfl
  have hne : proc2pid p ≠ proc2pid d := fun he => hpd (proc2pid_inj he)
  have hwalk (e : Event) :
      deadlock ((stamp (save k) p (((k.procTable p).ldts 1).linear + m)).note e) p d =
        .error .wild := by
    rw [deadlock, show nrTasks + nrProcs = 36 + 1 from rfl, deadlockLoop]
    refine (if_pos hs).trans ((if_neg (hto p)).trans ?_)
    change (procAt (k.procTable d).pSendto >>= _) = _
    rw [procAt_wild hto]
    rfl
  refine (sysSendrec_eq .send hk0 (.inl (proc2pid_range d)) (hb.va2la p m)
    (ofInt_proc2pid_ne hpd)).trans ?_
  simp only [msgSend, procAt_proc2pid, ok_bind, assert_of hne, hwalk]
  rfl

/-- After such an adoption the next message to `INIT` is looked up outside the table. -/
theorem Indexed.misled (h : Indexed k) (hs : MmStep mm k a k') (hm : MisleadsInit k a) {p : Slot}
    (hp : p ≠ init) (m : Addr) :
    MyOS.sysSendrec (save k') .send (proc2pid init) m p = .error .wild := by
  cases a with
  | adopt pid i =>
    obtain ⟨ho, hto⟩ := hm
    simp only [MmStep, MyOS.mmStep, adopt_orphan ho] at hs
    split_ifs at hs
    obtain rfl := Option.some.inj hs
    have hk : ((k.set i fun p => { p with pParent := proc2pid init }).set init
        fun p => { p with pFlags := ~~~waiting }).kReenter = -1 := h.kReenter
    generalize hk' : (k.set i fun p => { p with pParent := proc2pid init }).set init
      (fun p => { p with pFlags := ~~~waiting }) = k₁ at hk
    have htable (q : Slot) : (k₁.procTable q).ldts = (k.procTable q).ldts ∧
        (k₁.procTable q).pSendto = (k.procTable q).pSendto := by
      rw [← hk']
      simp only [Kernel.set_procTable]
      split_ifs <;> simp_all
    have hflags : (k₁.procTable init).pFlags = ~~~waiting := by
      rw [← hk', Kernel.set_procTable, if_pos rfl]
    refine sysSendrec_astray hk (fun q hq => ?_) hp ?_ (fun d => ?_) m
    · rw [(htable q).1]
      exact h.base q hq
    · rw [Sending, hflags]
      decide
    · rw [(htable init).2]
      exact hto d
  | _ => exact hm.elim

/-- In every run in which no adoption misleads `INIT`, a trap that is admitted stays in the table
just when it receives, or sends to a process; and a further step keeps it so just when it is no such
adoption. The names that a fork or an exec stores fit, or there is no next state. -/
theorem src_dest_in_table {t : List PmAct}
    (h : Run Start (fun k a k' => PmStep mm k a k' ∧ ¬ PmMisleads k a) t k) :
    (∀ function srcDest, function ≠ .other → Admitted srcDest → ∀ m p,
      NoWild (sysSendrec (save k) function srcDest m p) ↔
        (function = .send → 0 ≤ srcDest ∧ srcDest < nrTasks + nrProcs)) ∧
    ∀ a k', PmStep mm k a k' →
      ((∀ d m p, NoWild (sysSendrec (save k') .send (proc2pid d) m p)) ↔ ¬ PmMisleads k a) := by
  have hinv : Indexed k := by
    refine h.invariant (P := fun _ k => Indexed k) ?_ fun _ _ _ _ hk hs => hk.pmStep hs.1 hs.2
    rintro k ⟨mem, limit, rfl⟩
    exact .start mem limit
  refine ⟨fun function srcDest hf ha m p => hinv.sysSendrec hf ha m p, fun a k' hs => ?_⟩
  constructor
  · intro hno hm
    cases a with
    | fork => exact hm
    | exec => exact hm
    | other a => exact hno init 0 taskMm (hinv.misled hs.2 hm (by decide) 0)
  · intro hok d m p
    have hsend : Function.send ≠ .other := nofun
    exact ((hinv.pmStep hs hok).sysSendrec hsend (.inl (proc2pid_range d)) m p).2
      fun _ => proc2pid_range d

/-- `TestA` is blocked sending to `INIT`. -/
theorem src_dest_in_table_queued : ∃ k,
    PmStep mmEnv64 (kernelMain (fun _ => 0) 0) (.other (.kernel (.sendrec 6 .send 5 0x1000))) k ∧
    (∀ function srcDest, function ≠ .other → Admitted srcDest → ∀ m p,
      NoWild (sysSendrec (save k) function srcDest m p) ↔
        (function = .send → 0 ≤ srcDest ∧ srcDest < nrTasks + nrProcs)) ∧
    ∀ a k', PmStep mmEnv64 k a k' →
      ((∀ d m p, NoWild (sysSendrec (save k') .send (proc2pid d) m p)) ↔ ¬ PmMisleads k a) := by
  obtain ⟨k, hk⟩ := Option.isSome_iff_exists.1 (show (mmStep mmEnv64
    (kernelMain (fun _ => 0) 0) (.kernel (.sendrec 6 .send 5 0x1000))).isSome = true by decide)
  have hs : PmStep mmEnv64 (kernelMain (fun _ => 0) 0)
      (.other (.kernel (.sendrec 6 .send 5 0x1000))) k := ⟨nofun, hk⟩
  exact ⟨k, hs, src_dest_in_table (.snoc (.start ⟨_, _, rfl⟩) ⟨hs, not_false⟩)⟩

/-- `INIT` sends to `ANY`. -/
theorem send_to_any : Run Start (PmStep mmEnv64) [] (kernelMain (fun _ => 0) 0) ∧ Admitted any ∧
    ¬ ∀ m p, NoWild (sysSendrec (save (kernelMain (fun _ => 0) 0)) .send any m p) :=
  ⟨.start ⟨_, _, rfl⟩, .inr (.inl rfl), fun h => h 0x1000 init rfl⟩

end MyOS
