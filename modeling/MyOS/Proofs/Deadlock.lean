import MyOS.Proofs.Ipc
import MyOS.Lib.WaitGraph

/-!
# The deadlock check

A process blocked sending waits for its destination. Every `SEND` that blocks has passed the check,
so the graph of who waits for whom never has a cycle, and the walk of `deadlock` from the
destination ends within as many steps as there are processes. Where it does not meet the sender it
returns 0. Where it does, the report it prints is a user's `printf`: that traps into the kernel
from inside the kernel, where `sys_sendrec` asserts that it is not.
-/

namespace MyOS

open Memory Pointer Relation

/-- Whom a process is blocked sending to. -/
def waitsFor (k : Kernel) (s : Slot) : Option Slot :=
  if (k.procTable s).pFlags &&& sending ≠ 0 then (procAt (k.procTable s).pSendto).toOption else none

theorem waitsFor_eq_some {k : Kernel} {s d : Slot} : waitsFor k s = some d ↔ SendsTo k s d := by
  unfold waitsFor SendsTo
  split_ifs with hs
  · rw [toOption_eq_some, procAt_eq_ok]
    exact ⟨fun h => ⟨hs, h.symm⟩, fun h => h.2.symm⟩
  · exact iff_of_false (by simp) fun h => hs h.1

theorem waitsFor_congr {k k' : Kernel} (h : k'.procTable = k.procTable) :
    waitsFor k' = waitsFor k := by
  funext s
  simp only [waitsFor, h]

/-! ## The walk -/

theorem not_reaches_of_deadlockLoop {k : Kernel} {src dest : Slot} :
    ∀ {n : ℕ} {p : Slot}, p ≠ src → deadlockLoop k src dest n p = .ok false →
      ¬ Reaches (waitsFor k) p src
  | 0, _, _, h => by simp [deadlockLoop] at h
  | n + 1, p, hp, h => by
    rw [deadlockLoop] at h
    intro hr
    obtain ⟨q, hq, hqr⟩ := (ReflTransGen.cases_head_iff.1 hr).resolve_left hp
    rw [waitsFor_eq_some] at hq
    rw [if_pos hq.1, hq.2] at h
    split_ifs at h with hsrc
    · obtain ⟨_, _, h⟩ := bind_eq_ok.1 h
      obtain ⟨_, _, h⟩ := bind_eq_ok.1 h
      simp at h
    · rw [procAt_proc2pid, ok_bind] at h
      exact not_reaches_of_deadlockLoop (fun he => hsrc (congrArg proc2pid he)) h hqr

/-- Along a chain that does not meet `src` the walk ends. -/
theorem deadlockLoop_of_not_mem {k : Kernel} {src dest : Slot}
    (ht : ∀ s, Sending (k.procTable s) → ∃ d, (k.procTable s).pSendto = proc2pid d) :
    ∀ {l : List Slot} {n : ℕ} {p : Slot}, Chain (waitsFor k) (some p) l → src ∉ l →
      l.length ≤ n → deadlockLoop k src dest n p = .ok false
  | [], _, _, hc, _, _ => by simp at hc
  | _ :: _, 0, _, _, _, hn => by simp at hn
  | a :: l, n + 1, p, hc, hs, hn => by
    obtain ⟨hpa, hc'⟩ := chain_cons.1 hc
    obtain rfl : p = a := by simpa using hpa
    rw [List.mem_cons, not_or] at hs
    rw [deadlockLoop]
    by_cases hsp : (k.procTable p).pFlags &&& sending ≠ 0
    · obtain ⟨d, hd⟩ := ht p hsp
      rw [waitsFor_eq_some.2 ⟨hsp, hd⟩] at hc'
      have hds : d ≠ src := by
        rintro rfl
        cases l with
        | nil => simp at hc'
        | cons b l =>
          have hdb := (chain_cons.1 hc').1
          rw [Option.some.injEq] at hdb
          exact hs.2 (by simp [hdb])
      rw [if_pos hsp, hd, if_neg fun he => hds (proc2pid_inj he), procAt_proc2pid, ok_bind]
      exact deadlockLoop_of_not_mem ht hc' hs.2 (by simpa using hn)
    · rw [if_neg hsp]

/-- In the kernel the report of a cycle stops at its first line. -/
theorem printCycle_stops {k : Kernel} {src p d : Slot} {n : ℕ} (hk : k.kReenter = 0)
    (hm : (k.procTable p).pMsg ≠ 0) (hd : (k.procTable p).pSendto = proc2pid d) :
    printCycle k src (n + 1) p = .error .assertion := by
  rw [printCycle, assert_of hm, ok_bind, hd, procAt_proc2pid, ok_bind, printf, save_kReenter, hk]
  rfl

/-- Along a chain that meets `src` further on the walk finds it, and the report stops. -/
theorem deadlockLoop_of_mem {k : Kernel} {src dest d : Slot} (hk : k.kReenter = 0)
    (hm : (k.procTable dest).pMsg ≠ 0) (hd : (k.procTable dest).pSendto = proc2pid d) :
    ∀ {l : List Slot} {n : ℕ} {p : Slot}, Chain (waitsFor k) (some p) l → src ∈ l → p ≠ src →
      l.length ≤ n → deadlockLoop k src dest n p = .error .assertion
  | [], _, _, hc, _, _, _ => by simp at hc
  | _ :: _, 0, _, _, _, _, hn => by simp at hn
  | a :: l, n + 1, p, hc, hs, hp, hn => by
    obtain ⟨hpa, hc'⟩ := chain_cons.1 hc
    obtain rfl : p = a := by simpa using hpa
    have hsl : src ∈ l := (List.mem_cons.1 hs).resolve_left (Ne.symm hp)
    rcases hq : waitsFor k p with _ | q
    · rw [hq, chain_none] at hc'
      simp [hc'] at hsl
    · rw [hq] at hc'
      rw [waitsFor_eq_some] at hq
      rw [deadlockLoop, if_pos hq.1, hq.2]
      split_ifs with hsrc
      · rw [show nrTasks + nrProcs = 36 + 1 from rfl, printCycle_stops hk hm hd]
        rfl
      · rw [procAt_proc2pid, ok_bind]
        exact deadlockLoop_of_mem hk hm hd hc' hsl (fun he => hsrc (congrArg proc2pid he))
          (by simpa using hn)

/-! ## No cycle -/

variable {k k' : Kernel} {queue : Slot → List Slot}

theorem acyclic_send {s d : Slot} {m src : Addr} (h : Acyclic (waitsFor k))
    (hs : (k.procTable s).pFlags = 0) (hds : d ≠ s) (hd : deadlock k s d = .ok false)
    (ho : SendOutcome k s d m src k') : Acyclic (waitsFor k') := by
  cases ho with
  | handOff dst _ _ _ hf _ =>
    refine h.mono fun a b hab => ?_
    rw [waitsFor_eq_some] at hab ⊢
    simp only [SendsTo, handOff_procTable] at hab
    rcases eq_or_ne a d with rfl | had
    · rw [if_pos rfl, hf] at hab
      simp at hab
    · rwa [if_neg had] at hab
  | queueUp last _ _ _ _ =>
    have hw : waitsFor (queueUp k s d m last) = Function.update (waitsFor k) s (some d) := by
      funext a
      rcases eq_or_ne a s with rfl | has
      · rw [Function.update_self, waitsFor_eq_some]
        simp only [SendsTo, queueUp_procTable, if_pos, hs]
        exact ⟨by decide, trivial⟩
      · rw [Function.update_of_ne has]
        refine Option.ext fun b => ?_
        simp only [waitsFor_eq_some, SendsTo, queueUp_procTable, if_neg has]
    rw [hw]
    exact h.wait (not_reaches_of_deadlockLoop hds hd)

theorem acyclic_receive {p : Slot} {src : Int} {m dst : Addr} (h : Acyclic (waitsFor k))
    (ho : ReceiveOutcome k p src m dst k') : Acyclic (waitsFor k') := by
  refine h.mono fun a b hab => ?_
  rw [waitsFor_eq_some] at hab ⊢
  cases ho with
  | takeInterrupt => rcases eq_or_ne a p with rfl | hap <;> simp_all [SendsTo, takeInterrupt]
  | takeFrom s prev _ _ _ _ hf =>
    simp only [SendsTo, takeFrom_procTable] at hab
    rcases eq_or_ne a s with rfl | has
    · rw [if_pos rfl, hf] at hab
      exact absurd (by decide) hab.1
    · rwa [if_neg has, if_neg has] at hab
  | waitFor =>
    rcases eq_or_ne a p with rfl | hap
    · exact absurd (by simp only [waitFor, Kernel.set_procTable, if_pos]; decide) hab.1
    · simpa [SendsTo, waitFor, hap] using hab

theorem acyclic_inform {t : Slot} (h : Acyclic (waitsFor k)) (ho : InformOutcome k t k') :
    Acyclic (waitsFor k') := by
  refine h.mono fun a b hab => ?_
  rw [waitsFor_eq_some] at hab ⊢
  cases ho with
  | wake _ hf _ =>
    rcases eq_or_ne a t with rfl | hat
    · exact absurd (by simpa [wake] using congrArg (· &&& sending) hf) hab.1
    · simpa [SendsTo, wake, hat] using hab
  | pend => rcases eq_or_ne a t with rfl | hat <;> simp_all [SendsTo, pend]

theorem SendrecOutcome.kReenter {p : Slot} {m src : Addr} {function : Function} {srcDest : Int}
    (ho : SendrecOutcome k p m src function srcDest k') : k'.kReenter = k.kReenter := by
  cases ho with
  | send d k' _ _ ho =>
    cases ho with
    | handOff => rfl
    | queueUp last => cases last <;> rfl
  | receive srcDest k' ho =>
    cases ho with
    | takeInterrupt => rfl
    | takeFrom s prev => cases prev <;> rfl
    | waitFor => rfl

/-- Between the steps of a run nobody is in the kernel, and nobody waits for itself. -/
structure NoCycle (k : Kernel) : Prop where
  kReenter : k.kReenter = -1
  acyclic : Acyclic (waitsFor k)

theorem NoCycle.step {a : Act} (h : NoCycle k) (hs : Step k a k') : NoCycle k' := by
  rcases step_cases hs with ⟨p, function, srcDest, m, -, hp, hs⟩ | ⟨t, -, hi⟩ | ⟨mem, -, rfl⟩
  · obtain ⟨src, k₁, -, ho, rfl⟩ := sendrec_ok hs
    refine ⟨by rw [restart_kReenter, ho.kReenter, save_kReenter, h.kReenter]; rfl, ?_⟩
    rw [waitsFor_congr (restart_procTable k₁)]
    cases ho with
    | send d k' hdp hd ho =>
      refine acyclic_send (k := (stamp (save k) p src).note _) h.acyclic hp hdp ?_ ho
      rw [← hd]
      exact deadlock_congr (by simp) (by simp) p d
    | receive srcDest k' ho => exact acyclic_receive (k := stamp (save k) p src) h.acyclic ho
  · have ho := informInt_ok hi
    refine ⟨?_, acyclic_inform (k := k.note (.informed t)) h.acyclic ho⟩
    cases ho <;> exact h.kReenter
  · exact ⟨h.kReenter, h.acyclic⟩

theorem NoCycle.of_run {t : List Act} (h : Run Start Step t k) : NoCycle k := by
  refine h.invariant (P := fun _ k => NoCycle k) (fun k hk => ?_) fun _ _ _ _ => .step
  obtain ⟨mem, limit, rfl⟩ := hk
  refine ⟨rfl, fun a ha => ?_⟩
  obtain ⟨b, hab, -⟩ := TransGen.head'_iff.1 ha
  rw [waitsFor_eq_some] at hab
  obtain ⟨-, -, -, hf | ⟨hf, -⟩⟩ := kernelMain_proc mem limit a <;>
    exact absurd (by rw [hf]; decide) hab.1

/-- Inside a trap the check returns 0 where the destination does not reach the sender, and stops
the kernel where it does. -/
theorem deadlock_cases (h : NoCycle k) (hq : QueueInv k queue) {src dest : Slot}
    (hne : dest ≠ src) :
    (¬ Reaches (waitsFor k) dest src → deadlock (save k) src dest = .ok false) ∧
      (Reaches (waitsFor k) dest src → deadlock (save k) src dest = .error .assertion) := by
  obtain ⟨hk, hacyc⟩ := h
  obtain ⟨l, hl⟩ := hacyc.chain dest
  have hlen : l.length ≤ nrTasks + nrProcs := by simpa using hl.length_le
  rw [reaches_iff_mem_chain hl]
  rw [← waitsFor_congr (save_procTable k)] at hl
  have htarget (s : Slot) (hs : Sending ((save k).procTable s)) := hq.target s hs
  rw [deadlock]
  refine ⟨fun hn => deadlockLoop_of_not_mem htarget hl hn hlen, fun hm => ?_⟩
  obtain ⟨d, hd, -⟩ := (ReflTransGen.cases_head_iff.1
    ((reaches_iff_mem_chain hl).2 hm)).resolve_left hne
  rw [waitsFor_eq_some] at hd
  have hk0 : (save k).kReenter = 0 := by rw [save_kReenter, hk]; rfl
  have hmsg : ((save k).procTable dest).pMsg ≠ 0 := ((hq.proc dest).sending hd.1).1
  exact deadlockLoop_of_mem hk0 hmsg hd.2 hl hm hne hlen

/-- No run makes a cycle of processes that wait for each other, and the check of a send to another
process ends, and is exact, just where the destination does not reach the sender. -/
theorem deadlock_exact_iff {t : List Act} (h : Run Start Step t k) :
    Acyclic (waitsFor k) ∧ ∀ src dest, (k.procTable src).pFlags = 0 → dest ≠ src →
      ((∃ b, deadlock (save k) src dest = .ok b ∧ (b = true ↔ Reaches (waitsFor k) dest src)) ↔
        ¬ Reaches (waitsFor k) dest src) := by
  obtain ⟨queue, hq⟩ := (IpcInv.of_run h).queues
  have hcycle := NoCycle.of_run h
  refine ⟨hcycle.acyclic, fun src dest _ hne => ⟨?_, fun hn => ?_⟩⟩
  · rintro ⟨b, hb, -⟩ hr
    rw [(deadlock_cases hcycle hq.toQueueInv hne).2 hr] at hb
    cases hb
  · exact ⟨false, (deadlock_cases hcycle hq.toQueueInv hne).1 hn, by simpa using hn⟩

/-- `TestA` is blocked sending to `INIT`. -/
theorem deadlock_exact_queued : ∃ k, Run.exec step (kernelMain (fun _ => 0) 0)
      [.sendrec 6 .send 5 0x1000] = some k ∧
    Acyclic (waitsFor k) ∧ ∀ src dest, (k.procTable src).pFlags = 0 → dest ≠ src →
      ((∃ b, deadlock (save k) src dest = .ok b ∧ (b = true ↔ Reaches (waitsFor k) dest src)) ↔
        ¬ Reaches (waitsFor k) dest src) := by
  obtain ⟨k, hk⟩ := Option.isSome_iff_exists.1 (show (Run.exec step (kernelMain (fun _ => 0) 0)
    [.sendrec 6 .send 5 0x1000]).isSome = true by decide)
  exact ⟨k, hk, deadlock_exact_iff (Run.of_exec (.start ⟨_, _, rfl⟩) hk)⟩

/-- `TestA` is blocked sending to `INIT`. If `INIT` sends to `TestA`, the check does not return. -/
theorem deadlock_stops : ∃ k, Run Start Step [.sendrec 6 .send 5 0x1000] k ∧
    (k.procTable 5).pFlags = 0 ∧ Reaches (waitsFor k) 6 5 ∧
      ¬ ∃ b, deadlock (save k) 5 6 = .ok b := by
  have hany : (Run.exec step (kernelMain (fun _ => 0) 0) [.sendrec 6 .send 5 0x1000]).any
      (fun k => (k.procTable 5).pFlags = 0 ∧ waitsFor k 6 = some 5 ∧
        (deadlock (save k) 5 6).toOption = none) = true := by decide
  obtain ⟨k, hk, hp⟩ := (Option.any_eq_true _ _).1 hany
  obtain ⟨hrun, hw, hd⟩ := of_decide_eq_true hp
  refine ⟨k, Run.of_exec (.start ⟨_, _, rfl⟩) hk, hrun, .single hw, fun ⟨b, hb⟩ => ?_⟩
  rw [hb] at hd
  cases hd

end MyOS
