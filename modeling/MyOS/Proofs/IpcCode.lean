import MyOS.IpcCode
import MyOS.Proofs.Outcome

/-!
# What the statements of the message layer compute

Run through without an interrupt, the statements of `msg_send` and of `msg_receive` end as
`msgSend` and `msgReceive` do, and stop where these stop. Only the events are not noted.
-/

namespace MyOS

open Memory Pointer IpcCode

variable {k k' : Kernel} {s t p : Slot} {m : Addr} {src : Int}

/-! ## The state with and without its events -/

/-- The state without what has been noted since `k`. -/
def Kernel.unnoted (k k' : Kernel) : Kernel := { k' with log := k.log }

@[simp] theorem unnoted_procTable (k k' : Kernel) : (k.unnoted k').procTable = k'.procTable := rfl

@[simp] theorem unnoted_mem (k k' : Kernel) : (k.unnoted k').mem = k'.mem := rfl

@[simp] theorem unnoted_kReenter (k k' : Kernel) : (k.unnoted k').kReenter = k'.kReenter := rfl

theorem map_ok {α β : Type} (g : α → β) (a : α) :
    g <$> (Except.ok a : Except Fault α) = .ok (g a) := rfl

theorem map_eq_ok {α β : Type} {g : α → β} {x : Except Fault α} {b : β} :
    g <$> x = .ok b ↔ ∃ a, x = .ok a ∧ g a = b := by
  cases x with
  | error e => exact ⟨fun h => (by cases h), fun ⟨a, h, _⟩ => (by cases h)⟩
  | ok a =>
    refine ⟨fun h => ⟨a, rfl, Except.ok.inj h⟩, fun ⟨a', ha, hb⟩ => ?_⟩
    obtain rfl := Except.ok.inj ha
    exact congrArg Except.ok hb

/-! ## One statement -/

section Run

variable (k : Kernel) (pc : Pc) (next : IpcCode)

theorem run_check (c : Kernel → Prop) [DecidablePred c] :
    (check pc c next).run k = assert (c k) >>= fun _ => next.run k := by
  unfold check assert
  rw [Code.run]
  split_ifs <;> rfl

variable {k pc next} in
theorem run_check_of {c : Kernel → Prop} [DecidablePred c] (h : c k) :
    (check pc c next).run k = next.run k := by
  rw [run_check, assert_of h, ok_bind]

theorem run_stmt (f : Kernel → Except Fault Kernel) :
    Code.run (.stmt pc f next) k = f k >>= next.run := rfl

theorem run_write (p : Slot) (f : Proc → Proc) :
    (write pc p f next).run k = next.run (k.set p f) := rfl

theorem run_read {α : Type} (v : Kernel → α) (next : α → IpcCode) :
    (read pc v next).run k = (next (v k)).run k := rfl

theorem run_follow {v : Kernel → Option Slot} {p : Slot} (h : v k = some p)
    (next : Slot → IpcCode) :
    (follow pc v next).run k = (next p).run k := by
  unfold follow
  rw [Code.run, h]
  rfl

end Run

/-- The statements from an assertion on, against the function from there on. -/
theorem run_check_eq {k₀ : Kernel} {pc : Pc} {next : IpcCode} {c : Kernel → Prop} [DecidablePred c]
    {c' : Prop} [Decidable c'] {f : Unit → Except Fault Kernel} (hc : c k ↔ c')
    (h : c k → next.run k = k₀.unnoted <$> f ()) :
    (check pc c next).run k = k₀.unnoted <$> (assert c' >>= f) := by
  rw [run_check, map_bind]
  by_cases hk : c k
  · rw [assert_of hk, assert_of (hc.1 hk), ok_bind, ok_bind, h hk]
  · rw [assert, if_neg hk, assert, if_neg fun h => hk (hc.2 h)]
    rfl

/-! ## `msg_send` -/

theorem copyMsg_eq {d : Slot} {a b : Addr} (ha : a ≠ 0) (hb : b ≠ 0) (e : Event) :
    copyMsg d a s b k = k.unnoted <$> physCopy (k.note e) d a s b := by
  rw [copyMsg, if_neg fun h => h.elim ha hb, physCopy, map_bind]
  refine congrArg _ (funext fun dst => ?_)
  rw [map_bind]
  refine congrArg _ (funext fun src => ?_)
  simp only [map_ok, Kernel.unnoted, Kernel.note]

theorem deliverCode_run (e : Event) :
    (deliverCode s t m).run k = k.unnoted <$> deliver (k.note e) s t m := by
  refine run_check_eq Iff.rfl fun hp => run_check_eq Iff.rfl fun hm => ?_
  rw [run_stmt, copyMsg_eq hp hm e, map_bind, bind_map_left]
  refine congrArg _ (funext fun k' => ?_)
  rw [run_write, run_write, run_write, Kernel.set_set, Kernel.set_set]
  repeat refine run_check_eq Iff.rfl fun _ => ?_
  rfl

theorem lastCode_run {next : Slot → IpcCode} : ∀ {n : ℕ} {p : Slot}, (lastCode n p next).run k =
    match lastFrom (fun p => (k.procTable p).nextSending) n p with
    | some q => (next q).run k
    | none => .error .spin
  | 0, p => rfl
  | n + 1, p => by
    rw [lastFrom, lastCode, run_read]
    cases hq : (k.procTable p).nextSending with
    | none => rfl
    | some q =>
      rw [decide_eq_true (Option.some_ne_none q), if_pos rfl, run_follow _ _ hq]
      exact lastCode_run

theorem enqueueCode_run {next : IpcCode} :
    (enqueueCode s t next).run k = enqueue k t s >>= next.run := by
  rw [enqueueCode, run_read, enqueue]
  cases hq : (k.procTable t).qSending with
  | none => rfl
  | some q =>
    rw [decide_eq_true (Option.some_ne_none q), if_pos rfl, run_follow _ _ hq, lastCode_run]
    dsimp only
    cases hl : lastFrom (fun p => (k.procTable p).nextSending) (nrTasks + nrProcs) q with
    | none => rfl
    | some p => rfl

theorem enqueue_note (e : Event) :
    enqueue k t s = k.unnoted <$> enqueue (k.note e) t s := by
  rw [enqueue, enqueue, Kernel.note_procTable]
  cases (k.procTable t).qSending with
  | none => rfl
  | some q =>
    dsimp only
    cases lastFrom (fun p => (k.procTable p).nextSending) (nrTasks + nrProcs) q <;> rfl

theorem queueUpCode_run (e : Event) :
    (queueUpCode s t m).run k = k.unnoted <$> blockSending (k.note e) s t m := by
  rw [queueUpCode, run_write]
  refine run_check_eq Iff.rfl fun _ => ?_
  rw [run_write, run_write, Kernel.set_set, enqueueCode_run, enqueue_note e, map_bind,
    bind_map_left]
  refine congrArg _ (funext fun k' => ?_)
  repeat refine run_check_eq Iff.rfl fun _ => ?_
  rfl

theorem sendCode_run : (sendCode s t m).run k = k.unnoted <$> msgSend k s (proc2pid t) m := by
  rw [msgSend, procAt_proc2pid, ok_bind]
  refine run_check_eq Iff.rfl fun _ => ?_
  generalize Event.call _ _ _ = e
  rw [Code.run, map_bind, deadlock_congr (Kernel.note_procTable k e) (Kernel.note_kReenter k e)]
  refine congrArg _ (funext fun d => ?_)
  cases d with
  | true => rfl
  | false =>
    rw [if_neg Bool.false_ne_true, if_neg Bool.false_ne_true, run_read]
    by_cases ha : Awaits k t s
    · unfold Awaits at ha
      rw [if_pos (decide_eq_true ha), if_pos (by exact ha)]
      exact deliverCode_run e
    · unfold Awaits at ha
      rw [if_neg fun h => ha (of_decide_eq_true h), if_neg (by exact ha)]
      exact queueUpCode_run e

/-! ## `msg_receive` -/

theorem intCode_run : (intCode p m).run k = k.unnoted <$> receiveInterrupt k p m := by
  refine run_check_eq Iff.rfl fun _ => ?_
  rw [run_stmt, map_bind, bind_assoc]
  refine congrArg _ (funext fun dst => ?_)
  rw [ok_bind, run_write]
  generalize Event.hardInt _ _ = e
  repeat refine run_check_eq Iff.rfl fun _ => ?_
  rfl

theorem rendezvousCode_run {from_ : Slot} {next : IpcCode} :
    (rendezvousCode p from_ next).run k = assertRendezvous k p from_ >>= fun _ => next.run k := by
  simp only [rendezvousCode, assertRendezvous, run_check, bind_assoc]

theorem findCode_run {from_ : Slot} {next : Option Slot → IpcCode}
    (hs : (k.procTable from_).pFlags &&& sending ≠ 0) : ∀ {n : ℕ} {prev q : Option Slot},
    (findCode from_ n prev q next).run k =
      match findPrev (fun q => (k.procTable q).nextSending) from_ n prev q with
      | none => .error .spin
      | some (prev, _) => (next prev).run k
  | n, prev, none => by
    cases n <;> rfl
  | 0, prev, some q => rfl
  | n + 1, prev, some q => by
    rw [findCode, run_check_of (by exact hs), findPrev]
    split_ifs
    · rfl
    · rw [run_read]
      exact findCode_run hs

theorem chooseCode_run {next : Option (Slot × Option Slot) → IpcCode} :
    (chooseCode p src next).run k = chooseSender k p src >>= fun c => (next c).run k := by
  unfold chooseCode chooseSender
  split_ifs with hany hsrc
  · rw [run_read]
    cases hq : (k.procTable p).qSending with
    | none => rfl
    | some q =>
      rw [decide_eq_true (Option.some_ne_none q), if_pos rfl, run_follow _ _ hq, rendezvousCode_run]
      dsimp only
      rw [bind_assoc]
      rfl
  · have hat : ∃ q, procAt src = .ok q := by
      unfold procAt
      have hlt : 0 ≤ src ∧ src.toNat < nrTasks + nrProcs := by omega
      exact ⟨_, dif_pos hlt⟩
    obtain ⟨q, hat⟩ := hat
    rw [hat, ok_bind]
    dsimp only
    rw [run_read]
    by_cases hs : (k.procTable q).pFlags &&& sending ≠ 0 ∧ (k.procTable q).pSendto = proc2pid p
    · rw [decide_eq_true hs, if_pos rfl, if_pos hs, run_read, run_check, findCode_run hs.1,
        bind_assoc]
      refine congrArg _ (funext fun _ => ?_)
      cases findPrev (fun q => (k.procTable q).nextSending) q (nrTasks + nrProcs) none
          (k.procTable p).qSending with
      | none => rfl
      | some x =>
        dsimp only
        rw [rendezvousCode_run, bind_assoc]
        rfl
    · rw [decide_eq_false hs, if_neg Bool.false_ne_true, if_neg hs]
      rfl
  · have hat : ∃ e, procAt src = .error e := by
      unfold procAt
      have hlt : ¬ (0 ≤ src ∧ src.toNat < nrTasks + nrProcs) := by omega
      exact ⟨_, dif_neg hlt⟩
    obtain ⟨e, hat⟩ := hat
    rw [hat]
    rfl

theorem physCopy_unnoted {d : Slot} {a b : Addr} (ha : a ≠ 0) (hb : b ≠ 0) :
    copyMsg d a s b k = k.unnoted <$> physCopy k d a s b := by
  rw [copyMsg, if_neg fun h => h.elim ha hb, physCopy, map_bind]
  refine congrArg _ (funext fun dst => ?_)
  rw [map_bind]
  refine congrArg _ (funext fun src => ?_)
  simp only [map_ok, Kernel.unnoted, Kernel.note]

theorem takeCode_run {from_ : Slot} {prev : Option Slot} :
    (takeCode p from_ prev m).run k = k.unnoted <$> takeMessage k p from_ prev m := by
  have hend (k₁ : Kernel) : (takeEnd p from_ m).run k₁ = k₁.unnoted <$> (do
      let k := k₁.set from_ fun x => { x with nextSending := none }
      assert (m ≠ 0)
      assert ((k.procTable from_).pMsg ≠ 0)
      let k ← physCopy k p m from_ (k.procTable from_).pMsg
      let k := k.set from_ fun x =>
        { x with pMsg := 0, pSendto := noTask, pFlags := x.pFlags &&& ~~~sending }
      unblock k from_
      .ok k) := by
    rw [takeEnd, run_write]
    refine run_check_eq Iff.rfl fun hm => run_check_eq Iff.rfl fun hp => ?_
    rw [run_stmt, physCopy_unnoted hm hp, map_bind, bind_map_left]
    refine congrArg _ (funext fun k' => ?_)
    rw [run_write, run_write, run_write, run_write, Kernel.set_set, Kernel.set_set, Kernel.set_set]
    refine run_check_eq Iff.rfl fun _ => ?_
    rfl
  unfold takeCode takeMessage unlink
  rw [run_read]
  by_cases hq : some from_ = (k.procTable p).qSending
  · rw [if_pos (decide_eq_true hq), if_pos hq, bind_assoc]
    refine run_check_eq Iff.rfl fun _ => ?_
    rw [run_stmt, ok_bind, ok_bind, hend]
    rfl
  · rw [if_neg fun h => hq (of_decide_eq_true h), if_neg hq]
    cases prev with
    | none => rfl
    | some q =>
      dsimp only
      rw [run_stmt, ok_bind, ok_bind, hend]
      rfl

theorem blockCode_run : (blockCode p src m).run k = k.unnoted <$> blockReceiving k p src m := by
  rw [blockCode, run_write, run_write, run_write, Kernel.set_set, Kernel.set_set]
  refine run_check_eq Iff.rfl fun _ => ?_
  rw [run_write]
  repeat refine run_check_eq Iff.rfl fun _ => ?_
  rfl

theorem receiveCode_run : (receiveCode p src m).run k = k.unnoted <$> msgReceive k p src m := by
  refine run_check_eq Iff.rfl fun _ => ?_
  rw [run_read]
  by_cases hi : (k.procTable p).hasIntMsg = true ∧ (src = any ∨ src = interrupt)
  · rw [if_pos (decide_eq_true hi), if_pos hi]
    exact intCode_run
  · rw [if_neg fun h => hi (of_decide_eq_true h), if_neg hi, chooseCode_run, map_bind]
    refine congrArg _ (funext fun c => ?_)
    rcases c with _ | ⟨q, prev⟩
    · exact blockCode_run
    · exact takeCode_run

end MyOS
